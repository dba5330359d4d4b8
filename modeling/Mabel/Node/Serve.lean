import Mabel.Node.Reload

/-!
# Reads

What a node answers to a peer that asks: where a ledger ends, a page of its events, a page
of the ledgers it is willing to be known to hold and a page of its fork records.
-/

namespace Mabel.Node

open Wire Net

variable {C : Crypto}

/-! ## Reports -/

/-- What the HTTP surface needs about one ledger beyond its summary. -/
structure LedgerReport (C : Crypto) where
  summary : LedgerSummary
  sourceEndpoint : Option (EndpointId C)
  witnesses : List IdentityId
  deriving DecidableEq

/-- One ledger's events, as a read serves them. -/
structure StoredPage (C : Crypto) where
  report : LedgerReport C
  /-- The encoded events, ascending from the requested sequence. -/
  events : List Bytes
  /-- Whether events past this page exist. -/
  more : Bool
  deriving DecidableEq

namespace Entry

def declaredKind (entry : Entry C) : DeclaredKind :=
  entry.state.declaredKind.getD .kindUnspecified

/-- The row a listing reports. -/
def summary (entry : Entry C) (ledger : LedgerId) (cap : UInt32) : LedgerSummary where
  ledger := ledger
  declaredKind := entry.declaredKind
  headSeq := entry.headSeq
  headEvent := entry.headEvent
  eventCount := entry.eventCount
  firstSeenMs := entry.firstSeenMs
  updatedMs := entry.updatedMs
  forkCount := entry.forks.length % 2 ^ 32
  forksTruncated := entry.forksTruncated cap

def report (entry : Entry C) (ledger : LedgerId) (cap : UInt32) : LedgerReport C :=
  ⟨entry.summary ledger cap, entry.sourceEndpoint, witnessIdentities entry.state⟩

end Entry

/-! ## Pages of events -/

/-- Read events from a sequence up to the head, at most a number of them, and answer where
the reading stopped. -/
def readPage (store : LedgerStore C) (headSeq : Nat) : Nat → Nat → OnFiles C (List Bytes × Nat)
  | 0, seq => pure ([], seq)
  | limit + 1, seq =>
    if seq ≤ headSeq then do
      let event ← store.readEvent seq
      let (events, seq) ← readPage store headSeq limit (seq + 1)
      pure (event :: events, seq)
    else pure ([], seq)

/-- One page of a ledger's events, with the ledger's row beside them. -/
def page (setup : Setup) (ledger : LedgerId) (since limit : Nat) (clock : LoadClock) :
    OnNode C StorageError (Option (StoredPage C)) := do
  let head ← head setup ledger clock
  if head = none then pure none
  else do
    let entry ← readEntry ledger
    match entry with
    | none => pure none
    | some entry => do
      let (events, seq) ← onLedger ledger
        (readPage (setup.ledger ledger) entry.headSeq limit since)
      pure (some ⟨entry.report ledger setup.caps.forkRecords, events,
        decide (seq ≤ entry.headSeq)⟩)

/-- One page of a ledger's events from a sequence on. -/
def readFrom (setup : Setup) (ledger : LedgerId) (since limit : Nat) (clock : LoadClock) :
    OnNode C StorageError (Option EventPage) := do
  let page ← page setup ledger since limit clock
  pure (page.map fun page => ⟨page.events, page.report.summary.headSeq, page.more⟩)

/-! ## Pages of listings -/

/-- A page of a listing. -/
def pageOf {α : Type} (items : List α) (offset limit : Nat) : Page α :=
  let page := (items.drop offset).take limit
  ⟨page, decide (offset + page.length < items.length)⟩

namespace LedgerStorage

/-- Whether a listing names this ledger. -/
def enumerable (s : LedgerStorage C) (ledger : LedgerId) (entry : Entry C) : Bool :=
  s.home.canSignFor ledger ||
    (!s.setup.policy.witnessFor.isEmpty && names entry.state s.setup.policy.witnessFor)

/-- The rows of the enumerable ledgers, by ascending ledger id. -/
def summaries (s : LedgerStorage C) : List LedgerSummary :=
  (s.index.ledgers.entries.filter fun e => s.enumerable e.1 e.2).map
    fun e => e.2.summary e.1 s.setup.caps.forkRecords

/-- What this home is willing to be known to hold. -/
def list (s : LedgerStorage C) (offset limit : Nat) : Page LedgerSummary :=
  pageOf s.summaries offset limit

/-- The fork records of one ledger or of every ledger, by ascending ledger id. -/
def forkRecords (s : LedgerStorage C) (ledger : Option LedgerId) : List (ForkRecord C) :=
  (s.index.ledgers.entries.filter fun e => ledger.all (· == e.1)).flatMap fun e => e.2.forks

/-- A page of fork records. -/
def forks (s : LedgerStorage C) (ledger : Option LedgerId) (offset limit : Nat) :
    Page (ForkRecord C) :=
  pageOf (s.forkRecords ledger) offset limit

end LedgerStorage

end Mabel.Node
