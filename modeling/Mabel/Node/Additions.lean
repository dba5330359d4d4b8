import Mabel.Node.Push

/-!
# The u64 additions of a push

Every sum of two `u64` values a push makes, in the order it makes them: the contiguity loop,
the overlap, the count and byte sums of the cap checks and the numbering of what is written.
Files that fail to be written stop a push earlier than the list says.
-/

namespace Mabel.Node

open Wire

variable {C : Crypto}

/-- `MAX_EVENTS_PER_LEDGER`. -/
def maxEventsPerLedger : Nat := 4096

/-- `MAX_BYTES_PER_LEDGER`. -/
def maxBytesPerLedger : Nat := 4 * 1024 * 1024

/-- `MAX_LEDGERS`. -/
def maxLedgers : Nat := 10000

/-- `MAX_FORK_RECORDS`. -/
def maxForkRecords : UInt32 := 8

/-- The fixed caps, with the storage capacity of `node.json`. -/
def StorageCaps.fromConfig (storageCapacity : Nat) : StorageCaps :=
  ⟨maxEventsPerLedger, maxBytesPerLedger, maxLedgers, maxForkRecords, storageCapacity⟩

/-- A sum of two `u64` values. -/
structure Addition where
  left : Nat
  right : Nat
  deriving DecidableEq

/-- The sum is a `u64` value too. -/
def Addition.Fits (addition : Addition) : Prop := addition.left + addition.right < 2 ^ 64

instance (addition : Addition) : Decidable addition.Fits :=
  inferInstanceAs (Decidable (_ < _))

/-- The contiguity loop, from an offset on. -/
def checkRunAdditions (checks : Bool) (first : Nat) : Nat → List Bytes → List Addition
  | _, [] => []
  | offset, event :: events =>
    ⟨first, offset⟩ ::
      if addU64 checks first offset = seqOf event then
        checkRunAdditions checks first (offset + 1) events
      else []

/-- The overlap loop, from an offset on. -/
def overlapAdditions (files : LedgerFiles C) (headSeq first : Nat) :
    Nat → List Bytes → List Addition
  | _, [] => []
  | offset, event :: events =>
    ⟨first, offset⟩ ::
      if first + offset > headSeq then []
      else if files.events.get? (first + offset) = some event then
        overlapAdditions files headSeq first (offset + 1) events
      else []

/-- The bytes of a run, summed up event by event. -/
def byteAdditions (total : Nat) : List Bytes → List Addition
  | [] => []
  | event :: events => ⟨total, event.length⟩ :: byteAdditions (total + event.length) events

/-- The count of an entry is one past its head. -/
def countAdditions (entry : Option (Entry C)) : List Addition :=
  entry.toList.map fun entry => ⟨entry.headSeq, 1⟩

/-- The cap checks, each behind those before it. -/
def checkCapsAdditions (caps : StorageCaps) (index : Index C) (ledger : LedgerId)
    (events bytes : Nat) : List Addition :=
  let entry := index.ledgers.get? ledger
  let heldEvents := entry.elim 0 Entry.eventCount
  let heldBytes := entry.elim 0 Entry.bytes
  countAdditions entry ++ ⟨heldEvents, events⟩ ::
    if heldEvents + events > caps.eventsPerLedger then []
    else ⟨heldBytes, bytes⟩ ::
      if heldBytes + bytes > caps.bytesPerLedger ∨
          entry = none ∧ index.ledgers.entries.length ≥ caps.ledgers then []
      else [⟨index.storageUsed, bytes⟩]

/-- Numbering a run and recording it in the index. -/
def recordAdditions (index : Index C) (ledger : LedgerId) (events : List Bytes) :
    List Addition :=
  let entry := index.ledgers.get? ledger
  let bytes := (events.map List.length).sum
  countAdditions entry ++
    (List.range events.length).map (fun offset => ⟨entry.elim 0 Entry.eventCount, offset⟩) ++
    [⟨index.storageUsed, bytes⟩, ⟨entry.elim 0 Entry.bytes, bytes⟩]

/-- Writing a verified run. -/
def storeRunAdditions (caps : StorageCaps) (index : Index C) (ledger : LedgerId)
    (events : List Bytes) : List Addition :=
  if events = [] then []
  else
    let bytes := (events.map List.length).sum
    byteAdditions 0 events ++ checkCapsAdditions caps index ledger events.length bytes ++
      if checkCaps caps index ledger events.length bytes = .ok () then
        recordAdditions index ledger events
      else []

/-- Where the event that stopped a run stands. -/
def answerAdditions (first fresh valid : Nat) (violation : Option (Reason C)) : List Addition :=
  if violation.isSome then [⟨fresh, valid⟩, ⟨first, fresh + valid⟩] else []

/-- What admission lets through of a fold. -/
def admittedAdditions (s : LedgerStorage C) (ledger : LedgerId) (pre : Option (LedgerState C))
    (post : LedgerState C) (additions : List Addition) : List Addition :=
  if (Program.run StoreOp.exec (admitPush s.setup ledger pre post) s).1 = .ok () then additions
  else []

/-- Folding and storing what a run adds to a held ledger. -/
def extendAdditions (s : LedgerStorage C) (call : PushCall C) (first fresh : Nat)
    (stored : LedgerState C) : List Addition :=
  let suffix := call.events.drop fresh
  match applyRun stored suffix with
  | .error _ => []
  | .ok (state, valid, violation) =>
    admittedAdditions s call.ledger (some stored) state
      (storeRunAdditions s.setup.caps s.index call.ledger (suffix.take valid) ++
        answerAdditions first fresh valid violation)

/-- A push against a held ledger. -/
def spliceAdditions (s : LedgerStorage C) (call : PushCall C) (first : Nat) (entry : Entry C) :
    List Addition :=
  ⟨entry.headSeq, 1⟩ ::
    if first > entry.headSeq + 1 then []
    else
      overlapAdditions (s.filesOf call.ledger) entry.headSeq first 0 call.events ++
        match (Program.run StoreOp.exec (onFiles call.ledger (overlap (s.setup.ledger call.ledger)
          entry.headSeq first 0 call.events)) s).1 with
        | .ok (.agrees fresh) =>
          if call.events.drop fresh = [] then []
          else extendAdditions s call first fresh entry.state
        | _ => []

/-- The first push of a ledger. -/
def ingestAdditions (s : LedgerStorage C) (call : PushCall C) (first : Nat) : List Addition :=
  if first ≠ 0 then []
  else
    match applyRun (LedgerState.default : LedgerState C) call.events with
    | .error _ => []
    | .ok (state, valid, _) =>
      if valid = 0 ∨ state.ledger ≠ some call.ledger then []
      else
        admittedAdditions s call.ledger none state
          (storeRunAdditions s.setup.caps s.index call.ledger (call.events.take valid))

/-- A push, from the sequence its first event declares. -/
def pushAdditions (s : LedgerStorage C) (call : PushCall C) : List Addition :=
  match call.events.head?.map seqOf with
  | some (.ok first) =>
    checkRunAdditions s.setup.overflowChecks first 0 call.events ++
      if checkRun s.setup.overflowChecks first 0 call.events = .ok () then
        match s.index.ledgers.get? call.ledger with
        | some entry => spliceAdditions s call first entry
        | none => ingestAdditions s call first
      else []
  | _ => []

end Mabel.Node
