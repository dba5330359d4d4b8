import Mabel.Core.Divergence
import Mabel.Ledger.Link
import Mabel.Node.Sync

/-!
# Comparing what several sources served

The verifier keeps the candidate that extends every other one and reports two that hold
different events at a sequence. The crawler compares every copy with the first in source
order and keeps the longest of those that do not differ from it.
-/

namespace Mabel.Node

open Wire

variable {C : Crypto}

/-! ## The verifier -/

/-- One verified candidate and the endpoint that served it. -/
structure Candidate (C : Crypto) where
  source : EndpointId C
  loaded : LoadedLedger C
  deriving DecidableEq

/-- One side of an equivocation: a source and the event it holds where the two disagree. -/
structure Divergent (C : Crypto) where
  source : EndpointId C
  event : String
  deriving DecidableEq

/-- Why no candidate won. -/
inductive VerifyError (C : Crypto) where
  | noSourceAvailable (ledger : LedgerId) (queried : List (EndpointId C))
  | equivocation (ledger : LedgerId) (atSeq : Nat) (first second : Divergent C)
  deriving DecidableEq

/-- The line a person reads. -/
def VerifyError.message : VerifyError C → String
  | .noSourceAvailable ledger _ => s!"no source answered for {linkPrefix}{ledger.display}"
  | .equivocation ledger atSeq _ _ =>
    s!"two sources hold divergent events at seq {atSeq} of {linkPrefix}{ledger.display}"

/-- The id a chain's event at a position is reported under, zeros where it has none. -/
def LoadedLedger.eventAt (loaded : LoadedLedger C) (seq : Nat) : String :=
  loaded.eventIds[seq]?.join.elim (renderId (.zero idBytes)) fun id => renderId id.raw

/-- How a candidate is named in an equivocation at a sequence. -/
def Candidate.divergent (candidate : Candidate C) (seq : Nat) : Divergent C :=
  ⟨candidate.source, candidate.loaded.eventAt seq⟩

/-- The first sequence where two candidates hold different events, with the event id each
holds there. -/
def divergence (left right : Candidate C) : Option (Nat × Divergent C × Divergent C) :=
  (firstDifference left.loaded.events right.loaded.events).map fun seq =>
    (seq, left.divergent seq, right.divergent seq)

/-- Compare the best candidate so far with the ones that follow. -/
def winnerFrom (ledger : LedgerId) (best : Candidate C) :
    List (Candidate C) → Outcome (VerifyError C) (Candidate C)
  | [] => .ok best
  | candidate :: candidates =>
    match divergence best candidate with
    | some (atSeq, first, second) => Outcome.reject (.equivocation ledger atSeq first second)
    | none =>
      winnerFrom ledger
        (if candidate.loaded.events.length > best.loaded.events.length then candidate else best)
        candidates

/-- The candidate that extends every other one. -/
def winner (ledger : LedgerId) : List (Candidate C) → Outcome (VerifyError C) (Candidate C)
  | [] => Outcome.reject (.noSourceAvailable ledger [])
  | candidate :: candidates => winnerFrom ledger candidate candidates

/-! ## The crawler -/

/-- Where a copy of a ledger came from, with ids as documents spell them. -/
inductive FetchSource where
  | localCopy
  | callerHint (endpoint : String)
  | peerHint (endpoint : String)
  | nodeWitness (witness endpoint : String)
  | ledgerEndpoint (endpoint : String)
  | witnessIdentity (witness endpoint : String)
  | legacyWitnessHint (endpoint : String)
  | dnsEndpoint (hostname endpoint : String)
  deriving DecidableEq

/-- How a read ended. -/
inductive NodeStatus where
  | ok
  | unreachable
  | invalid
  /-- Two sources served valid chains that diverge at a sequence. -/
  | equivocation
  deriving DecidableEq, Repr

/-- One side of an equivocation the crawler records. -/
structure EquivocationBranch where
  source : FetchSource
  event : String
  deriving DecidableEq

/-- Two valid chains of one ledger that disagree at a sequence. -/
structure Equivocation where
  atSeq : Nat
  branches : List EquivocationBranch
  deriving DecidableEq

/-- One outgoing attestation of a folded ledger. -/
structure TrustEdge where
  subject : IdentityId
  attestationEvent : EventId
  seq : Nat
  deriving DecidableEq

/-- Everything the crawl keeps from one verified ledger. -/
structure LedgerSummary (C : Crypto) where
  ledger : LedgerId
  declaredKind : DeclaredKind
  displayName : Option String
  hostname : Option String
  email : Option String
  headSeq : Nat
  headEvent : EventId
  endpoints : List (EndpointId C)
  witnessIdentities : List IdentityId
  legacyWitnesses : List (EndpointId C)
  /-- The current attestations, ascending by position. -/
  trust : List TrustEdge
  deriving DecidableEq

/-- What the inception declared, `person` unless it says otherwise. -/
def LoadedLedger.declaredKind (loaded : LoadedLedger C) : DeclaredKind :=
  match loaded.state.declaredKind with
  | none => .person
  | some .kindUnspecified => .person
  | some kind => kind

/-- Edges go by position, then by subject. -/
def TrustEdge.order (edge : TrustEdge) : Nat ×ₗ IdentityId := toLex (edge.seq, edge.subject)

/-- The summary of a folded chain. -/
def LedgerSummary.of (loaded : LoadedLedger C) : LedgerSummary C where
  ledger := loaded.ledger
  declaredKind := loaded.declaredKind
  displayName := loaded.state.profile.bind Profile.displayName
  hostname := loaded.state.profile.bind Profile.hostname
  email := loaded.state.profile.bind Profile.email
  headSeq := loaded.headSeq
  headEvent := loaded.headEvent
  endpoints := Node.endpoints loaded.state
  witnessIdentities := Node.witnessIdentities loaded.state
  legacyWitnesses := loaded.state.witnessEndpoints
  trust := ((loaded.state.trust.entries.filter fun e => !e.2.isRevoked).map fun e =>
    ⟨e.2.subject, e.1, (loaded.seqOf.get? e.1).getD 0⟩).insertionSort fun a b =>
      a.order ≤ b.order

/-- What one attempt to read a ledger produced. -/
structure FetchOutcome (C : Crypto) where
  ledger : LedgerId
  status : NodeStatus
  summary : Option (LedgerSummary C)
  /-- The source that served the kept copy. -/
  source : Option FetchSource
  sourcesTried : List FetchSource
  equivocation : Option Equivocation
  fetchedAtMs : Nat
  detail : Option String
  deriving DecidableEq

namespace FetchOutcome

/-- A ledger no source served. -/
def unreachable (now : Nat) (ledger : LedgerId) (tried : List FetchSource) : FetchOutcome C :=
  ⟨ledger, .unreachable, none, none, tried, none, now, none⟩

/-- A ledger every answering source served badly. -/
def invalid (now : Nat) (ledger : LedgerId) (tried : List FetchSource) (detail : String) :
    FetchOutcome C :=
  { unreachable now ledger tried with status := .invalid, detail := some detail }

/-- A ledger one source served and that folded with no violation. -/
def verified (now : Nat) (summary : LedgerSummary C) (source : FetchSource)
    (tried : List FetchSource) : FetchOutcome C :=
  ⟨summary.ledger, .ok, some summary, some source, tried, none, now, none⟩

/-- The same outcome with an equivocation recorded on it. -/
def withEquivocation (outcome : FetchOutcome C) (equivocation : Equivocation) : FetchOutcome C :=
  { outcome with status := .equivocation, equivocation := some equivocation }

end FetchOutcome

/-- A copy of a ledger and where it came from. -/
abbrev Copy (C : Crypto) := FetchSource × LoadedLedger C

/-- How two copies that differ at a sequence are recorded. -/
def branchesAt (first other : Copy C) (seq : Nat) : Equivocation :=
  ⟨seq, [⟨first.1, first.2.eventAt seq⟩, ⟨other.1, other.2.eventAt seq⟩]⟩

/-- Compare copies with the first, keeping the longest that does not differ from it and the
first that does. -/
def compareCopies (first kept : Copy C) (equivocation : Option Equivocation) :
    List (Copy C) → Copy C × Option Equivocation
  | [] => (kept, equivocation)
  | copy :: copies =>
    match firstDifference first.2.events copy.2.events with
    | some seq => compareCopies first kept (equivocation.or (branchesAt first copy seq)) copies
    | none =>
      if copy.2.events.length > kept.2.events.length then
        compareCopies first copy equivocation copies
      else compareCopies first kept equivocation copies

/-- The outcome of comparing what the sources served. -/
def FetchOutcome.decide (now : Nat) (ledger : LedgerId) (tried : List FetchSource)
    (candidates : List (Copy C)) (invalid : Option String) : FetchOutcome C :=
  match candidates with
  | [] =>
    match invalid with
    | some detail => .invalid now ledger tried detail
    | none => .unreachable now ledger tried
  | first :: rest =>
    match compareCopies first first none rest with
    -- Nothing resolves a divergence, so the first copy is kept and both branches recorded.
    | (_, some equivocation) =>
      (FetchOutcome.verified now (.of first.2) first.1 tried).withEquivocation equivocation
    | (kept, none) => .verified now (.of kept.2) kept.1 tried

end Mabel.Node
