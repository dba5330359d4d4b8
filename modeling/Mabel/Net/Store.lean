import Mabel.Ledger.Fold.State

/-!
# What crosses the store boundary

The values a sync server and a store exchange: who sent a request, what a push stored,
the evidence of a fork, and the rejection a peer sees.
-/

namespace Mabel.Net

open Wire

/-- The code of a rejection. -/
inductive RejectCode where
  | unspecified
  | malformed
  | tooLarge
  | invalid
  | fork
  | unsupported
  | notAdmitted
  | busy
  deriving DecidableEq, Repr

/-- Why a peer refused a request. -/
structure Rejection where
  code : RejectCode
  /-- The sequence the rejection is about, 0 when none applies. -/
  atSeq : Nat
  /-- A human-readable reason, never authoritative. -/
  msg : String
  deriving DecidableEq, Repr

/-- A rejection with no sequence attached. -/
def Rejection.new (code : RejectCode) (msg : String) : Rejection := ⟨code, 0, msg⟩

/-- Why a store did not answer a request. -/
inductive StoreError where
  /-- The store refuses the request, with a code the peer sees. -/
  | rejected (rejection : Rejection)
  /-- The store failed for a reason the peer cannot fix. -/
  | unavailable (msg : String)
  deriving DecidableEq, Repr

namespace StoreError

/-- The pushed events did not verify. -/
def invalid (atSeq : Nat) (msg : String) : StoreError := .rejected ⟨.invalid, atSeq, msg⟩

/-- A pushed event collides with a stored one at the same sequence. -/
def fork (atSeq : Nat) (msg : String) : StoreError := .rejected ⟨.fork, atSeq, msg⟩

/-- The store does not accept pushes for this ledger. -/
def notAdmitted (msg : String) : StoreError := .rejected (.new .notAdmitted msg)

end StoreError

/-- Who sent a request. -/
structure Provenance (C : Crypto) where
  endpoint : Option (EndpointId C)
  deriving DecidableEq

/-- Where a ledger ends. -/
structure Head where
  headSeq : Nat
  headEvent : EventId
  updatedMs : Nat
  deriving DecidableEq

/-- One page of a ledger's events. -/
structure EventPage where
  events : List Bytes
  headSeq : Nat
  more : Bool
  deriving DecidableEq

/-- One page of a listing. -/
structure Page (α : Type) where
  items : List α
  /-- Whether items past this page exist. -/
  more : Bool
  deriving DecidableEq

/-- One ledger, as a listing shows it. -/
structure LedgerSummary where
  ledger : LedgerId
  declaredKind : DeclaredKind
  headSeq : Nat
  headEvent : EventId
  eventCount : Nat
  firstSeenMs : Nat
  updatedMs : Nat
  forkCount : Nat
  forksTruncated : Bool
  deriving DecidableEq

/-- What a push stored. -/
structure PushOutcome where
  /-- The ledger's head sequence after the push. -/
  headSeq : Nat
  /-- How many events this push newly stored. -/
  stored : Nat
  deriving DecidableEq, Repr

/-- Two validly signed events at one sequence of one ledger. -/
structure ForkRecord (C : Crypto) where
  ledger : LedgerId
  seq : Nat
  /-- The event the store saw first and kept. -/
  kept : Bytes
  conflicting : Bytes
  observedMs : Nat
  sourceEndpoint : Option (EndpointId C)
  deriving DecidableEq

end Mabel.Net
