import Mabel.Core.SortedMap
import Mabel.Ledger.Sign.Keys
import Mathlib.Data.List.MinMax
import Mathlib.Data.List.Sort
import Mathlib.Data.Prod.Lex

/-!
# Where to look for a ledger

A home remembers the endpoints that once served each ledger. They are hints and authorize nothing.
Each ledger holds a few of them: past the cap the one with the oldest success goes, a month without
a success drops a hint, and so do three failures with no success between them.
-/

namespace Mabel.Node

variable {C : Crypto}

/-- `MAX_HINTS`: hints one ledger may hold. -/
def maxHints : Nat := 8

/-- `HINT_MAX_AGE_MS`: how long a hint survives without a success, 30 days. -/
def hintMaxAgeMs : Nat := 30 * 24 * 60 * 60 * 1000

/-- `MAX_FAILURES`: consecutive failures that evict a hint. -/
def maxFailures : Nat := 3

/-! ## Hints -/

/-- One endpoint that once served a ledger, and what happened since. -/
structure PeerHint (C : Crypto) where
  endpoint : EndpointId C
  firstSeenMs : Nat
  lastSuccessMs : Nat
  /-- Failures since the last success. -/
  failures : Nat
  deriving DecidableEq

namespace PeerHint

/-- A hint recorded now, with one success behind it. -/
def served (endpoint : EndpointId C) (nowMs : Nat) : PeerHint C where
  endpoint := endpoint
  firstSeenMs := nowMs
  lastSuccessMs := nowMs
  failures := 0

/-- Whether a hint has gone too long without a success. One without timestamps has no age. -/
def agedOut (hint : PeerHint C) (nowMs : Nat) : Bool :=
  let stamp :=
    if hint.lastSuccessMs > hint.firstSeenMs then hint.lastSuccessMs else hint.firstSeenMs
  if stamp = 0 then false else nowMs - stamp > hintMaxAgeMs

/-- Whether a hint is still worth dialling. -/
def live (hint : PeerHint C) (nowMs : Nat) : Bool :=
  hint.failures < maxFailures && !hint.agedOut nowMs

/-- A hint whose endpoint served again. -/
def refreshed (hint : PeerHint C) (nowMs : Nat) : PeerHint C :=
  { hint with
    lastSuccessMs := nowMs
    failures := 0
    firstSeenMs := if hint.firstSeenMs = 0 then nowMs else hint.firstSeenMs }

/-- A hint whose endpoint did not serve. -/
def failed (hint : PeerHint C) : PeerHint C :=
  { hint with failures := min (hint.failures + 1) u32Max }

end PeerHint

/-! ## The hints of one ledger -/

/-- The position of the hint with the oldest success, of the oldest sight among those and the first
of them. -/
def oldest (hints : List (PeerHint C)) : Option Nat :=
  (hints.zipIdx.argmin fun (hint, index) =>
    toLex (hint.lastSuccessMs, toLex (hint.firstSeenMs, index))).map Prod.snd

/-- The oldest hint is one of the list. -/
theorem oldest_lt {hints : List (PeerHint C)} {index : Nat} (h : oldest hints = some index) :
    index < hints.length := by
  obtain ⟨⟨hint, i⟩, hmin, rfl⟩ := Option.map_eq_some_iff.mp h
  have hmem := List.argmin_mem hmin
  exact (List.getElem?_eq_some_iff.mp (List.mem_zipIdx_iff_getElem?.mp hmem)).1

/-- Drop hints with the oldest success until the cap holds. -/
def enforceCap (hints : List (PeerHint C)) : List (PeerHint C) :=
  if hints.length > maxHints then
    match _h : oldest hints with
    | some index => enforceCap (hints.eraseIdx index)
    | none => hints
  else hints
termination_by hints.length
decreasing_by
  have hlt := oldest_lt _h
  rw [List.length_eraseIdx_of_lt hlt]
  omega

/-- The position of an endpoint's hint. -/
def position (hints : List (PeerHint C)) (endpoint : EndpointId C) : Option Nat :=
  hints.findIdx? fun hint => hint.endpoint = endpoint

/-- The hints of a ledger after an endpoint served it: its hint refreshed in place, or a new one
under the cap. -/
def afterSuccess (hints : List (PeerHint C)) (endpoint : EndpointId C) (nowMs : Nat) :
    List (PeerHint C) :=
  match position hints endpoint with
  | some index => hints.modify index (·.refreshed nowMs)
  | none => enforceCap (hints ++ [.served endpoint nowMs])

/-! ## The hints of every ledger -/

/-- The contents of `peers.json`. -/
structure Peers (C : Crypto) where
  ledgers : SortedMap LedgerId (List (PeerHint C))

namespace Peers

/-- The hints of no ledger. -/
def default : Peers C := ⟨.empty⟩

/-- An endpoint served a ledger. -/
def recordSuccess (peers : Peers C) (ledger : LedgerId) (endpoint : EndpointId C) (nowMs : Nat) :
    Peers C :=
  let hints := (peers.ledgers.get? ledger).getD []
  ⟨peers.ledgers.insert ledger (afterSuccess hints endpoint nowMs)⟩

/-- An endpoint did not serve a ledger. Says whether its hint went. -/
def recordFailure (peers : Peers C) (ledger : LedgerId) (endpoint : EndpointId C) :
    Bool × Peers C :=
  match peers.ledgers.get? ledger with
  | none => (false, peers)
  | some hints =>
    match position hints endpoint with
    | none => (false, peers)
    | some index =>
      let hints := hints.modify index PeerHint.failed
      if (hints[index]?.map PeerHint.failures).getD 0 < maxFailures then
        (false, ⟨peers.ledgers.insert ledger hints⟩)
      else
        let hints := hints.eraseIdx index
        if hints.isEmpty then (true, ⟨peers.ledgers.remove ledger⟩)
        else (true, ⟨peers.ledgers.insert ledger hints⟩)

/-- Drop every hint that has gone too long without a success, and every ledger left with none.
Says whether anything was dropped. -/
def prune (peers : Peers C) (nowMs : Nat) : Bool × Peers C :=
  let kept := peers.ledgers.mapValues fun hints => hints.filter fun hint => !hint.agedOut nowMs
  let dropped := peers.ledgers.entries.any fun e => e.2.any (·.agedOut nowMs)
  let ledgers := kept.retain fun hints => !hints.isEmpty
  (dropped || ledgers.entries.length ≠ kept.entries.length, ⟨ledgers⟩)

/-- Whether a hint is dialled before another: the freshest success, then the earlier place. -/
def dialledFirst (a b : PeerHint C × Nat) : Bool :=
  b.1.lastSuccessMs < a.1.lastSuccessMs ||
    (a.1.lastSuccessMs = b.1.lastSuccessMs && a.2 ≤ b.2)

/-- Endpoints known to hold a ledger, freshest success first. A read drops nothing. -/
def hintsAt (peers : Peers C) (ledger : LedgerId) (nowMs : Nat) : List (EndpointId C) :=
  match peers.ledgers.get? ledger with
  | none => []
  | some hints =>
    ((hints.zipIdx.filter fun e => e.1.live nowMs).insertionSort (dialledFirst · ·)).map
      fun e => e.1.endpoint

/-- Whether a hint for an endpoint is recorded against a ledger, live or not. -/
def holds (peers : Peers C) (ledger : LedgerId) (endpoint : EndpointId C) : Bool :=
  (peers.ledgers.get? ledger).any (·.any fun hint => hint.endpoint = endpoint)

end Peers

end Mabel.Node
