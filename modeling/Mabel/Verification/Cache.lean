import Mabel.Verification.Verify

/-!
# The verification cache

One entry for each identity: the verdict of the last check, when it was taken and when the
hostname last verified. A check that reached no answer is noted beside a decisive verdict and
leaves it alone. The cache is rebuildable, so a file that does not parse reads as no entry.
-/

namespace Mabel.Verification

/-- The verdicts a check without an answer never overwrites. -/
def VerificationStatus.isDecisive : VerificationStatus → Bool
  | .verified | .mismatched => true
  | .unverified | .unreachable | .unclaimed | .unchecked => false

/-- A check without an answer, kept beside the decisive verdict it could not refresh. -/
structure UnreachableCheck where
  checkedAtMs : Nat
  detail : String
  deriving DecidableEq, Repr

/-- One cached verdict, bound to the hostname it is about. -/
structure VerificationEntry where
  hostname : String
  status : VerificationStatus
  /-- When the check behind the verdict ran. -/
  checkedAtMs : Nat
  /-- When the hostname last verified, kept across later verdicts. -/
  lastVerifiedAtMs : Option Nat
  detail : String
  unreachable : Option UnreachableCheck
  deriving DecidableEq, Repr

namespace VerificationEntry

/-- A first entry for one outcome. -/
def first (outcome : VerificationOutcome) (nowMs : Nat) : VerificationEntry where
  hostname := outcome.hostname
  status := outcome.status
  checkedAtMs := nowMs
  lastVerifiedAtMs := if outcome.status = .verified then some nowMs else none
  detail := outcome.detail
  unreachable := none

/-- Whether an entry is about a hostname. -/
def covers (entry : VerificationEntry) (hostname : String) : Bool :=
  eqIgnoreAsciiCase entry.hostname.toList hostname.toList

end VerificationEntry

/-- The entry the cache holds after an outcome. -/
def merge (previous : Option VerificationEntry) (outcome : VerificationOutcome) (nowMs : Nat) :
    VerificationEntry :=
  match previous.filter (·.covers outcome.hostname) with
  | none => .first outcome nowMs
  | some previous =>
    if outcome.status = .unreachable ∧ previous.status.isDecisive then
      { previous with unreachable := some ⟨nowMs, outcome.detail⟩ }
    else
      { hostname := outcome.hostname
        status := outcome.status
        checkedAtMs := nowMs
        lastVerifiedAtMs :=
          if outcome.status = .verified then some nowMs else previous.lastVerifiedAtMs
        detail := outcome.detail
        unreachable := none }

/-- The entries of a store, one for each identity it has checked. -/
structure VerificationStore where
  read : IdentityId → Option VerificationEntry

/-- A store with an outcome folded into the entry of one identity. -/
def VerificationStore.record (store : VerificationStore) (identity : IdentityId)
    (outcome : VerificationOutcome) (nowMs : Nat) : VerificationStore where
  read other :=
    if other = identity then some (merge (store.read identity) outcome nowMs)
    else store.read other

end Mabel.Verification
