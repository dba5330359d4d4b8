import Mabel.Ledger.Sign.Keys
import Mathlib.Algebra.BigOperators.Group.Finset.Piecewise
import Mathlib.Data.Fintype.Basic

/-!
# The dial budget of one operation

A top-level operation dials at most sixteen distinct endpoints, each class of sources at most
its cap, and four of the sixteen slots are kept for the witnesses the node is configured with.
A local read dials nothing: it is always let through and never charged.
-/

namespace Mabel.Graph

variable {C : Crypto}

/-! ## Classes -/

/-- Which class of the dial budget a source spends from. -/
inductive SourceClass where
  /-- A local read, which dials nothing. -/
  | localRead
  | callerHint
  | peerHint
  /-- The class with reserved slots. -/
  | nodeWitness
  | chainNamed
  | dns
  deriving DecidableEq

instance : Fintype SourceClass where
  elems := {.localRead, .callerHint, .peerHint, .nodeWitness, .chainNamed, .dns}
  complete source := by cases source <;> decide

/-- `MAX_DIALS`: distinct endpoints one operation may dial. -/
def maxDials : Nat := 16

namespace SourceClass

/-- Endpoints of a class one operation may dial, `usize::MAX` for the class that dials
nothing. -/
def cap : SourceClass → Nat
  | .localRead => u64Max
  | .callerHint => 4
  | .peerHint => 4
  | .dns => 4
  | .nodeWitness => 8
  | .chainNamed => 8

/-- Slots that only this class may take. -/
def reserved : SourceClass → Nat
  | .nodeWitness => 4
  | _ => 0

end SourceClass

/-! ## The budget -/

/-- Which endpoints one operation has dialled, and what each class has spent. -/
structure DialBudget (C : Crypto) where
  dialled : Finset (EndpointId C)
  spent : SourceClass → Nat

namespace DialBudget

/-- An unspent budget. -/
def new : DialBudget C := ⟨∅, fun _ => 0⟩

/-- The most endpoints a class may see dialled in total, less the reservation no other class
may take. -/
def ceiling (budget : DialBudget C) (source : SourceClass) : Nat :=
  if source = .nodeWitness then maxDials
  else maxDials - (SourceClass.nodeWitness.reserved - budget.spent .nodeWitness)

/-- Charge a slot. -/
def charge (budget : DialBudget C) (source : SourceClass) (endpoint : EndpointId C) :
    DialBudget C :=
  ⟨insert endpoint budget.dialled, Function.update budget.spent source (budget.spent source + 1)⟩

/-- Whether an endpoint may be dialled as a class, charging a slot when the operation has not
named it before. -/
def admitDial (budget : DialBudget C) (source : SourceClass) (endpoint : EndpointId C) :
    Bool × DialBudget C :=
  if source = .localRead then (true, budget)
  else if endpoint ∈ budget.dialled then (true, budget)
  else if budget.spent source ≥ source.cap then (false, budget)
  else if budget.dialled.card ≥ budget.ceiling source then (false, budget)
  else (true, budget.charge source endpoint)

/-- A sequence of calls: what each answers, and the budget they leave. -/
def admitAll (budget : DialBudget C) :
    List (SourceClass × EndpointId C) → List Bool × DialBudget C
  | [] => ([], budget)
  | (source, endpoint) :: calls =>
    let (answer, next) := budget.admitDial source endpoint
    let (answers, last) := next.admitAll calls
    (answer :: answers, last)

/-! ## One call -/

/-- What one call can do. -/
theorem admitDial_cases (budget : DialBudget C) (source : SourceClass)
    (endpoint : EndpointId C) :
    (budget.admitDial source endpoint = (true, budget) ∧
      (source = .localRead ∨ endpoint ∈ budget.dialled)) ∨
    (budget.admitDial source endpoint = (false, budget) ∧ source ≠ .localRead ∧
      endpoint ∉ budget.dialled ∧
      (source.cap ≤ budget.spent source ∨ budget.ceiling source ≤ budget.dialled.card)) ∨
    (budget.admitDial source endpoint = (true, budget.charge source endpoint) ∧
      source ≠ .localRead ∧ endpoint ∉ budget.dialled ∧
      budget.spent source < source.cap ∧ budget.dialled.card < budget.ceiling source) := by
  unfold admitDial
  by_cases hlocal : source = .localRead
  · rw [if_pos hlocal]
    exact .inl ⟨rfl, .inl hlocal⟩
  · rw [if_neg hlocal]
    by_cases hdialled : endpoint ∈ budget.dialled
    · rw [if_pos hdialled]
      exact .inl ⟨rfl, .inr hdialled⟩
    · rw [if_neg hdialled]
      by_cases hcap : budget.spent source ≥ source.cap
      · rw [if_pos hcap]
        exact .inr (.inl ⟨rfl, hlocal, hdialled, .inl hcap⟩)
      · rw [if_neg hcap]
        by_cases hceiling : budget.dialled.card ≥ budget.ceiling source
        · rw [if_pos hceiling]
          exact .inr (.inl ⟨rfl, hlocal, hdialled, .inr hceiling⟩)
        · rw [if_neg hceiling]
          exact .inr (.inr ⟨rfl, hlocal, hdialled, not_le.mp hcap, not_le.mp hceiling⟩)

/-- What holds of every budget an operation has. -/
structure Charged (budget : DialBudget C) : Prop where
  total : budget.dialled.card ≤ maxDials
  caps : ∀ source, source ≠ .localRead → budget.spent source ≤ source.cap
  sum : ∑ source, budget.spent source = budget.dialled.card
  /-- Nobody else has taken a reserved slot. -/
  reserve : budget.dialled.card ≤
    maxDials - (SourceClass.nodeWitness.reserved - budget.spent .nodeWitness)

theorem charged_new : (new : DialBudget C).Charged :=
  ⟨Nat.zero_le _, fun _ _ => Nat.zero_le _, rfl, Nat.zero_le _⟩

/-- The slots charged rise by one. -/
theorem sum_charge (budget : DialBudget C) (source : SourceClass) (endpoint : EndpointId C) :
    ∑ s, (budget.charge source endpoint).spent s = ∑ s, budget.spent s + 1 := by
  have hsum := Finset.sum_update_of_mem (Finset.mem_univ source) budget.spent
    (budget.spent source + 1)
  have hsplit := Finset.add_sum_erase Finset.univ budget.spent (Finset.mem_univ source)
  rw [Finset.sdiff_singleton_eq_erase] at hsum
  change ∑ s, Function.update budget.spent source (budget.spent source + 1) s = _
  omega

/-- A charge within the caps keeps the budget. -/
theorem Charged.charge {budget : DialBudget C} (h : budget.Charged) {source : SourceClass}
    {endpoint : EndpointId C} (hnew : endpoint ∉ budget.dialled)
    (hcap : budget.spent source < source.cap)
    (hceiling : budget.dialled.card < budget.ceiling source) :
    (budget.charge source endpoint).Charged := by
  have hcard : (budget.charge source endpoint).dialled.card = budget.dialled.card + 1 :=
    Finset.card_insert_of_notMem hnew
  have hmax : budget.ceiling source ≤ maxDials := by
    unfold ceiling
    split_ifs
    · exact le_rfl
    · exact Nat.sub_le _ _
  refine ⟨?_, ?_, ?_, ?_⟩
  · rw [hcard]
    omega
  · intro other hother
    change Function.update budget.spent source (budget.spent source + 1) other ≤ other.cap
    by_cases hsame : other = source
    · rw [hsame, Function.update_self]
      exact hcap
    · rw [Function.update_of_ne hsame]
      exact h.caps other hother
  · rw [sum_charge, h.sum, hcard]
  · rw [hcard]
    change _ ≤ maxDials - (SourceClass.nodeWitness.reserved -
      Function.update budget.spent source (budget.spent source + 1) .nodeWitness)
    have hreserve := h.reserve
    unfold ceiling at hceiling
    by_cases hwitness : source = .nodeWitness
    · subst hwitness
      rw [if_pos rfl] at hceiling
      rw [Function.update_self]
      simp only [SourceClass.reserved, maxDials] at *
      omega
    · rw [if_neg hwitness] at hceiling
      rw [Function.update_of_ne (Ne.symm hwitness)]
      exact hceiling

/-- Admission keeps the budget. -/
theorem Charged.admitDial {budget : DialBudget C} (h : budget.Charged) (source : SourceClass)
    (endpoint : EndpointId C) : (budget.admitDial source endpoint).2.Charged := by
  rcases budget.admitDial_cases source endpoint with ⟨heq, -⟩ | ⟨heq, -⟩ |
    ⟨heq, -, hnew, hcap, hceiling⟩
  · rw [heq]
    exact h
  · rw [heq]
    exact h
  · rw [heq]
    exact h.charge hnew hcap hceiling

/-- An endpoint that was dialled stays dialled. -/
theorem subset_admitDial (budget : DialBudget C) (source : SourceClass)
    (endpoint : EndpointId C) : budget.dialled ⊆ (budget.admitDial source endpoint).2.dialled := by
  rcases budget.admitDial_cases source endpoint with ⟨heq, -⟩ | ⟨heq, -⟩ | ⟨heq, -⟩
  · rw [heq]
  · rw [heq]
  · rw [heq]
    exact Finset.subset_insert _ _

/-- What is admitted and dials is dialled. -/
theorem mem_of_admitDial {budget : DialBudget C} {source : SourceClass}
    {endpoint : EndpointId C} (hlocal : source ≠ .localRead)
    (h : (budget.admitDial source endpoint).1 = true) :
    endpoint ∈ (budget.admitDial source endpoint).2.dialled := by
  rcases budget.admitDial_cases source endpoint with ⟨heq, hfree⟩ | ⟨heq, -⟩ | ⟨heq, -⟩
  · rw [heq]
    exact hfree.resolve_left hlocal
  · rw [heq] at h
    simp at h
  · rw [heq]
    exact Finset.mem_insert_self _ _

/-- A call for an endpoint that was dialled is let through as it is. -/
theorem admitDial_of_mem {budget : DialBudget C} {endpoint : EndpointId C}
    (h : endpoint ∈ budget.dialled) (source : SourceClass) :
    budget.admitDial source endpoint = (true, budget) := by
  rcases budget.admitDial_cases source endpoint with ⟨heq, -⟩ | ⟨-, -, hnew, -⟩ |
    ⟨-, -, hnew, -⟩
  · exact heq
  · exact absurd h hnew
  · exact absurd h hnew

/-- While a reserved slot is left, a configured witness gets it. -/
theorem Charged.admitDial_nodeWitness {budget : DialBudget C} (h : budget.Charged)
    (hleft : budget.spent .nodeWitness < 4) (endpoint : EndpointId C) :
    (budget.admitDial .nodeWitness endpoint).1 = true := by
  have hreserve := h.reserve
  rcases budget.admitDial_cases .nodeWitness endpoint with ⟨heq, -⟩ | ⟨-, -, -, hfull⟩ | ⟨heq, -⟩
  · rw [heq]
  · simp only [SourceClass.cap, SourceClass.reserved, ceiling, if_true, maxDials] at *
    omega
  · rw [heq]

/-! ## Every sequence of calls -/

/-- A sequence of calls keeps what holds of a budget and forgets no endpoint it dialled; what
it admits and dials is dialled at the end. -/
theorem Charged.admitAll (calls : List (SourceClass × EndpointId C)) :
    ∀ {budget : DialBudget C}, budget.Charged → (budget.admitAll calls).2.Charged ∧
      budget.dialled ⊆ (budget.admitAll calls).2.dialled ∧
      ∀ (i : Nat) source endpoint, calls[i]? = some (source, endpoint) → source ≠ .localRead →
        (budget.admitAll calls).1[i]? = some true →
        endpoint ∈ (budget.admitAll calls).2.dialled := by
  induction calls with
  | nil => exact fun h => ⟨h, Finset.Subset.refl _, by simp⟩
  | cons call calls ih =>
    intro budget h
    obtain ⟨source, endpoint⟩ := call
    obtain ⟨hcharged, hsubset, hadmitted⟩ := ih (h.admitDial source endpoint)
    refine ⟨hcharged, (budget.subset_admitDial source endpoint).trans hsubset, ?_⟩
    intro i s e hcall hlocal hanswer
    cases i with
    | zero =>
      obtain ⟨rfl, rfl⟩ : source = s ∧ endpoint = e := by simpa using hcall
      exact hsubset (mem_of_admitDial hlocal (Option.some.inj hanswer))
    | succ i => exact hadmitted i s e (by simpa using hcall) hlocal hanswer

/-- After any sequence of calls, at most sixteen distinct endpoints have been admitted for
dialling, no class is over its cap and the charges sum to what was dialled. An endpoint that
was admitted for dialling is admitted again under every class and changes nothing, a call that
is refused changes nothing, a local read is always let through and changes nothing, and while
fewer than four slots are charged to configured witnesses one more is admitted. -/
theorem dial_budget (calls : List (SourceClass × EndpointId C)) :
    let answers := ((new : DialBudget C).admitAll calls).1
    let budget := ((new : DialBudget C).admitAll calls).2
    let admitted := fun endpoint => ∃ (i : Nat) (source : SourceClass),
      calls[i]? = some (source, endpoint) ∧ source ≠ .localRead ∧ answers[i]? = some true
    (∀ endpoints : Finset (EndpointId C), (∀ e ∈ endpoints, admitted e) →
      endpoints.card ≤ maxDials) ∧
    (∀ source, source ≠ .localRead → budget.spent source ≤ source.cap) ∧
    ∑ source, budget.spent source = budget.dialled.card ∧
    (∀ endpoint, admitted endpoint → ∀ source,
      budget.admitDial source endpoint = (true, budget)) ∧
    (∀ source endpoint, (budget.admitDial source endpoint).1 = false →
      (budget.admitDial source endpoint).2 = budget) ∧
    (∀ endpoint, budget.admitDial .localRead endpoint = (true, budget)) ∧
    (budget.spent .nodeWitness < 4 → ∀ endpoint,
      (budget.admitDial .nodeWitness endpoint).1 = true) := by
  intro answers budget admitted
  obtain ⟨hcharged, -, hdialled⟩ := Charged.admitAll calls (charged_new (C := C))
  have hmem : ∀ endpoint, admitted endpoint → endpoint ∈ budget.dialled := by
    rintro endpoint ⟨i, source, hcall, hlocal, hanswer⟩
    exact hdialled i source endpoint hcall hlocal hanswer
  refine ⟨fun endpoints hall => ?_, hcharged.caps, hcharged.sum,
    fun endpoint h source => admitDial_of_mem (hmem endpoint h) source, ?_, fun endpoint => ?_,
    fun hleft endpoint => hcharged.admitDial_nodeWitness hleft endpoint⟩
  · exact (Finset.card_le_card fun e he => hmem e (hall e he)).trans hcharged.total
  · intro source endpoint hrefused
    rcases budget.admitDial_cases source endpoint with ⟨heq, -⟩ | ⟨heq, -⟩ | ⟨heq, -⟩
    · rw [heq]
    · rw [heq]
    · rw [heq] at hrefused
      simp at hrefused
  · unfold admitDial
    rw [if_pos rfl]

/-- Local reads are admitted past every bound, and are charged when they are dialled later. -/
theorem local_reads_unbounded :
    let endpoints := (List.range 17).map fun i =>
      (SecretKey.sample i).publicKey
    let calls := endpoints.map fun endpoint => (SourceClass.localRead, endpoint)
    endpoints.Nodup ∧
    ((new : DialBudget Crypto.sample).admitAll calls).1 = List.replicate 17 true ∧
    ∀ endpoint ∈ endpoints,
      (((new : DialBudget Crypto.sample).admitAll calls).2.admitDial .callerHint endpoint).2.spent
        .callerHint = 1 := by
  decide +kernel

end DialBudget

end Mabel.Graph
