import Mathlib.Data.List.Infix
import Mathlib.Logic.Function.Basic
import Mathlib.Logic.Relation

/-!
# Replicas of a growing list

One list grows at its end and others copy a first part of it, each as far as it happens to. However
the steps fall, no copy holds anything the list does not, none ever shrinks and any two of them
agree as far as the shorter one goes. A system in which every step is one of these, or changes
neither the list nor the copies, has replicas.
-/

namespace Replicas

variable {ι α σ : Type}

/-- A list and what is held of it. -/
structure State (ι α : Type) where
  source : List α
  held : ι → List α

/-- Everything that is held is a first part of the list. -/
def Faithful (s : State ι α) : Prop := ∀ i, s.held i <+: s.source

/-- A later state: nothing is taken back. -/
structure Later (s t : State ι α) : Prop where
  source : s.source <+: t.source
  held : ∀ i, s.held i <+: t.held i

theorem Later.refl (s : State ι α) : Later s s := ⟨List.prefix_rfl, fun _ => List.prefix_rfl⟩

theorem Later.trans {s t u : State ι α} (h : Later s t) (h' : Later t u) : Later s u :=
  ⟨h.source.trans h'.source, fun i => (h.held i).trans (h'.held i)⟩

/-- Of two faithful copies one continues the other. -/
theorem Faithful.comparable {s : State ι α} (h : Faithful s) (i j : ι) :
    s.held i <+: s.held j ∨ s.held j <+: s.held i :=
  List.prefix_or_prefix_of_prefix (h i) (h j)

variable [DecidableEq ι]

/-- What can happen. -/
inductive Step : State ι α → State ι α → Prop
  /-- The list grows. -/
  | grow {s : State ι α} (x : α) : Step s { s with source := s.source ++ [x] }
  /-- A copy is continued. -/
  | copy {s : State ι α} (i : ι) (xs : List α) (hfrom : s.held i <+: xs) (hto : xs <+: s.source) :
    Step s { s with held := Function.update s.held i xs }

/-- A step leads to a later state. -/
theorem Step.later {s t : State ι α} (h : Step s t) : Later s t := by
  cases h with
  | grow x => exact ⟨List.prefix_append _ _, fun _ => List.prefix_rfl⟩
  | copy i xs hfrom =>
    refine ⟨List.prefix_rfl, fun j => ?_⟩
    by_cases hj : j = i
    · subst hj
      simpa using hfrom
    · simp [Function.update_of_ne hj]

/-- A step keeps replicas faithful. -/
theorem Step.faithful {s t : State ι α} (h : Step s t) (hs : Faithful s) : Faithful t := by
  cases h with
  | grow x => exact fun i => (hs i).trans (List.prefix_append _ _)
  | copy i xs _ hto =>
    intro j
    by_cases hj : j = i
    · subst hj
      simpa using hto
    · simpa [Function.update_of_ne hj] using hs j

/-- Along every run the copies stay faithful and nothing is taken back. -/
theorem faithful_of_run {s t : State ι α} (h : Relation.ReflTransGen Step s t) (hs : Faithful s) :
    Faithful t ∧ Later s t := by
  induction h with
  | refl => exact ⟨hs, .refl s⟩
  | tail _ hstep ih => exact ⟨hstep.faithful ih.1, ih.2.trans hstep.later⟩

/-- A system that keeps an invariant and does in each step what replicas can do, or nothing, does
over every run what replicas can do. -/
theorem simulates {rel : σ → σ → Prop} {I : σ → Prop} {view : σ → State ι α} {s t : σ}
    (hstep : ∀ s t, I s → rel s t → I t ∧ (view s = view t ∨ Step (view s) (view t))) (hs : I s)
    (h : Relation.ReflTransGen rel s t) :
    I t ∧ Relation.ReflTransGen Step (view s) (view t) := by
  induction h with
  | refl => exact ⟨hs, .refl⟩
  | tail _ hlast ih =>
    obtain ⟨hkept, hview⟩ := hstep _ _ ih.1 hlast
    refine ⟨hkept, ?_⟩
    rcases hview with hsame | hmoved
    · rw [← hsame]
      exact ih.2
    · exact ih.2.tail hmoved

end Replicas
