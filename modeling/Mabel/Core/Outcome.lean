import Mathlib.Tactic.Common

/-!
# Outcomes of fallible code

A computation answers, rejects its input with a typed error, or panics at a named
site. Rejection and panic are kept apart so that panic freedom is a statement about
the same definition whose answers and rejections the other results describe.
-/

/-- How a computation that does not answer stops. -/
inductive Fault (ε : Type) where
  /-- A typed error the caller sees. -/
  | reject (error : ε)
  /-- An assertion of the code that failed, named by its message. -/
  | panic (site : String)
  deriving DecidableEq, Repr

/-- An answer, a rejection or a panic. -/
abbrev Outcome (ε α : Type) := Except (Fault ε) α

namespace Outcome

variable {ε ε' α β : Type}

/-- Stop with a typed error. -/
def reject (error : ε) : Outcome ε α := .error (.reject error)

/-- Stop at a failed assertion. -/
def panic (site : String) : Outcome ε α := .error (.panic site)

/-- Reject when the condition holds. -/
def rejectIf (p : Prop) [Decidable p] (error : ε) : Outcome ε Unit :=
  if p then reject error else .ok ()

/-- Unwrap a value the code asserts to be present. -/
def expect (site : String) : Option α → Outcome ε α
  | some a => .ok a
  | none => panic site

/-- Unwrap a value whose absence is a typed error. -/
def orReject (error : ε) : Option α → Outcome ε α
  | some a => .ok a
  | none => reject error

/-- Carry rejections into a wider error type, leaving panics where they are. -/
def mapReject (f : ε → ε') : Outcome ε α → Outcome ε' α
  | .ok a => .ok a
  | .error (.reject e) => .error (.reject (f e))
  | .error (.panic site) => .error (.panic site)

@[simp] theorem ok_bind (a : α) (f : α → Except ε β) : (Except.ok a >>= f) = f a := rfl

@[simp] theorem error_bind (e : ε) (f : α → Except ε β) :
    ((.error e : Except ε α) >>= f) = .error e := rfl

/-- A sequence answers exactly when both of its parts do. -/
theorem bind_eq_ok {x : Except ε α} {f : α → Except ε β} {b : β} :
    (x >>= f) = .ok b ↔ ∃ a, x = .ok a ∧ f a = .ok b := by
  cases x with
  | ok a => simp
  | error e => simp

/-- A sequence fails where its first part does, or after it. -/
theorem bind_eq_error {x : Outcome ε α} {f : α → Outcome ε β} {e : Fault ε} :
    (x >>= f) = .error e ↔ x = .error e ∨ ∃ a, x = .ok a ∧ f a = .error e := by
  cases x with
  | ok a => simp
  | error e => simp

/-- Sequences agree when their second parts agree on what the first answers. -/
theorem bind_congr {x : Outcome ε α} {f g : α → Outcome ε β}
    (h : ∀ a, x = .ok a → f a = g a) : (x >>= f) = x >>= g := by
  cases x with
  | ok a => exact h a rfl
  | error e => rfl

@[simp] theorem reject_ne_ok {e : ε} {a : α} : (reject e : Outcome ε α) ≠ .ok a := by
  simp [reject]

@[simp] theorem panic_ne_ok {site : String} {a : α} : (panic site : Outcome ε α) ≠ .ok a := by
  simp [panic]

@[simp] theorem rejectIf_eq_ok {p : Prop} [Decidable p] {e : ε} {u : Unit} :
    rejectIf p e = .ok u ↔ ¬ p := by
  by_cases h : p <;> simp [rejectIf, h]

theorem rejectIf_eq_error {p : Prop} [Decidable p] {e : ε} {fault : Fault ε} :
    rejectIf p e = .error fault ↔ p ∧ fault = .reject e := by
  by_cases h : p <;> simp [rejectIf, reject, h, eq_comm]

theorem rejectIf_of_not {p : Prop} [Decidable p] {e : ε} (h : ¬ p) :
    rejectIf p e = .ok () := rejectIf_eq_ok.mpr h

@[simp] theorem expect_some (site : String) (a : α) :
    (expect site (some a) : Outcome ε α) = .ok a := rfl

@[simp] theorem expect_eq_ok {site : String} {o : Option α} {a : α} :
    (expect site o : Outcome ε α) = .ok a ↔ o = some a := by
  cases o <;> simp [expect]

@[simp] theorem orReject_some (e : ε) (a : α) : orReject e (some a) = .ok a := rfl

@[simp] theorem orReject_eq_ok {e : ε} {o : Option α} {a : α} :
    orReject e o = .ok a ↔ o = some a := by
  cases o <;> simp [orReject]

@[simp] theorem mapReject_ok (f : ε → ε') (a : α) :
    mapReject f (.ok a : Outcome ε α) = .ok a := rfl

@[simp] theorem mapReject_eq_ok {f : ε → ε'} {x : Outcome ε α} {a : α} :
    mapReject f x = .ok a ↔ x = .ok a := by
  rcases x with (_ | _) | _ <;> simp [mapReject]

/-- A loop without results answers exactly when each of its rounds does. -/
theorem forM_eq_ok {l : List α} {f : α → Except ε Unit} {u : Unit} :
    l.forM f = .ok u ↔ ∀ a ∈ l, f a = .ok () := by
  induction l with
  | nil => simp [pure, Except.pure]
  | cons a l ih =>
    change (f a >>= fun _ => l.forM f) = .ok u ↔ _
    rw [bind_eq_ok, List.forall_mem_cons, ← ih]
    exact ⟨fun ⟨_, ha, hl⟩ => ⟨ha, hl⟩, fun ⟨ha, hl⟩ => ⟨(), ha, hl⟩⟩

/-- Reading a list of entries answers every one of them, or stops at the first it cannot read. -/
theorem mapM_orReject (error : ε) (read : α → Option β) (entries : List α) :
    (∃ items, entries.mapM (fun entry => orReject error (read entry)) = .ok items) ∨
      ∃ before entry after, entries = before ++ entry :: after ∧
        (∀ e ∈ before, ∃ item, read e = some item) ∧ read entry = none ∧
        entries.mapM (fun entry => orReject error (read entry)) = reject error := by
  induction entries with
  | nil => exact .inl ⟨[], rfl⟩
  | cons entry entries ih =>
    cases hread : read entry with
    | none =>
      refine .inr ⟨[], entry, entries, rfl, by simp, hread, ?_⟩
      rw [List.mapM_cons, hread]
      rfl
    | some item =>
      rcases ih with ⟨items, hitems⟩ | ⟨before, e, after, rfl, hbefore, he, hreject⟩
      · exact .inl ⟨item :: items, by simp [List.mapM_cons, hread, hitems]⟩
      · refine .inr ⟨entry :: before, e, after, rfl, ?_, he, ?_⟩
        · exact List.forall_mem_cons.mpr ⟨⟨item, hread⟩, hbefore⟩
        · rw [List.mapM_cons, hread, orReject_some, ok_bind, hreject]
          rfl

/-- Entries that read as themselves come back in order. -/
theorem mapM_orReject_map (error : ε) {read : β → Option α} {write : α → β}
    {items : List α} (h : ∀ item ∈ items, read (write item) = some item) :
    (items.map write).mapM (fun entry => orReject error (read entry)) = .ok items := by
  induction items with
  | nil => rfl
  | cons item items ih =>
    obtain ⟨hitem, hitems⟩ := List.forall_mem_cons.mp h
    simp [List.mapM_cons, hitem, ih hitems]

/-- Two computations end alike: both answer, with related values, or stop the same way. -/
def Alike (V : α → β → Prop) : Outcome ε α → Outcome ε β → Prop
  | .ok a, .ok b => V a b
  | .error e, .error f => e = f
  | _, _ => False

/-- An outcome is like itself. -/
theorem Alike.refl {V : α → α → Prop} (hV : ∀ a, V a a) (x : Outcome ε α) : Alike V x x := by
  cases x with
  | ok a => exact hV a
  | error e => rfl

/-- Outcomes that are alike up to equality are the same. -/
theorem Alike.eq {x y : Outcome ε α} (h : Alike Eq x y) : x = y := by
  cases x <;> cases y
  · exact congrArg Except.error h
  · exact h.elim
  · exact h.elim
  · exact congrArg Except.ok h

/-- Outcomes stay alike when their rejections are carried into another type. -/
theorem Alike.mapReject {V : α → β → Prop} {x : Outcome ε α} {y : Outcome ε β} (h : Alike V x y)
    (f : ε → ε') : Alike V (mapReject f x) (Outcome.mapReject f y) := by
  cases x with
  | ok a =>
    cases y with
    | ok b => exact h
    | error e => exact h.elim
  | error e =>
    cases y with
    | ok b => exact h.elim
    | error e' =>
      obtain rfl : e = e' := h
      cases e <;> rfl

/-- The computation answers, and what it answers has the property. -/
def Yields (P : α → Prop) (x : Outcome ε α) : Prop := ∃ a, x = .ok a ∧ P a

/-- The computation stops at no failed assertion. -/
def NoPanic (x : Outcome ε α) : Prop := ∀ site, x ≠ .error (.panic site)

namespace NoPanic

theorem ok {a : α} : NoPanic (.ok a : Outcome ε α) := by
  intro site
  simp

theorem reject {e : ε} : NoPanic (Outcome.reject e : Outcome ε α) := by
  intro site
  simp [Outcome.reject]

theorem rejectIf {p : Prop} [Decidable p] {e : ε} : NoPanic (Outcome.rejectIf p e) := by
  by_cases h : p
  · simpa [Outcome.rejectIf, h] using (NoPanic.reject : NoPanic (Outcome.reject e : Outcome ε Unit))
  · simpa [Outcome.rejectIf, h] using (NoPanic.ok : NoPanic (.ok () : Outcome ε Unit))

theorem orReject {e : ε} {o : Option α} : NoPanic (Outcome.orReject e o) := by
  cases o with
  | none => exact NoPanic.reject
  | some a => exact NoPanic.ok

/-- An assertion holds wherever the value it unwraps is present. -/
theorem expect {site : String} {o : Option α} (h : ∃ a, o = some a) :
    NoPanic (Outcome.expect site o : Outcome ε α) := by
  obtain ⟨a, rfl⟩ := h
  exact NoPanic.ok

/-- A sequence panics nowhere if its first part does not, and its second part does
not on any value the first part answers. -/
theorem bind {x : Outcome ε α} {f : α → Outcome ε β} (hx : NoPanic x)
    (hf : ∀ a, x = .ok a → NoPanic (f a)) : NoPanic (x >>= f) := by
  cases x with
  | ok a => exact hf a rfl
  | error e =>
    intro site h
    rw [error_bind] at h
    exact hx site (congrArg Except.error (Except.error.inj h))

/-- Carrying rejections into another type adds no panic. -/
theorem mapReject {f : ε → ε'} {x : Outcome ε α} (hx : NoPanic x) :
    NoPanic (Outcome.mapReject f x) := by
  intro site h
  rcases x with (e | s) | a
  · simp [Outcome.mapReject] at h
  · exact hx s rfl
  · simp [Outcome.mapReject] at h

/-- A choice does not panic where neither side does. -/
theorem ite {p : Prop} [Decidable p] {x y : Outcome ε α} (hx : p → NoPanic x)
    (hy : ¬ p → NoPanic y) : NoPanic (if p then x else y) := by
  by_cases h : p
  · rw [if_pos h]
    exact hx h
  · rw [if_neg h]
    exact hy h

/-- A loop does not panic where no turn of it does. -/
theorem forM {l : List α} {f : α → Outcome ε Unit} (h : ∀ a ∈ l, NoPanic (f a)) :
    NoPanic (l.forM f) := by
  induction l with
  | nil => exact NoPanic.ok
  | cons a l ih =>
    exact NoPanic.bind (h a (List.mem_cons_self ..)) fun _ _ =>
      ih fun x hx => h x (List.mem_cons_of_mem _ hx)

/-- A list of outcomes does not panic where none of them does. -/
theorem mapM {l : List α} {f : α → Outcome ε β} (h : ∀ a ∈ l, NoPanic (f a)) :
    NoPanic (l.mapM f) := by
  induction l with
  | nil => exact NoPanic.ok
  | cons a l ih =>
    rw [List.mapM_cons]
    refine NoPanic.bind (h a (List.mem_cons_self ..)) fun _ _ => ?_
    exact NoPanic.bind (ih fun x hx => h x (List.mem_cons_of_mem _ hx)) fun _ _ => NoPanic.ok

end NoPanic

/-- The computation stops only with faults of a kind. -/
def Stops (F : Fault ε → Prop) (x : Outcome ε α) : Prop := ∀ e, x = .error e → F e

namespace Stops

variable {F G : Fault ε → Prop}

theorem ok {a : α} : Stops F (.ok a : Outcome ε α) := by
  intro e h
  cases h

theorem reject {e : ε} (h : F (.reject e)) : Stops F (Outcome.reject e : Outcome ε α) := by
  intro e' he
  exact Except.error.inj he ▸ h

/-- A check stops with what it is told to. -/
theorem rejectIf {p : Prop} [Decidable p] {e : ε} (h : p → F (.reject e)) :
    Stops F (Outcome.rejectIf p e) := by
  intro e' he
  obtain ⟨hp, rfl⟩ := rejectIf_eq_error.mp he
  exact h hp

/-- A demand stops with what it is told to. -/
theorem orReject {e : ε} {o : Option α} (h : F (.reject e)) :
    Stops F (Outcome.orReject e o) := by
  cases o with
  | none => exact Stops.reject h
  | some a => exact Stops.ok

/-- An expectation that is met does not stop. -/
theorem expect {site : String} {o : Option α} (h : ∃ a, o = some a) :
    Stops F (Outcome.expect site o : Outcome ε α) := by
  obtain ⟨a, rfl⟩ := h
  exact Stops.ok

/-- A sequence stops where its first part does, or where its second part does on a value the
first part answers. -/
theorem bind {x : Outcome ε α} {f : α → Outcome ε β} (hx : Stops F x)
    (hf : ∀ a, x = .ok a → Stops F (f a)) : Stops F (x >>= f) := by
  intro e h
  obtain h | ⟨a, ha, h⟩ := bind_eq_error.mp h
  · exact hx e h
  · exact hf a ha e h

/-- A choice stops as its sides do. -/
theorem ite {p : Prop} [Decidable p] {x y : Outcome ε α} (hx : p → Stops F x)
    (hy : ¬ p → Stops F y) : Stops F (if p then x else y) := by
  by_cases h : p
  · rw [if_pos h]
    exact hx h
  · rw [if_neg h]
    exact hy h

/-- A loop stops as its turns do. -/
theorem forM {l : List α} {f : α → Outcome ε Unit} (h : ∀ a ∈ l, Stops F (f a)) :
    Stops F (l.forM f) := by
  induction l with
  | nil => exact Stops.ok
  | cons a l ih =>
    exact Stops.bind (h a (List.mem_cons_self ..)) fun _ _ =>
      ih fun x hx => h x (List.mem_cons_of_mem _ hx)

theorem mono {x : Outcome ε α} (hx : Stops F x) (h : ∀ e, F e → G e) : Stops G x :=
  fun e he => h e (hx e he)

theorem noPanic {x : Outcome ε α} (hx : Stops F x) (h : ∀ site, ¬ F (.panic site)) : NoPanic x :=
  fun site he => h site (hx _ he)

end Stops

end Outcome
