import Mabel.Core.Program
import Mathlib.Data.List.Basic

/-!
# Programs beside one another

A pool of threads shares one state. A schedule names the thread that takes the next step: it
performs its next operation, waits where that operation takes a lock another thread holds, or
returns once nothing is left to perform. Each thread has a mode, which says what it holds.

What holds along every schedule is proved thread by thread. A discipline says what a thread
may rely on in each mode and what each of its steps guarantees the others; where a thread of
one mode must not step beside a thread of another, schedules that do so are left out.
-/

/-- How threads share a state: the operations, the locks they take and the modes. -/
structure Sharing (Op : Type) (Reply : Op → Type) (σ K M : Type) where
  exec : (op : Op) → σ → Reply op × σ
  /-- The lock an operation waits for. -/
  acquires : Op → Option K
  /-- Whether a thread in a mode holds a lock. -/
  holds : M → K → Bool
  turn : M → (op : Op) → Reply op → M
  /-- The mode before a thread starts and after it returns. -/
  resting : M

/-- What is left of a program, and the mode it is in. -/
structure Thread (Op : Type) (Reply : Op → Type) (M ρ : Type) where
  program : Program Op Reply Empty ρ
  mode : M

/-- What a thread answered, when it has. -/
def Thread.answer? {Op : Type} {Reply : Op → Type} {M ρ : Type} (thread : Thread Op Reply M ρ) :
    Option ρ :=
  match thread.program with
  | .done (.ok answer) => some answer
  | _ => none

/-- A thread that has answered is over. -/
theorem Thread.program_of_answer? {Op : Type} {Reply : Op → Type} {M ρ : Type}
    {thread : Thread Op Reply M ρ} {answer : ρ} (h : thread.answer? = some answer) :
    thread.program = .done (.ok answer) := by
  obtain ⟨program, mode⟩ := thread
  cases program with
  | perform op next => simp [answer?] at h
  | done result =>
    cases result with
    | error fault => simp [answer?] at h
    | ok found =>
      obtain rfl := Option.some.inj h
      rfl

/-- Threads beside one another. -/
structure Pool (Op : Type) (Reply : Op → Type) (σ M ρ : Type) where
  state : σ
  threads : List (Thread Op Reply M ρ)

namespace Pool

variable {Op : Type} {Reply : Op → Type} {σ K M ρ : Type} (T : Sharing Op Reply σ K M)

/-- Whether some thread holds the lock an operation takes. -/
def blocked (pool : Pool Op Reply σ M ρ) (op : Op) : Bool :=
  (T.acquires op).any fun lock => pool.threads.any fun thread => T.holds thread.mode lock

/-- The mode each thread is in. -/
def modes (pool : Pool Op Reply σ M ρ) : List M := pool.threads.map Thread.mode

/-- One step of one thread. -/
def step (pool : Pool Op Reply σ M ρ) (i : Nat) : Pool Op Reply σ M ρ :=
  match pool.threads[i]? with
  | none => pool
  | some ⟨.done result, _⟩ =>
    { pool with threads := pool.threads.set i ⟨.done result, T.resting⟩ }
  | some ⟨.perform op next, mode⟩ =>
    if pool.blocked T op then pool
    else
      { state := (T.exec op pool.state).2
        threads := pool.threads.set i
          ⟨next (T.exec op pool.state).1, T.turn mode op (T.exec op pool.state).1⟩ }

/-- The steps of a schedule, one after another. -/
def run (pool : Pool Op Reply σ M ρ) (schedule : List Nat) : Pool Op Reply σ M ρ :=
  schedule.foldl (step T) pool

/-- A condition on each step of a schedule, in the pool it is taken in. -/
def Along (cond : Pool Op Reply σ M ρ → Nat → Prop) : Pool Op Reply σ M ρ → List Nat → Prop
  | _, [] => True
  | pool, i :: schedule => cond pool i ∧ Along cond (pool.step T i) schedule

/-- The step a thread takes next may be taken beside every other thread. -/
def Apart (apart : σ → M → Op → M → Prop) (pool : Pool Op Reply σ M ρ) (i : Nat) : Prop :=
  match pool.threads[i]? with
  | some ⟨.perform op _, mode⟩ => pool.blocked T op = false →
    ∀ other ∈ pool.modes.eraseIdx i, apart pool.state mode op other
  | _ => True

instance Apart.decidable (apart : σ → M → Op → M → Prop)
    [∀ s m op other, Decidable (apart s m op other)] (pool : Pool Op Reply σ M ρ) (i : Nat) :
    Decidable (pool.Apart T apart i) :=
  match h : pool.threads[i]? with
  | some ⟨.perform op _, mode⟩ =>
    decidable_of_iff (pool.blocked T op = false →
      ∀ other ∈ pool.modes.eraseIdx i, apart pool.state mode op other) (by rw [Apart, h])
  | some ⟨.done _, _⟩ => isTrue (by rw [Apart, h]; trivial)
  | none => isTrue (by rw [Apart, h]; trivial)

instance Along.decidable (cond : Pool Op Reply σ M ρ → Nat → Prop)
    [∀ pool i, Decidable (cond pool i)] : ∀ (pool : Pool Op Reply σ M ρ) (schedule : List Nat),
      Decidable (Along T cond pool schedule)
  | _, [] => isTrue trivial
  | pool, i :: schedule =>
    have := Along.decidable cond (pool.step T i) schedule
    inferInstanceAs (Decidable (_ ∧ _))

/-- A thread has nothing left to do. -/
def Returned (thread : Thread Op Reply M ρ) (result : ρ) : Prop :=
  thread.program = .done (.ok result) ∧ thread.mode = T.resting

variable {T}

theorem run_append (pool : Pool Op Reply σ M ρ) (first rest : List Nat) :
    pool.run T (first ++ rest) = (pool.run T first).run T rest := List.foldl_append

/-- What holds along a schedule holds along its two parts. -/
theorem along_append {cond : Pool Op Reply σ M ρ → Nat → Prop} (first : List Nat) :
    ∀ {pool : Pool Op Reply σ M ρ} {rest : List Nat}, Along T cond pool (first ++ rest) →
      Along T cond pool first ∧ Along T cond (pool.run T first) rest := by
  induction first with
  | nil => exact fun h => ⟨trivial, h⟩
  | cons i first ih =>
    intro pool rest h
    obtain ⟨hfirst, hrest⟩ := ih h.2
    exact ⟨⟨h.1, hfirst⟩, hrest⟩

/-- What holds along a schedule may be weakened. -/
theorem along_mono {cond cond' : Pool Op Reply σ M ρ → Nat → Prop}
    (h : ∀ pool i, cond pool i → cond' pool i) (schedule : List Nat) :
    ∀ {pool : Pool Op Reply σ M ρ}, Along T cond pool schedule → Along T cond' pool schedule := by
  induction schedule with
  | nil => exact fun _ => trivial
  | cons i schedule ih => exact fun halong => ⟨h _ _ halong.1, ih halong.2⟩

end Pool

/-! ## What one thread has at a time -/

section Exclusive

variable {M : Type} {modes : List M} {i : Nat} {m m' : M} {P : M → Prop}

/-- At most one of some modes has a property. -/
def Exclusive (P : M → Prop) (modes : List M) : Prop :=
  ∀ (i j : Nat) (m m' : M), modes[i]? = some m → modes[j]? = some m' → P m → P m' → i = j

/-- The others do not have what one has. -/
theorem Exclusive.others (h : Exclusive P modes) (hi : modes[i]? = some m) (hm : P m) :
    ∀ other ∈ modes.eraseIdx i, ¬ P other := by
  intro other hother hP
  obtain ⟨j, hij, hj⟩ := List.mem_eraseIdx_iff_getElem?.mp hother
  exact hij (h j i other m hj hi hP hm)

/-- A mode may take what no other has. -/
theorem Exclusive.set (h : Exclusive P modes)
    (hm : P m' → ∀ other ∈ modes.eraseIdx i, ¬ P other) : Exclusive P (modes.set i m') := by
  intro j k a b hj hk ha hb
  rw [List.getElem?_set] at hj hk
  by_cases hij : i = j
  · by_cases hik : i = k
    · exact hij.symm.trans hik
    · rw [if_pos hij] at hj
      rw [if_neg hik] at hk
      split_ifs at hj
      obtain rfl := Option.some.inj hj
      exact absurd hb (hm ha b (List.mem_eraseIdx_iff_getElem?.mpr ⟨k, Ne.symm hik, hk⟩))
  · rw [if_neg hij] at hj
    by_cases hik : i = k
    · rw [if_pos hik] at hk
      split_ifs at hk
      obtain rfl := Option.some.inj hk
      exact absurd ha (hm hb a (List.mem_eraseIdx_iff_getElem?.mpr ⟨j, Ne.symm hij, hj⟩))
    · rw [if_neg hik] at hk
      exact h j k a b hj hk ha hb

/-- Every mode is the one of a thread or of another. -/
theorem mem_cases (hi : modes[i]? = some m) {other : M} (h : other ∈ modes) :
    other = m ∨ other ∈ modes.eraseIdx i := by
  obtain ⟨j, hj⟩ := List.mem_iff_getElem?.mp h
  by_cases hij : j = i
  · subst hij
    exact .inl (Option.some.inj (hj.symm.trans hi))
  · exact .inr (List.mem_eraseIdx_iff_getElem?.mpr ⟨j, hij, hj⟩)

/-- A member of a list with one element replaced is that element or one of the others. -/
theorem mem_set_cases {a b : M} (h : b ∈ modes.set i a) : b = a ∨ b ∈ modes.eraseIdx i := by
  obtain ⟨j, hj⟩ := List.mem_iff_getElem?.mp h
  rw [List.getElem?_set] at hj
  by_cases hij : i = j
  · rw [if_pos hij] at hj
    split_ifs at hj
    exact .inl (Option.some.inj hj).symm
  · rw [if_neg hij] at hj
    exact .inr (List.mem_eraseIdx_iff_getElem?.mpr ⟨j, Ne.symm hij, hj⟩)

/-- The others are still there when one element is replaced. -/
theorem mem_set_of_mem_eraseIdx {other : M} (h : other ∈ modes.eraseIdx i) (a : M) :
    other ∈ modes.set i a := by
  obtain ⟨j, hij, hj⟩ := List.mem_eraseIdx_iff_getElem?.mp h
  refine List.mem_iff_getElem?.mpr ⟨j, ?_⟩
  rw [List.getElem?_set_ne (Ne.symm hij)]
  exact hj

end Exclusive

/-! ## Disciplines -/

/-- What threads rely on and guarantee, by mode. -/
structure Discipline {Op : Type} {Reply : Op → Type} {σ K M : Type}
    (T : Sharing Op Reply σ K M) where
  /-- Whether a thread of one mode may perform an operation beside a thread of another. -/
  apart : σ → M → Op → M → Prop
  /-- What the others may do to the state beside a thread of a mode. -/
  rely : M → σ → σ → Prop
  /-- What a step from one mode to another may do to the state. -/
  guarantee : M → M → σ → σ → Prop
  /-- What holds of the state by the modes the threads are in. -/
  invariant : List M → σ → Prop
  /-- What a thread of a mode finds where it may perform an operation. -/
  finds : M → Op → σ → Prop
  finds_of : ∀ {modes s i m op}, invariant modes s → modes[i]? = some m →
    (∀ other ∈ modes.eraseIdx i, apart s m op other) →
    (∀ lock, T.acquires op = some lock → ∀ other ∈ modes, T.holds other lock = false) →
    finds m op s
  rely_of : ∀ {modes s i m op}, invariant modes s → modes[i]? = some m →
    (∀ other ∈ modes.eraseIdx i, apart s m op other) →
    guarantee m (T.turn m op (T.exec op s).1) s (T.exec op s).2 →
    ∀ other ∈ modes.eraseIdx i, rely other s (T.exec op s).2
  invariant_of : ∀ {modes s i m op}, invariant modes s → modes[i]? = some m →
    (∀ other ∈ modes.eraseIdx i, apart s m op other) →
    (∀ lock, T.acquires op = some lock → ∀ other ∈ modes, T.holds other lock = false) →
    guarantee m (T.turn m op (T.exec op s).1) s (T.exec op s).2 →
    invariant (modes.set i (T.turn m op (T.exec op s).1)) (T.exec op s).2
  invariant_return : ∀ {modes s i m}, invariant modes s → modes[i]? = some m →
    guarantee m T.resting s s → invariant (modes.set i T.resting) s
  guarantee_rest : ∀ s, guarantee T.resting T.resting s s

namespace Discipline

variable {Op : Type} {Reply : Op → Type} {σ K M ρ : Type} {T : Sharing Op Reply σ K M}
  (D : Discipline T)

/-- A property the others keep beside a thread of a mode. -/
def Stable (m : M) (P : σ → Prop) : Prop := ∀ s t, D.rely m s t → P s → P t

variable {ε ε' α β : Type}

/-- From a mode and a property of the state, every step of the program gives its guarantee,
and where the program ends the second property holds of its mode and the state. -/
def Meets : Program Op Reply ε α → M → (σ → Prop) → (Outcome ε α → M → σ → Prop) → Prop
  | .done result, m, P, Q => ∀ s, P s → Q result m s
  | .perform op next, m, P, Q => ∀ s, P s → D.finds m op s →
    D.guarantee m (T.turn m op (T.exec op s).1) s (T.exec op s).2 ∧
    ∃ P', D.Stable (T.turn m op (T.exec op s).1) P' ∧ P' (T.exec op s).2 ∧
      Meets (next (T.exec op s).1) (T.turn m op (T.exec op s).1) P' Q

variable {D}

/-- A program needs no more than it is given, and may be asked for less than it gives. -/
theorem Meets.mono {p : Program Op Reply ε α} {m : M} {P P' : σ → Prop}
    {Q Q' : Outcome ε α → M → σ → Prop} (h : D.Meets p m P Q) (hpre : ∀ s, P' s → P s)
    (hpost : ∀ r m s, Q r m s → Q' r m s) : D.Meets p m P' Q' := by
  induction p generalizing m P P' with
  | done result => exact fun s hs => hpost _ _ _ (h s (hpre s hs))
  | perform op next ih =>
    intro s hs hfinds
    obtain ⟨hguarantee, R, hstable, hR, hnext⟩ := h s (hpre s hs) hfinds
    exact ⟨hguarantee, R, hstable, hR, ih _ hnext fun _ => id⟩

/-- A sequence meets what its second part meets after every answer of the first. -/
theorem Meets.bind {p : Program Op Reply ε α} {f : α → Program Op Reply ε β} {m : M}
    {P : σ → Prop} {R : Outcome ε α → M → σ → Prop} {Q : Outcome ε β → M → σ → Prop}
    (h : D.Meets p m P R) (hok : ∀ a m, D.Meets (f a) m (R (.ok a) m) Q)
    (herror : ∀ e m s, R (.error e) m s → Q (.error e) m s) : D.Meets (p >>= f) m P Q := by
  induction p generalizing m P with
  | done result =>
    cases result with
    | ok a => exact (hok a m).mono h fun _ _ _ => id
    | error e => exact fun s hs => herror e m s (h s hs)
  | perform op next ih =>
    intro s hs hfinds
    obtain ⟨hguarantee, R', hstable, hR, hnext⟩ := h s hs hfinds
    exact ⟨hguarantee, R', hstable, hR, ih _ hnext⟩

/-- What the first property says of no state in particular may be assumed. -/
theorem Meets.assume {p : Program Op Reply ε α} {m : M} {P : σ → Prop}
    {Q : Outcome ε α → M → σ → Prop} {φ : Prop} (hφ : ∀ s, P s → φ) (h : φ → D.Meets p m P Q) :
    D.Meets p m P Q := by
  cases p with
  | done result => exact fun s hs => h (hφ s hs) s hs
  | perform op next => exact fun s hs => h (hφ s hs) s hs

/-- A program meets what it meets for every choice of a parameter. -/
theorem Meets.choose {p : Program Op Reply ε α} {m : M} {ι : Type} {P : ι → σ → Prop}
    {Q : Outcome ε α → M → σ → Prop} (h : ∀ i, D.Meets p m (P i) Q) :
    D.Meets p m (fun s => ∃ i, P i s) Q := by
  cases p with
  | done result =>
    rintro s ⟨i, hs⟩
    exact h i s hs
  | perform op next =>
    rintro s ⟨i, hs⟩
    exact h i s hs

/-- A thread that takes no lock and has nothing to keep apart from, in any mode of a kind it stays
in, runs to its end while the others stand still. -/
theorem Meets.alone {p : Program Op Reply ε α} {m : M} {P : σ → Prop}
    {Q : Outcome ε α → M → σ → Prop} {modes : List M} {i : Nat} {s : σ} {N : M → Prop}
    (h : D.Meets p m P Q) (hm : N m) (hturn : ∀ m op reply, N m → N (T.turn m op reply))
    (hfree : ∀ op, T.acquires op = none) (hapart : ∀ m s op other, N m → D.apart s m op other)
    (hi : modes[i]? = some m) (hinvariant : D.invariant modes s) (hs : P s) :
    ∃ m', N m' ∧ Q (p.run T.exec s).1 m' (p.run T.exec s).2 := by
  induction p generalizing m modes P s with
  | done result => exact ⟨m, hm, h s hs⟩
  | perform op next ih =>
    have hlock : ∀ lock, T.acquires op = some lock → ∀ other ∈ modes, T.holds other lock = false := by
      intro lock hlock
      rw [hfree op] at hlock
      exact absurd hlock (by simp)
    have hothers : ∀ other ∈ modes.eraseIdx i, D.apart s m op other := fun other _ =>
      hapart m s op other hm
    obtain ⟨hguarantee, R, -, hR, hnext⟩ := h s hs (D.finds_of hinvariant hi hothers hlock)
    have hkept := D.invariant_of hinvariant hi hothers hlock hguarantee
    obtain ⟨hlt, -⟩ := List.getElem?_eq_some_iff.mp hi
    exact ih _ hnext (hturn m op _ hm) (by rw [List.getElem?_set_self hlt]) hkept hR

/-! ## Triples -/

variable (D)

/-- A program meets two conditions from every mode. -/
def Triple (P : M → σ → Prop) (p : Program Op Reply ε α) (Q : Outcome ε α → M → σ → Prop) : Prop :=
  ∀ m, D.Meets p m (P m) Q

variable {D}

namespace Triple

variable {P P' : M → σ → Prop} {p : Program Op Reply ε α} {Q Q' : Outcome ε α → M → σ → Prop}

theorem mono (h : D.Triple P p Q) (hpre : ∀ m s, P' m s → P m s)
    (hpost : ∀ r m s, Q r m s → Q' r m s) : D.Triple P' p Q' :=
  fun m => (h m).mono (hpre m) hpost

theorem assume {φ : Prop} (hφ : ∀ m s, P m s → φ) (h : φ → D.Triple P p Q) : D.Triple P p Q :=
  fun m => Meets.assume (hφ m) fun hφ => h hφ m

theorem choose {ι : Type} {P : ι → M → σ → Prop} (h : ∀ i, D.Triple (P i) p Q) :
    D.Triple (fun m s => ∃ i, P i m s) p Q := fun m => Meets.choose fun i => h i m

/-- What every step keeps, the others' included, a program keeps. -/
theorem frame {F : σ → Prop} (h : D.Triple P p Q) (hstable : ∀ m, D.Stable m F)
    (hstep : ∀ m m' s t, D.guarantee m m' s t → F s → F t) :
    D.Triple (fun m s => P m s ∧ F s) p fun r m s => Q r m s ∧ F s := by
  have hp : ∀ m (P : σ → Prop), D.Meets p m P Q →
      D.Meets p m (fun s => P s ∧ F s) fun r m s => Q r m s ∧ F s := by
    clear h
    induction p with
    | done result => exact fun _ _ h s hs => ⟨h s hs.1, hs.2⟩
    | perform op next ih =>
      intro m P h s hs hfinds
      obtain ⟨hguarantee, P', hP', hholds, hnext⟩ := h s hs.1 hfinds
      refine ⟨hguarantee, fun s => P' s ∧ F s, ?_, ?_, ih _ _ _ hnext⟩
      · exact fun s t hrely hs => ⟨hP' s t hrely hs.1, hstable _ s t hrely hs.2⟩
      · exact ⟨hholds, hstep _ _ _ _ hguarantee hs.2⟩
  exact fun m => hp m _ (h m)

theorem lift {x : Outcome ε α} (h : ∀ m s, P m s → Q x m s) :
    D.Triple P (Program.lift x) Q := fun m s hs => h m s hs

theorem pure {a : α} (h : ∀ m s, P m s → Q (.ok a) m s) :
    D.Triple P (Pure.pure a : Program Op Reply ε α) Q := fun m s hs => h m s hs

/-- One operation, whose reply comes with something the others keep. -/
theorem ask_bind (op : Op) {f : Reply op → Program Op Reply ε β} {R : Reply op → M → σ → Prop}
    {Q : Outcome ε β → M → σ → Prop} (hstable : ∀ reply m, D.Stable m (R reply m))
    (h : ∀ m s, P m s → D.finds m op s →
      D.guarantee m (T.turn m op (T.exec op s).1) s (T.exec op s).2 ∧
      R (T.exec op s).1 (T.turn m op (T.exec op s).1) (T.exec op s).2)
    (hf : ∀ reply, D.Triple (R reply) (f reply) Q) :
    D.Triple P (Program.ask op >>= f) Q := by
  intro m s hs hfinds
  obtain ⟨hguarantee, hR⟩ := h m s hs hfinds
  exact ⟨hguarantee, _, hstable _ _, hR, hf _ _⟩

/-- One operation after which there is nothing more to do. -/
theorem ask (op : Op) {Q : Outcome ε (Reply op) → M → σ → Prop}
    (hstable : ∀ reply m, D.Stable m (Q (.ok reply) m))
    (h : ∀ m s, P m s → D.finds m op s →
      D.guarantee m (T.turn m op (T.exec op s).1) s (T.exec op s).2 ∧
      Q (.ok (T.exec op s).1) (T.turn m op (T.exec op s).1) (T.exec op s).2) :
    D.Triple P (Program.ask op : Program Op Reply ε (Reply op)) Q :=
  ask_bind op hstable h fun _ _ _ => id

/-- A sequence, through what holds between its parts. -/
theorem bind {f : α → Program Op Reply ε β} {R : Outcome ε α → M → σ → Prop}
    {Q : Outcome ε β → M → σ → Prop} (h : D.Triple P p R)
    (hok : ∀ a, D.Triple (R (.ok a)) (f a) Q)
    (herror : ∀ e m s, R (.error e) m s → Q (.error e) m s) : D.Triple P (p >>= f) Q :=
  fun m => (h m).bind (fun a m => hok a m) herror

/-- Code that performs no operation before a sequence. -/
theorem lift_bind {x : Outcome ε α} {f : α → Program Op Reply ε β}
    {Q : Outcome ε β → M → σ → Prop} (hok : ∀ a, x = .ok a → D.Triple P (f a) Q)
    (herror : ∀ e, x = .error e → ∀ m s, P m s → Q (.error e) m s) :
    D.Triple P (Program.lift x >>= f) Q := by
  cases x with
  | ok a => exact hok a rfl
  | error e => exact fun m s hs => herror e rfl m s hs

/-- A choice, each side under its condition. -/
theorem ite {c : Prop} [Decidable c] {q : Program Op Reply ε α} (hp : c → D.Triple P p Q)
    (hq : ¬ c → D.Triple P q Q) : D.Triple P (if c then p else q) Q := by
  split_ifs with h
  · exact hp h
  · exact hq h

/-- Carrying rejections into another type. -/
theorem mapReject {g : ε → ε'} {R : Outcome ε' α → M → σ → Prop}
    (h : D.Triple P p fun r => R (Outcome.mapReject g r)) : D.Triple P (p.mapReject g) R := by
  have hp : ∀ m (P : σ → Prop), D.Meets p m P (fun r => R (Outcome.mapReject g r)) →
      D.Meets (p.mapReject g) m P R := by
    clear h
    induction p with
    | done result => exact fun _ _ h => h
    | perform op next ih =>
      intro m P h s hs hfinds
      obtain ⟨hguarantee, P', hstable, hP', hnext⟩ := h s hs hfinds
      exact ⟨hguarantee, P', hstable, hP', ih _ _ _ hnext⟩
  exact fun m => hp m _ (h m)

/-- An attempt, by what the program answers. -/
theorem attempt {R : Outcome ε' (Option α) → M → σ → Prop}
    (h : D.Triple P p fun r => R (Program.attempted r)) :
    D.Triple P (p.attempt : Program Op Reply ε' (Option α)) R := by
  have hp : ∀ m (P : σ → Prop), D.Meets p m P (fun r => R (Program.attempted r)) →
      D.Meets (p.attempt : Program Op Reply ε' (Option α)) m P R := by
    clear h
    induction p with
    | done result => rcases result with (_ | _) | _ <;> exact fun _ _ h => h
    | perform op next ih =>
      intro m P h s hs hfinds
      obtain ⟨hguarantee, P', hstable, hP', hnext⟩ := h s hs hfinds
      exact ⟨hguarantee, P', hstable, hP', ih _ _ _ hnext⟩
  exact fun m => hp m _ (h m)

/-- Concluding, by how the program ends. -/
theorem conclude {g : Outcome ε α → β} {R : Outcome ε' β → M → σ → Prop}
    (h : D.Triple P p fun r => R (.ok (g r))) :
    D.Triple P (p.conclude g : Program Op Reply ε' β) R := by
  have hp : ∀ m (P : σ → Prop), D.Meets p m P (fun r => R (.ok (g r))) →
      D.Meets (p.conclude g : Program Op Reply ε' β) m P R := by
    clear h
    induction p with
    | done result => exact fun _ _ h => h
    | perform op next ih =>
      intro m P h s hs hfinds
      obtain ⟨hguarantee, P', hstable, hP', hnext⟩ := h s hs hfinds
      exact ⟨hguarantee, P', hstable, hP', ih _ _ _ hnext⟩
  exact fun m => hp m _ (h m)

/-- The last operation comes after whatever the program did. -/
theorem andFinally {op : Op} {R : Outcome ε α → M → σ → Prop} (h : D.Triple P p R)
    (hop : ∀ r, D.Triple (R r) (Program.ask op : Program Op Reply ε (Reply op)) fun _ => Q r) :
    D.Triple P (p.andFinally op) Q := by
  have hp : ∀ m (P : σ → Prop), D.Meets p m P R → D.Meets (p.andFinally op) m P Q := by
    clear h
    induction p with
    | done result =>
      intro m P h s hs hfinds
      obtain ⟨hguarantee, P', hstable, hP', hnext⟩ := hop result m s (h s hs) hfinds
      exact ⟨hguarantee, P', hstable, hP', hnext⟩
    | perform op' next ih =>
      intro m P h s hs hfinds
      obtain ⟨hguarantee, P', hstable, hP', hnext⟩ := h s hs hfinds
      exact ⟨hguarantee, P', hstable, hP', ih _ _ _ hnext⟩
  exact fun m => hp m _ (h m)

end Triple

/-! ## Schedules -/

variable (D)

/-- What a thread's program ends in: it may return, and its answer comes with a property. -/
def Ends (Q : ρ → σ → Prop) (result : Outcome Empty ρ) (m : M) (s : σ) : Prop :=
  D.guarantee m T.resting s s ∧ ∀ answer, result = .ok answer → Q answer s

/-- A thread that has come so far keeps to the discipline from here on. -/
def Keeps (Q : ρ → σ → Prop) (thread : Thread Op Reply M ρ) (s : σ) : Prop :=
  ∃ P, D.Stable thread.mode P ∧ P s ∧ D.Meets thread.program thread.mode P (D.Ends Q)

/-- Every thread of a pool keeps to the discipline. -/
structure Kept (Q : ρ → σ → Prop) (pool : Pool Op Reply σ M ρ) : Prop where
  invariant : D.invariant pool.modes pool.state
  keeps : ∀ thread ∈ pool.threads, D.Keeps Q thread pool.state

variable {D} {Q : ρ → σ → Prop}

/-- What a thread keeps survives what the others do. -/
theorem Keeps.stable {thread : Thread Op Reply M ρ} {s t : σ} (h : D.Keeps Q thread s)
    (hrely : D.rely thread.mode s t) : D.Keeps Q thread t := by
  obtain ⟨P, hstable, hP, hmeets⟩ := h
  exact ⟨P, hstable, hstable s t hrely hP, hmeets⟩

/-- Where a thread has ended its answer's property holds. -/
theorem Keeps.answer {thread : Thread Op Reply M ρ} {s : σ} {answer : ρ}
    (h : D.Keeps Q thread s) (hdone : thread.program = .done (.ok answer)) : Q answer s := by
  obtain ⟨P, -, hP, hmeets⟩ := h
  rw [hdone] at hmeets
  exact (hmeets s hP).2 answer rfl

variable {pool : Pool Op Reply σ M ρ} {i : Nat}

/-- The modes of the other threads. -/
theorem mode_mem_others {thread : Thread Op Reply M ρ} (h : thread ∈ pool.threads.eraseIdx i) :
    thread.mode ∈ pool.modes.eraseIdx i := by
  obtain ⟨j, hij, hj⟩ := List.mem_eraseIdx_iff_getElem?.mp h
  refine List.mem_eraseIdx_iff_getElem?.mpr ⟨j, hij, ?_⟩
  rw [Pool.modes, List.getElem?_map, hj]
  rfl

/-- A thread that is not blocked asks for a lock that nobody holds. -/
theorem not_blocked {op : Op} (h : pool.blocked T op = false) :
    ∀ lock, T.acquires op = some lock → ∀ other ∈ pool.modes, T.holds other lock = false := by
  intro lock hlock other hother
  obtain ⟨thread, hthread, rfl⟩ := List.mem_map.mp hother
  rw [Pool.blocked, hlock, Option.any_some, List.any_eq_false] at h
  simpa using h thread hthread

/-- What one step does to the state is something a thread guarantees, or nothing. -/
theorem Kept.step (h : D.Kept Q pool) (hQ : ∀ answer, D.Stable T.resting (Q answer))
    (hapart : pool.Apart T D.apart i) : D.Kept Q (pool.step T i) ∧
      ((pool.step T i).state = pool.state ∨
        ∃ m m', D.guarantee m m' pool.state (pool.step T i).state) := by
  rw [Pool.step]
  rw [Pool.Apart] at hapart
  cases hthread : pool.threads[i]? with
  | none => exact ⟨h, .inl rfl⟩
  | some thread =>
    obtain ⟨program, mode⟩ := thread
    rw [hthread] at hapart
    have hmem := List.mem_of_getElem? hthread
    have hmode : pool.modes[i]? = some mode := by
      rw [Pool.modes, List.getElem?_map, hthread]
      rfl
    obtain ⟨P, hstable, hP, hmeets⟩ := h.keeps _ hmem
    cases program with
    | done result =>
      refine ⟨⟨?_, ?_⟩, .inl rfl⟩
      · -- The thread returns.
        change D.invariant ((pool.threads.set i ⟨.done result, T.resting⟩).map Thread.mode)
          pool.state
        rw [List.map_set]
        exact D.invariant_return h.invariant hmode (hmeets _ hP).1
      · intro thread hthread
        rcases mem_set_cases hthread with rfl | hother
        · refine ⟨fun s => ∀ answer, result = .ok answer → Q answer s, ?_, (hmeets _ hP).2, ?_⟩
          · intro s t hrely hs answer hanswer
            exact hQ answer s t hrely (hs answer hanswer)
          · exact fun s hs => ⟨D.guarantee_rest s, hs⟩
        · exact h.keeps thread (List.mem_of_mem_eraseIdx hother)
    | perform op next =>
      dsimp only at hapart ⊢
      by_cases hblocked : pool.blocked T op = true
      · rw [if_pos hblocked]
        exact ⟨h, .inl rfl⟩
      · rw [if_neg hblocked]
        rw [Bool.not_eq_true] at hblocked
        have hfree := not_blocked hblocked
        have hapart := hapart hblocked
        obtain ⟨hguarantee, P', hstable', hP', hnext⟩ := hmeets _ hP
          (D.finds_of h.invariant hmode hapart hfree)
        refine ⟨⟨?_, ?_⟩, .inr ⟨_, _, hguarantee⟩⟩
        · change D.invariant ((pool.threads.set i _).map Thread.mode) _
          rw [List.map_set]
          exact D.invariant_of h.invariant hmode hapart hfree hguarantee
        · intro thread hthread
          rcases mem_set_cases hthread with rfl | hother
          · exact ⟨P', hstable', hP', hnext⟩
          · exact (h.keeps thread (List.mem_of_mem_eraseIdx hother)).stable
              (D.rely_of h.invariant hmode hapart hguarantee _ (mode_mem_others hother))

/-- Threads that keep to a discipline keep to it along every schedule that respects it, and
what each step guarantees relates the first state to the last. -/
theorem Kept.run (hQ : ∀ answer, D.Stable T.resting (Q answer)) {R : σ → σ → Prop}
    (hrefl : ∀ s, R s s) (htrans : ∀ s t u, R s t → R t u → R s u)
    (hR : ∀ m m' s t, D.guarantee m m' s t → R s t) (schedule : List Nat) :
    ∀ {pool : Pool Op Reply σ M ρ}, D.Kept Q pool →
      Pool.Along T (Pool.Apart T D.apart) pool schedule →
      D.Kept Q (pool.run T schedule) ∧ R pool.state (pool.run T schedule).state := by
  induction schedule with
  | nil => exact fun h _ => ⟨h, hrefl _⟩
  | cons i schedule ih =>
    intro pool h halong
    obtain ⟨hstep, hguarantee⟩ := h.step hQ halong.1
    obtain ⟨hkept, hlast⟩ := ih hstep halong.2
    refine ⟨hkept, htrans _ _ _ ?_ hlast⟩
    rcases hguarantee with hsame | ⟨m, m', hguarantee⟩
    · rw [hsame]
      exact hrefl _
    · exact hR _ _ _ _ hguarantee

end Discipline
