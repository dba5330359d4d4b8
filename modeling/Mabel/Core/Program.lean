import Mabel.Core.Outcome

/-!
# Programs of atomic operations

A program performs operations on a shared state one at a time and then answers, rejects or
panics. Keeping the operations apart gives one text three readings: run alone from start to
end, stopped after any number of operations, and run beside other programs whose operations
fall between its own. What a program did before it failed stays done, so the rules carry
one condition on how it ended and where it left the state.
-/

/-- A program: an outcome, or an operation and what follows each reply to it. -/
inductive Program (Op : Type) (Reply : Op → Type) (ε α : Type) where
  | done (result : Outcome ε α)
  | perform (op : Op) (next : Reply op → Program Op Reply ε α)

namespace Program

variable {Op : Type} {Reply : Op → Type} {ε ε' α β σ : Type}

/-- Continue with the answer, or stop where the program stops. -/
def bind : Program Op Reply ε α → (α → Program Op Reply ε β) → Program Op Reply ε β
  | .done (.ok a), f => f a
  | .done (.error e), _ => .done (.error e)
  | .perform op next, f => .perform op fun reply => (next reply).bind f

instance : Monad (Program Op Reply ε) where
  pure a := .done (.ok a)
  bind := bind

/-- Perform one operation and answer its reply. -/
def ask (op : Op) : Program Op Reply ε (Reply op) := .perform op fun reply => .done (.ok reply)

/-- Code that performs no operation. -/
def lift (x : Outcome ε α) : Program Op Reply ε α := .done x

/-- Perform one more operation at the end, however the program ends. -/
def andFinally (op : Op) : Program Op Reply ε α → Program Op Reply ε α
  | .done result => .perform op fun _ => .done result
  | .perform op' next => .perform op' fun reply => (next reply).andFinally op

/-- Carry rejections into a wider error type. -/
def mapReject (f : ε → ε') : Program Op Reply ε α → Program Op Reply ε' α
  | .done result => .done (Outcome.mapReject f result)
  | .perform op next => .perform op fun reply => (next reply).mapReject f

/-- Answer nothing where the program rejects. -/
def attempt : Program Op Reply ε α → Program Op Reply ε' (Option α)
  | .done (.ok a) => .done (.ok (some a))
  | .done (.error (.reject _)) => .done (.ok none)
  | .done (.error (.panic site)) => .done (.error (.panic site))
  | .perform op next => .perform op fun reply => (next reply).attempt

/-- Answer how the program ended. -/
def conclude (f : Outcome ε α → β) : Program Op Reply ε α → Program Op Reply ε' β
  | .done result => .done (.ok (f result))
  | .perform op next => .perform op fun reply => (next reply).conclude f

/-! ## Running alone -/

variable (exec : (op : Op) → σ → Reply op × σ)

/-- Run a program from a state to its end. -/
def run : Program Op Reply ε α → σ → Outcome ε α × σ
  | .done result, s => (result, s)
  | .perform op next, s => run (next (exec op s).1) (exec op s).2

/-- The state after at most a number of operations. -/
def cut : Nat → Program Op Reply ε α → σ → σ
  | 0, _, s => s
  | _ + 1, .done _, s => s
  | n + 1, .perform op next, s => cut n (next (exec op s).1) (exec op s).2

@[simp] theorem run_pure (a : α) (s : σ) :
    run exec (pure a : Program Op Reply ε α) s = (.ok a, s) := rfl

@[simp] theorem run_lift (x : Outcome ε α) (s : σ) :
    run exec (lift x : Program Op Reply ε α) s = (x, s) := rfl

@[simp] theorem run_ask (op : Op) (s : σ) :
    run exec (ask op : Program Op Reply ε (Reply op)) s = (.ok (exec op s).1, (exec op s).2) := rfl

/-- A sequence whose first part performs one operation. -/
@[simp] theorem run_ask_bind (op : Op) (f : Reply op → Program Op Reply ε α) (s : σ) :
    run exec (ask op >>= f) s = run exec (f (exec op s).1) (exec op s).2 := rfl

@[simp] theorem run_pure_bind (a : α) (f : α → Program Op Reply ε β) (s : σ) :
    run exec (pure a >>= f) s = run exec (f a) s := rfl

variable {exec}

/-- A sequence goes on from what its first part answered and left. -/
theorem run_bind_of_ok {p : Program Op Reply ε α} {f : α → Program Op Reply ε β} {s t : σ} {a : α}
    (h : run exec p s = (.ok a, t)) : run exec (p >>= f) s = run exec (f a) t := by
  induction p generalizing s with
  | done result =>
    rw [run, Prod.mk.injEq] at h
    obtain ⟨rfl, rfl⟩ := h
    rfl
  | perform op next ih => exact ih _ h

/-- A sequence stops where its first part fails. -/
theorem run_bind_of_error {p : Program Op Reply ε α} {f : α → Program Op Reply ε β} {s t : σ}
    {e : Fault ε} (h : run exec p s = (.error e, t)) : run exec (p >>= f) s = (.error e, t) := by
  induction p generalizing s with
  | done result =>
    rw [run, Prod.mk.injEq] at h
    obtain ⟨rfl, rfl⟩ := h
    rfl
  | perform op next ih => exact ih _ h

/-- A sequence answers exactly when its parts do, one after the other. -/
theorem run_bind_eq_ok {p : Program Op Reply ε α} {f : α → Program Op Reply ε β} {s u : σ} {b : β} :
    run exec (p >>= f) s = (.ok b, u) ↔
      ∃ a t, run exec p s = (.ok a, t) ∧ run exec (f a) t = (.ok b, u) := by
  rcases hp : run exec p s with ⟨r, t⟩
  cases r with
  | ok a =>
    rw [run_bind_of_ok hp]
    constructor
    · exact fun h => ⟨a, t, rfl, h⟩
    · rintro ⟨a', t', heq, h⟩
      rw [Prod.mk.injEq, Except.ok.injEq] at heq
      obtain ⟨rfl, rfl⟩ := heq
      exact h
  | error e =>
    rw [run_bind_of_error hp]
    simp

/-- Code that performs no operation before a sequence. -/
theorem run_lift_ok_bind {x : Outcome ε α} {f : α → Program Op Reply ε β} {s : σ} {a : α}
    (h : x = .ok a) : run exec (lift x >>= f) s = run exec (f a) s := by
  rw [h]
  rfl

/-- Code that fails before a sequence ends it where it stands. -/
theorem run_lift_error_bind {x : Outcome ε α} {f : α → Program Op Reply ε β} {s : σ} {e : Fault ε}
    (h : x = .error e) : run exec (lift x >>= f) s = (.error e, s) := by
  rw [h]
  rfl

/-- A sequence of code and a program that only reads, as one outcome. -/
theorem run_lift_bind_reads {x : Outcome ε α} {f : α → Program Op Reply ε β} {s : σ}
    {g : α → Outcome ε β} (h : ∀ a, run exec (f a) s = (g a, s)) :
    run exec (lift x >>= f) s = (x >>= g, s) := by
  cases x with
  | ok a => exact h a
  | error e => rfl

/-- A sequence whose second part only reads, as one outcome. -/
theorem run_bind_settled {p : Program Op Reply ε α} {f : α → Program Op Reply ε β} {s t : σ}
    {x : Outcome ε α} {g : α → Outcome ε β} (hp : run exec p s = (x, t))
    (h : ∀ a, run exec (f a) t = (g a, t)) : run exec (p >>= f) s = (x >>= g, t) := by
  cases x with
  | ok a => exact (run_bind_of_ok hp).trans (h a)
  | error e => exact run_bind_of_error hp

/-- A sequence of programs that only read, as one outcome. -/
theorem run_bind_reads {p : Program Op Reply ε α} {f : α → Program Op Reply ε β} {s : σ}
    {x : Outcome ε α} {g : α → Outcome ε β} (hp : run exec p s = (x, s))
    (h : ∀ a, run exec (f a) s = (g a, s)) : run exec (p >>= f) s = (x >>= g, s) :=
  run_bind_settled hp h

/-- An answer made of the last one leaves what the program left. -/
theorem run_bind_pure_snd (p : Program Op Reply ε α) (f : α → β) (s : σ) :
    (run exec (p >>= fun a => pure (f a)) s).2 = (run exec p s).2 :=
  congrArg Prod.snd (run_bind_settled (g := fun a => .ok (f a)) rfl fun _ => rfl)

/-- The last operation comes after whatever the program did. -/
theorem run_andFinally (p : Program Op Reply ε α) (op : Op) (s : σ) :
    run exec (p.andFinally op) s = ((run exec p s).1, (exec op (run exec p s).2).2) := by
  induction p generalizing s with
  | done result => rfl
  | perform op' next ih => exact ih _ _

/-- Carrying rejections into another type changes the outcome alone. -/
theorem run_mapReject (p : Program Op Reply ε α) (f : ε → ε') (s : σ) :
    run exec (p.mapReject f) s = (Outcome.mapReject f (run exec p s).1, (run exec p s).2) := by
  induction p generalizing s with
  | done result => rfl
  | perform op next ih => exact ih _ _

/-- Carrying rejections into another type leaves the answers. -/
theorem run_mapReject_eq_ok {p : Program Op Reply ε α} {f : ε → ε'} {s t : σ} {a : α} :
    run exec (p.mapReject f) s = (.ok a, t) ↔ run exec p s = (.ok a, t) := by
  rw [run_mapReject]
  rcases run exec p s with ⟨r, u⟩
  simp

theorem run_lift_eq_ok {x : Outcome ε α} {s t : σ} {a : α} :
    run exec (lift x : Program Op Reply ε α) s = (.ok a, t) ↔ x = .ok a ∧ s = t := by
  rw [run_lift, Prod.mk.injEq]

/-- What an attempt answers, by what the program answers. -/
def attempted : Outcome ε α → Outcome ε' (Option α)
  | .ok a => .ok (some a)
  | .error (.reject _) => .ok none
  | .error (.panic site) => .error (.panic site)

/-- An attempt runs the program as it is and answers nothing where that rejects. -/
theorem run_attempt (p : Program Op Reply ε α) (s : σ) :
    run exec (p.attempt : Program Op Reply ε' (Option α)) s =
      (attempted (run exec p s).1, (run exec p s).2) := by
  induction p generalizing s with
  | done result => rcases result with (_ | _) | _ <;> rfl
  | perform op next ih => exact ih _ _

/-- Concluding runs the program as it is and answers how it ended. -/
theorem run_conclude (p : Program Op Reply ε α) (f : Outcome ε α → β) (s : σ) :
    run exec (p.conclude f : Program Op Reply ε' β) s =
      (.ok (f (run exec p s).1), (run exec p s).2) := by
  induction p generalizing s with
  | done result => rfl
  | perform op next ih => exact ih _ _

/-! ## Postconditions -/

variable (exec)

/-- Run from a state, the program ends in an outcome and a state with the property. -/
def Ensures (p : Program Op Reply ε α) (s : σ) (Q : Outcome ε α → σ → Prop) : Prop :=
  Q (run exec p s).1 (run exec p s).2

variable {exec}

namespace Ensures

variable {p : Program Op Reply ε α} {f : α → Program Op Reply ε β} {s t : σ}

/-- A run that is known ensures what holds of its end. -/
theorem of_run {r : Outcome ε α} {Q : Outcome ε α → σ → Prop} (h : run exec p s = (r, t))
    (hQ : Q r t) : p.Ensures exec s Q := by
  rw [Ensures, h]
  exact hQ

theorem mono {Q Q' : Outcome ε α → σ → Prop} (h : p.Ensures exec s Q)
    (himp : ∀ r t, Q r t → Q' r t) : p.Ensures exec s Q' := himp _ _ h

/-- A sequence ensures what its second part ensures after every answer of the first, and
what holds wherever the first part fails. -/
theorem bind {R : Outcome ε α → σ → Prop} {Q : Outcome ε β → σ → Prop} (hp : p.Ensures exec s R)
    (hok : ∀ a t, R (.ok a) t → (f a).Ensures exec t Q)
    (herror : ∀ e t, R (.error e) t → Q (.error e) t) : (p >>= f).Ensures exec s Q := by
  rcases hrun : run exec p s with ⟨r, t⟩
  rw [Ensures, hrun] at hp
  cases r with
  | ok a =>
    rw [Ensures, run_bind_of_ok hrun]
    exact hok a t hp
  | error e => exact of_run (run_bind_of_error hrun) (herror e t hp)

/-- A sequence whose first part is known to answer. -/
theorem after {a : α} {Q : Outcome ε β → σ → Prop} (h : run exec p s = (.ok a, t))
    (hf : (f a).Ensures exec t Q) : (p >>= f).Ensures exec s Q := by
  rw [Ensures, run_bind_of_ok h]
  exact hf

/-- Code that performs no operation fails where it stands. -/
theorem lift_bind {x : Outcome ε α} {Q : Outcome ε β → σ → Prop}
    (hok : ∀ a, x = .ok a → (f a).Ensures exec s Q) (herror : ∀ e, x = .error e → Q (.error e) s) :
    (lift x >>= f).Ensures exec s Q := by
  cases x with
  | ok a => exact hok a rfl
  | error e => exact herror e rfl

end Ensures

/-! ## Stopping a program -/

variable (exec)

/-- Stopped after any number of operations, the program leaves a state with the property. -/
def Throughout (p : Program Op Reply ε α) (s : σ) (I : σ → Prop) : Prop := ∀ n, I (cut exec n p s)

variable {exec}

namespace Throughout

variable {p : Program Op Reply ε α} {f : α → Program Op Reply ε β} {s : σ} {I J : σ → Prop}

/-- A program that is over stays in its state. -/
theorem done {result : Outcome ε α} (hs : I s) :
    Throughout exec (Program.done result : Program Op Reply ε α) s I := by
  intro n
  cases n <;> exact hs

/-- An operation and what follows the reply to it. -/
theorem perform {op : Op} {next : Reply op → Program Op Reply ε α} (hs : I s)
    (h : (next (exec op s).1).Throughout exec (exec op s).2 I) :
    (Program.perform op next).Throughout exec s I := by
  intro n
  cases n with
  | zero => exact hs
  | succ n => exact h n

/-- A sequence whose first part performs one operation. -/
theorem ask_bind {op : Op} {f : Reply op → Program Op Reply ε β} (hs : I s)
    (h : (f (exec op s).1).Throughout exec (exec op s).2 I) :
    (Program.ask op >>= f).Throughout exec s I :=
  perform hs h

/-- What holds throughout holds at the end. -/
theorem final (h : p.Throughout exec s I) : I (run exec p s).2 := by
  induction p generalizing s with
  | done result => exact h 0
  | perform op next ih => exact ih _ fun n => h (n + 1)

theorem mono (h : p.Throughout exec s I) (himp : ∀ t, I t → J t) : p.Throughout exec s J :=
  fun n => himp _ (h n)

/-- A sequence has the property throughout if its first part does, and its second after every
answer of the first. -/
theorem bind (hp : p.Throughout exec s I)
    (hf : ∀ a t, run exec p s = (.ok a, t) → (f a).Throughout exec t I) :
    (p >>= f).Throughout exec s I := by
  induction p generalizing s with
  | done result =>
    cases result with
    | ok a => exact hf a s rfl
    | error e => exact done (hp 0)
  | perform op next ih => exact perform (hp 0) (ih _ (fun n => hp (n + 1)) hf)

/-- A sequence whose first part is known to answer. -/
theorem after {a : α} {t : σ} (hrun : run exec p s = (.ok a, t)) (hp : p.Throughout exec s I)
    (hf : (f a).Throughout exec t I) : (p >>= f).Throughout exec s I := by
  refine hp.bind fun b u hu => ?_
  obtain ⟨hb, rfl⟩ := Prod.mk.inj (hrun.symm.trans hu)
  obtain rfl := Except.ok.inj hb
  exact hf

/-- Carrying rejections into another type passes the same states. -/
theorem mapReject (h : p.Throughout exec s I) (g : ε → ε') :
    (p.mapReject g).Throughout exec s I := by
  induction p generalizing s with
  | done result => exact done (h 0)
  | perform op next ih => exact perform (h 0) (ih _ fun n => h (n + 1))

/-- Code that performs no operation passes no state. -/
theorem lift_bind {x : Outcome ε α} (hs : I s)
    (hf : ∀ a, x = .ok a → (f a).Throughout exec s I) :
    (lift x >>= f).Throughout exec s I := by
  cases x with
  | ok a => exact hf a rfl
  | error e => exact done hs

/-- An attempt passes the states of the program. -/
theorem attempt (h : p.Throughout exec s I) :
    (p.attempt : Program Op Reply ε' (Option α)).Throughout exec s I := by
  induction p generalizing s with
  | done result =>
    rcases result with (_ | _) | _
    · exact done (h 0)
    · exact done (h 0)
    · exact done (h 0)
  | perform op next ih => exact perform (h 0) (ih _ fun n => h (n + 1))

/-- What holds throughout a sequence holds throughout its first part. -/
theorem first (h : (p >>= f).Throughout exec s I) : p.Throughout exec s I := by
  induction p generalizing s with
  | done result => exact done (h 0)
  | perform op next ih => exact perform (h 0) (ih _ fun n => h (n + 1))

/-- A sequence may be stopped right after its first part. -/
theorem between (h : (p >>= f).Throughout exec s I) : I (run exec p s).2 := h.first.final

/-- What holds throughout a sequence holds throughout its second part. -/
theorem second {a : α} {t : σ} (h : (p >>= f).Throughout exec s I)
    (hrun : run exec p s = (.ok a, t)) : (f a).Throughout exec t I := by
  induction p generalizing s with
  | done result =>
    obtain ⟨rfl, rfl⟩ := Prod.mk.inj hrun
    exact h
  | perform op next ih => exact ih _ (fun n => h (n + 1)) hrun

end Throughout

/-! ## How a program may end -/

/-- Whatever is replied within the bounds, the program ends with the property. -/
def Ends (K : (op : Op) → Reply op → Prop) (Q : Outcome ε α → Prop) : Program Op Reply ε α → Prop
  | .done result => Q result
  | .perform op next => ∀ reply, K op reply → (next reply).Ends K Q

namespace Ends

variable {K : (op : Op) → Reply op → Prop} {p : Program Op Reply ε α}
  {f : α → Program Op Reply ε β} {Q : Outcome ε α → Prop}

/-- Run where every reply is within the bounds, the program ends with the property. -/
theorem final (h : p.Ends K Q) (hK : ∀ op s, K op (exec op s).1) (s : σ) :
    Q (run exec p s).1 := by
  induction p generalizing s with
  | done result => exact h
  | perform op next ih => exact ih _ (h _ (hK op s)) _

/-- A sequence ends as its second part does after every answer of the first, and wherever the
first part fails. -/
theorem bind {R : Outcome ε β → Prop} (hp : p.Ends K Q) (hok : ∀ a, Q (.ok a) → (f a).Ends K R)
    (herror : ∀ e, Q (.error e) → R (.error e)) : (p >>= f).Ends K R := by
  induction p with
  | done result =>
    cases result with
    | ok a => exact hok a hp
    | error e => exact herror e hp
  | perform op next ih => exact fun reply hreply => ih reply (hp reply hreply)

/-- A sequence of parts that never panic never does. -/
theorem noPanic_bind (hp : p.Ends K Outcome.NoPanic) (hf : ∀ a, (f a).Ends K Outcome.NoPanic) :
    (p >>= f).Ends K Outcome.NoPanic := by
  apply hp.bind fun a _ => hf a
  intro e he site heq
  exact he site (congrArg Except.error (Except.error.inj heq))

/-- A sequence of parts that answer answers as its second part does. -/
theorem yields_bind {P : α → Prop} {R : β → Prop} (hp : p.Ends K (Outcome.Yields P))
    (hf : ∀ a, P a → (f a).Ends K (Outcome.Yields R)) : (p >>= f).Ends K (Outcome.Yields R) := by
  apply hp.bind
  · rintro a ⟨b, heq, hb⟩
    rw [Except.ok.inj heq]
    exact hf b hb
  · rintro e ⟨b, heq, -⟩
    cases heq

/-- Concluding answers how the program ended. -/
theorem conclude (h : p.Ends K Q) : (p.conclude id : Program Op Reply ε' (Outcome ε α)).Ends K
    (Outcome.Yields Q) := by
  induction p with
  | done result => exact ⟨result, rfl, h⟩
  | perform op next ih => exact fun reply hreply => ih reply (h reply hreply)

end Ends

/-! ## Which operations a program performs -/

/-- Every operation the program may perform is of a kind. -/
def Performs (P : Op → Prop) : Program Op Reply ε α → Prop
  | .done _ => True
  | .perform op next => P op ∧ ∀ reply, (next reply).Performs P

namespace Performs

variable {P : Op → Prop}

theorem lift (x : Outcome ε α) : Performs P (Program.lift x : Program Op Reply ε α) := trivial

theorem pure (a : α) : Performs P (Pure.pure a : Program Op Reply ε α) := trivial

theorem ask {op : Op} (h : P op) : Performs P (Program.ask op : Program Op Reply ε (Reply op)) :=
  ⟨h, fun _ => trivial⟩

/-- A sequence of programs that perform operations of the kind. -/
theorem bind {p : Program Op Reply ε α} {f : α → Program Op Reply ε β} (hp : p.Performs P)
    (hf : ∀ a, (f a).Performs P) : (p >>= f).Performs P := by
  induction p with
  | done result =>
    cases result with
    | ok a => exact hf a
    | error e => trivial
  | perform op next ih => exact ⟨hp.1, fun reply => ih reply (hp.2 reply)⟩

/-- A choice between programs that perform operations of the kind. -/
theorem ite {c : Prop} [Decidable c] {p q : Program Op Reply ε α} (hp : p.Performs P)
    (hq : q.Performs P) : (if c then p else q).Performs P := by
  split_ifs
  · exact hp
  · exact hq

/-- Operations that are all of a kind. -/
theorem of_forall (h : ∀ op, P op) (p : Program Op Reply ε α) : p.Performs P := by
  induction p with
  | done result => trivial
  | perform op next ih => exact ⟨h op, ih⟩

/-- A kind of operation may be widened. -/
theorem mono {Q : Op → Prop} {p : Program Op Reply ε α} (h : p.Performs P)
    (himp : ∀ op, P op → Q op) : p.Performs Q := by
  induction p with
  | done result => trivial
  | perform op next ih => exact ⟨himp op h.1, fun reply => ih reply (h.2 reply)⟩

theorem mapReject {p : Program Op Reply ε α} (h : p.Performs P) (g : ε → ε') :
    (p.mapReject g).Performs P := by
  induction p with
  | done result => trivial
  | perform op next ih => exact ⟨h.1, fun reply => ih reply (h.2 reply)⟩

theorem attempt {p : Program Op Reply ε α} (h : p.Performs P) :
    (p.attempt : Program Op Reply ε' (Option α)).Performs P := by
  induction p with
  | done result => rcases result with (_ | _) | _ <;> trivial
  | perform op next ih => exact ⟨h.1, fun reply => ih reply (h.2 reply)⟩

/-- Concluding performs no operation of its own. -/
theorem conclude {p : Program Op Reply ε α} (h : p.Performs P) (g : Outcome ε α → β) :
    (p.conclude g : Program Op Reply ε' β).Performs P := by
  induction p with
  | done result => trivial
  | perform op next ih => exact ⟨h.1, fun reply => ih reply (h.2 reply)⟩

/-- The operation at the end is of the kind too. -/
theorem andFinally {p : Program Op Reply ε α} {op : Op} (h : p.Performs P) (hop : P op) :
    (p.andFinally op).Performs P := by
  induction p with
  | done result => exact ⟨hop, fun _ => trivial⟩
  | perform op' next ih => exact ⟨h.1, fun reply => ih reply (h.2 reply)⟩

/-- What every operation of the kind keeps holds throughout the program. -/
theorem throughout {exec : (op : Op) → σ → Reply op × σ} {I : σ → Prop} {p : Program Op Reply ε α}
    (h : p.Performs P) (hkeep : ∀ op, P op → ∀ s, I s → I (exec op s).2) :
    ∀ s, I s → p.Throughout exec s I := by
  induction p with
  | done result => exact fun s hs => .done hs
  | perform op next ih =>
    exact fun s hs => .perform hs (ih _ (h.2 _) _ (hkeep op h.1 s hs))

/-- What every operation of the kind keeps, the program keeps. -/
theorem keeps {exec : (op : Op) → σ → Reply op × σ} {I : σ → Prop} {p : Program Op Reply ε α}
    (h : p.Performs P) (hkeep : ∀ op, P op → ∀ s, I s → I (exec op s).2) :
    ∀ s, I s → I (run exec p s).2 := by
  induction p with
  | done result => exact fun s hs => hs
  | perform op next ih => exact fun s hs => ih _ (h.2 _) _ (hkeep op h.1 s hs)

end Performs

/-! ## Two runs -/

variable (exec)

/-- Run from related states, two programs end alike and in related states. -/
def Agree (R : σ → σ → Prop) (V : α → β → Prop) (p : Program Op Reply ε α)
    (q : Program Op Reply ε β) : Prop :=
  ∀ s t, R s t → Outcome.Alike V (run exec p s).1 (run exec q t).1 ∧
    R (run exec p s).2 (run exec q t).2

variable {exec}

namespace Agree

variable {R : σ → σ → Prop} {α' β' : Type}

theorem lift {V : α → β → Prop} {x : Outcome ε α} {y : Outcome ε β} (h : Outcome.Alike V x y) :
    Agree exec R V (Program.lift x) (Program.lift y) := fun _ _ hR => ⟨h, hR⟩

theorem pure {V : α → β → Prop} {a : α} {b : β} (h : V a b) :
    Agree exec R V (Pure.pure a : Program Op Reply ε α) (Pure.pure b : Program Op Reply ε β) :=
  fun _ _ hR => ⟨h, hR⟩

/-- Sequences agree where their parts do, on whatever the first parts answer. -/
theorem bind {V : α → β → Prop} {W : α' → β' → Prop} {p : Program Op Reply ε α}
    {q : Program Op Reply ε β} {f : α → Program Op Reply ε α'} {g : β → Program Op Reply ε β'}
    (hpq : Agree exec R V p q) (hfg : ∀ a b, V a b → Agree exec R W (f a) (g b)) :
    Agree exec R W (p >>= f) (q >>= g) := by
  intro s t hR
  obtain ⟨halike, hstates⟩ := hpq s t hR
  rcases hp : run exec p s with ⟨x, s'⟩
  rcases hq : run exec q t with ⟨y, t'⟩
  rw [hp, hq] at halike hstates
  cases x with
  | ok a =>
    cases y with
    | ok b =>
      rw [run_bind_of_ok hp, run_bind_of_ok hq]
      exact hfg a b halike s' t' hstates
    | error e => exact halike.elim
  | error e =>
    cases y with
    | ok b => exact halike.elim
    | error e' =>
      rw [run_bind_of_error hp, run_bind_of_error hq]
      exact ⟨halike, hstates⟩

theorem mapReject {V : α → β → Prop} {p : Program Op Reply ε α} {q : Program Op Reply ε β}
    (h : Agree exec R V p q) (f : ε → ε') : Agree exec R V (p.mapReject f) (q.mapReject f) := by
  intro s t hR
  rw [run_mapReject, run_mapReject]
  exact ⟨(h s t hR).1.mapReject f, (h s t hR).2⟩

/-- The operation at the end keeps related states related. -/
theorem andFinally {V : α → β → Prop} {p : Program Op Reply ε α} {q : Program Op Reply ε β}
    (h : Agree exec R V p q) (op : Op)
    (hop : ∀ s t, R s t → R (exec op s).2 (exec op t).2) :
    Agree exec R V (p.andFinally op) (q.andFinally op) := by
  intro s t hR
  rw [run_andFinally, run_andFinally]
  exact ⟨(h s t hR).1, hop _ _ (h s t hR).2⟩

/-- A program agrees with itself when each of its operations does. -/
theorem of_performs {P : Op → Prop} {p : Program Op Reply ε α} (h : p.Performs P)
    (hop : ∀ op, P op → ∀ s t, R s t → (exec op s).1 = (exec op t).1 ∧
      R (exec op s).2 (exec op t).2) : Agree exec R Eq p p := by
  induction p with
  | done result => exact fun s t hR => ⟨Outcome.Alike.refl (fun _ => rfl) result, hR⟩
  | perform op next ih =>
    intro s t hR
    obtain ⟨hreply, hstates⟩ := hop op h.1 s t hR
    have hnext := ih _ (h.2 (exec op s).1) _ _ hstates
    rw [run, run, ← hreply]
    exact hnext

end Agree

end Program
