import Mabel.Core.Run
import Mabel.Ledger.Fold.State
import Mathlib.Logic.Function.Basic

/-!
# The roster of a ledger

Who holds a seat, under which key, and how seats are filled: by the founding, or by an
offer that is issued, then taken up or withdrawn. This is the membership rule of the
ledger in its own terms, over any identities, keys and events. It knows nothing of
bytes, signatures or chains.
-/

namespace Mabel

variable {Id Key Ev : Type}

/-- A filled seat. -/
structure Seat (Key : Type) where
  role : Role
  key : Key

/-- An offer of a seat and what became of it. -/
structure Offer (Id Key : Type) where
  invitee : Id
  key : Key
  role : Role
  status : InvitationStatus

/-- The seats and offers of one ledger. -/
@[ext] structure Roster (Id Key Ev : Type) where
  /-- Who was seated first, once anyone was. -/
  founder : Option Id
  /-- The seat that may be neither vacated nor changed, if the founding fixed one. -/
  permanent : Option (Id × Key)
  /-- The seats. -/
  seats : Id → Option (Seat Key)
  /-- The offers. -/
  offers : Ev → Option (Offer Id Key)

/-- What an event asks of a roster. -/
inductive Move (Id Key Ev : Type) where
  /-- Seat the founder as a controller. -/
  | found (id : Id) (key : Key) (permanent : Bool)
  /-- Issue an offer. -/
  | invite (event : Ev) (id : Id) (key : Key) (role : Role)
  /-- Take up an offer. -/
  | accept (event : Ev)
  /-- Withdraw the open offer and the seat of an identity. -/
  | remove (id : Id)
  /-- Nothing. -/
  | other

namespace Roster

/-- The roster before any event. -/
def empty : Roster Id Key Ev := ⟨none, none, fun _ => none, fun _ => none⟩

/-- An identity controls the ledger. -/
def Controls (r : Roster Id Key Ev) (id : Id) : Prop :=
  ∃ key, r.seats id = some ⟨.controller, key⟩

/-- An identity may stop controlling: its seat is not permanent and another controls too. -/
def Spares (r : Roster Id Key Ev) (id : Id) : Prop :=
  (∀ key, r.permanent ≠ some (id, key)) ∧ ∃ other, other ≠ id ∧ r.Controls other

section Moves

variable [DecidableEq Id]

/-- The roster of a founder alone. -/
def founded (id : Id) (key : Key) (permanent : Bool) : Roster Id Key Ev where
  founder := some id
  permanent := if permanent then some (id, key) else none
  seats := fun i => if i = id then some ⟨.controller, key⟩ else none
  offers := fun _ => none

/-- An offer after the withdrawal of an identity's open one. -/
def withdraw (id : Id) (o : Offer Id Key) : Offer Id Key :=
  if o.invitee = id ∧ o.status = .open then { o with status := .cancelled } else o

/-- The roster without an identity's seat and open offer. -/
def vacate (r : Roster Id Key Ev) (id : Id) : Roster Id Key Ev :=
  { r with
    seats := fun i => if i = id then none else r.seats i
    offers := fun e => (r.offers e).map (withdraw id) }

variable [DecidableEq Ev]

/-- The roster with one more offer. -/
def issue (r : Roster Id Key Ev) (event : Ev) (o : Offer Id Key) : Roster Id Key Ev :=
  { r with offers := fun e => if e = event then some o else r.offers e }

/-- The roster with an offer taken up. -/
def take (r : Roster Id Key Ev) (event : Ev) (o : Offer Id Key) : Roster Id Key Ev :=
  { r with
    seats := fun i => if i = o.invitee then some ⟨o.role, o.key⟩ else r.seats i
    offers := fun e => if e = event then some { o with status := .accepted } else r.offers e }

/-- The rules of membership. -/
inductive Moves : Roster Id Key Ev → Move Id Key Ev → Roster Id Key Ev → Prop
  /-- The founder is seated on an empty roster. -/
  | found (id : Id) (key : Key) (permanent : Bool) :
    Moves empty (.found id key permanent) (founded id key permanent)
  /-- An identity without an open offer is made one, under the key of its seat if it has
  a seat, and never if its seat is permanent. -/
  | invite {r : Roster Id Key Ev} (event : Ev) (id : Id) (key : Key) (role : Role)
    (noOpen : ∀ e o, r.offers e = some o → o.invitee = id → o.status ≠ .open)
    (sameKey : ∀ seat, r.seats id = some seat → seat.key = key)
    (notPermanent : ∀ key, r.permanent ≠ some (id, key)) :
    Moves r (.invite event id key role) (r.issue event ⟨id, key, role, .open⟩)
  /-- An open offer is taken up: no other seat has its key, and a controller it demotes
  can be spared. -/
  | accept {r : Roster Id Key Ev} (event : Ev) (o : Offer Id Key)
    (issued : r.offers event = some o) (isOpen : o.status = .open)
    (unheld : ∀ id seat, r.seats id = some seat → seat.key = o.key → id = o.invitee)
    (demotes : r.Controls o.invitee → o.role ≠ .controller → r.Spares o.invitee) :
    Moves r (.accept event) (r.take event o)
  /-- A seat and an open offer are withdrawn: the seat is not permanent, and a controller
  can be spared. -/
  | remove {r : Roster Id Key Ev} (id : Id) (notPermanent : ∀ key, r.permanent ≠ some (id, key))
    (spares : r.Controls id → r.Spares id) :
    Moves r (.remove id) (r.vacate id)
  /-- Every other event leaves the roster alone. -/
  | other {r : Roster Id Key Ev} : Moves r .other r

end Moves

/-! ## The standing invariant -/

/-- What holds of a roster along every run. -/
structure Sound (r : Roster Id Key Ev) : Prop where
  /-- Two seats never share a key. -/
  keys : ∀ i j a b, r.seats i = some a → r.seats j = some b → a.key = b.key → i = j
  /-- An identity has at most one open offer. -/
  single : ∀ e f o p, r.offers e = some o → r.offers f = some p → o.status = .open →
    p.status = .open → o.invitee = p.invitee → e = f
  /-- An open offer to someone seated carries the key of that seat. -/
  promotes : ∀ e o a, r.offers e = some o → o.status = .open → r.seats o.invitee = some a →
    a.key = o.key
  /-- Once founded, somebody controls. -/
  controlled : ∀ id, r.founder = some id → ∃ other, r.Controls other
  /-- The permanent seat is filled as it was founded. -/
  permanent : ∀ id key, r.permanent = some (id, key) → r.seats id = some ⟨.controller, key⟩
  /-- No offer names the holder of the permanent seat. -/
  untouched : ∀ id key e o, r.permanent = some (id, key) → r.offers e = some o → o.invitee ≠ id

theorem sound_empty : (empty : Roster Id Key Ev).Sound := by
  constructor <;> simp [empty]

variable [DecidableEq Id]

/-- An offer still open after a withdrawal was another's and stays as it was. -/
theorem withdraw_open {id : Id} {o : Offer Id Key} (h : (withdraw id o).status = .open) :
    withdraw id o = o ∧ o.invitee ≠ id := by
  rw [withdraw] at h ⊢
  split_ifs at h ⊢ with hc
  exact ⟨rfl, fun he => hc ⟨he, h⟩⟩

theorem withdraw_invitee (id : Id) (o : Offer Id Key) : (withdraw id o).invitee = o.invitee := by
  rw [withdraw]
  split_ifs <;> rfl

/-- A founded roster is sound. -/
theorem sound_founded (id : Id) (key : Key) (permanent : Bool) :
    (founded id key permanent : Roster Id Key Ev).Sound where
  keys := by
    intro i j a b hi hj _
    simp only [founded] at hi hj
    split_ifs at hi hj with h h'
    exact h.trans h'.symm
  single := by simp [founded]
  promotes := by simp [founded]
  controlled := fun _ _ => ⟨id, key, by simp [founded]⟩
  permanent := by
    intro i k h
    simp only [founded] at h ⊢
    split_ifs at h with hp
    simp only [Option.some.injEq, Prod.mk.injEq] at h
    rw [if_pos h.1.symm, h.2]
  untouched := by simp [founded]

/-- Withdrawing an offer or a seat leaves no second open offer and no second key. -/
theorem Sound.vacate {r : Roster Id Key Ev} (hr : r.Sound) {id : Id}
    (hperm : ∀ key, r.permanent ≠ some (id, key)) (hspares : r.Controls id → r.Spares id) :
    (r.vacate id).Sound := by
  have hseat : ∀ {i a}, (r.vacate id).seats i = some a → i ≠ id ∧ r.seats i = some a := by
    intro i a h
    simp only [Roster.vacate] at h
    split_ifs at h with hi
    exact ⟨hi, h⟩
  have hopen : ∀ {e o}, (r.vacate id).offers e = some o → o.status = .open →
      r.offers e = some o := by
    intro e o h hstatus
    obtain ⟨p, hp, rfl⟩ := Option.map_eq_some_iff.mp h
    rw [(withdraw_open hstatus).1, hp]
  have hkeep : ∀ {i}, i ≠ id → (r.vacate id).seats i = r.seats i := fun hi => if_neg hi
  refine ⟨?_, ?_, ?_, ?_, ?_, ?_⟩
  · intro i j a b hi hj
    exact hr.keys i j a b (hseat hi).2 (hseat hj).2
  · intro e f o p he hf ho hp
    exact hr.single e f o p (hopen he ho) (hopen hf hp) ho hp
  · intro e o a he ho ha
    exact hr.promotes e o a (hopen he ho) ho (hseat ha).2
  · intro f hf
    obtain ⟨other, key, hother⟩ := hr.controlled f hf
    by_cases hid : other = id
    · obtain ⟨-, c, hne, k, hc⟩ := hspares (hid ▸ ⟨key, hother⟩)
      exact ⟨c, k, by rw [hkeep hne, hc]⟩
    · exact ⟨other, key, by rw [hkeep hid, hother]⟩
  · intro i k h
    rw [hkeep (fun hid => hperm k (hid ▸ h))]
    exact hr.permanent i k h
  · intro i k e o h he
    obtain ⟨p, hp, rfl⟩ := Option.map_eq_some_iff.mp he
    rw [withdraw_invitee]
    exact hr.untouched i k e p h hp

variable [DecidableEq Ev]

omit [DecidableEq Id] in
/-- Issuing an offer keeps a roster sound. -/
theorem Sound.issue {r : Roster Id Key Ev} (hr : r.Sound) {event : Ev} {id : Id} {key : Key}
    {role : Role} (hopen : ∀ e o, r.offers e = some o → o.invitee = id → o.status ≠ .open)
    (hkey : ∀ seat, r.seats id = some seat → seat.key = key)
    (hperm : ∀ key, r.permanent ≠ some (id, key)) :
    (r.issue event ⟨id, key, role, .open⟩).Sound := by
  have hoffer : ∀ {e o}, (r.issue event ⟨id, key, role, .open⟩).offers e = some o →
      (e = event ∧ o = ⟨id, key, role, .open⟩) ∨ (e ≠ event ∧ r.offers e = some o) := by
    intro e o h
    simp only [Roster.issue] at h
    split_ifs at h with he
    · exact .inl ⟨he, (Option.some.inj h).symm⟩
    · exact .inr ⟨he, h⟩
  refine ⟨hr.keys, ?_, ?_, hr.controlled, hr.permanent, ?_⟩
  · intro e f o p he hf ho hp hinvitee
    rcases hoffer he with ⟨hee, rfl⟩ | ⟨_, hro⟩ <;>
      rcases hoffer hf with ⟨hfe, rfl⟩ | ⟨_, hrp⟩
    · exact hee.trans hfe.symm
    · exact absurd hp (hopen f p hrp hinvitee.symm)
    · exact absurd ho (hopen e o hro hinvitee)
    · exact hr.single e f o p hro hrp ho hp hinvitee
  · intro e o a he ho ha
    rcases hoffer he with ⟨rfl, rfl⟩ | ⟨_, he⟩
    · exact hkey a ha
    · exact hr.promotes e o a he ho ha
  · intro i k e o h he
    rcases hoffer he with ⟨rfl, rfl⟩ | ⟨_, he⟩
    · rintro rfl
      exact hperm k h
    · exact hr.untouched i k e o h he

/-- Taking an offer up keeps a roster sound. -/
theorem Sound.take {r : Roster Id Key Ev} (hr : r.Sound) {event : Ev} {o : Offer Id Key}
    (hissued : r.offers event = some o) (hopen : o.status = .open)
    (hunheld : ∀ id seat, r.seats id = some seat → seat.key = o.key → id = o.invitee)
    (hdemotes : r.Controls o.invitee → o.role ≠ .controller → r.Spares o.invitee) :
    (r.take event o).Sound := by
  have hseat : ∀ {i a}, (r.take event o).seats i = some a →
      (i = o.invitee ∧ a = ⟨o.role, o.key⟩) ∨ (i ≠ o.invitee ∧ r.seats i = some a) := by
    intro i a h
    simp only [Roster.take] at h
    split_ifs at h with hi
    · exact .inl ⟨hi, (Option.some.inj h).symm⟩
    · exact .inr ⟨hi, h⟩
  have hoffer : ∀ {e p}, (r.take event o).offers e = some p → p.status = .open →
      e ≠ event ∧ r.offers e = some p := by
    intro e p h hp
    simp only [Roster.take] at h
    split_ifs at h with he
    · rw [← Option.some.inj h] at hp
      exact absurd hp (by simp)
    · exact ⟨he, h⟩
  have hkeep : ∀ {i}, i ≠ o.invitee → (r.take event o).seats i = r.seats i := fun hi => if_neg hi
  refine ⟨?_, ?_, ?_, ?_, ?_, ?_⟩
  · intro i j a b hi hj hkey
    rcases hseat hi with ⟨rfl, rfl⟩ | ⟨_, hi⟩ <;> rcases hseat hj with ⟨rfl, rfl⟩ | ⟨_, hj⟩
    · rfl
    · exact (hunheld j b hj hkey.symm).symm
    · exact hunheld i a hi hkey
    · exact hr.keys i j a b hi hj hkey
  · intro e f p q he hf hp hq
    exact hr.single e f p q (hoffer he hp).2 (hoffer hf hq).2 hp hq
  · intro e p a he hp ha
    obtain ⟨hne, he⟩ := hoffer he hp
    rcases hseat ha with ⟨hinvitee, rfl⟩ | ⟨_, ha⟩
    · exact absurd (hr.single e event p o he hissued hp hopen hinvitee) hne
    · exact hr.promotes e p a he hp ha
  · intro f hf
    by_cases hrole : o.role = .controller
    · exact ⟨o.invitee, o.key, by simp [Roster.take, hrole]⟩
    · obtain ⟨other, key, hother⟩ := hr.controlled f hf
      by_cases hid : other = o.invitee
      · obtain ⟨-, c, hne, k, hc⟩ := hdemotes (hid ▸ ⟨key, hother⟩) hrole
        exact ⟨c, k, by rw [hkeep hne, hc]⟩
      · exact ⟨other, key, by rw [hkeep hid, hother]⟩
  · intro i k h
    rw [hkeep (hr.untouched i k event o h hissued).symm]
    exact hr.permanent i k h
  · intro i k e p h he
    simp only [Roster.take] at he
    split_ifs at he with hevent
    · rw [← Option.some.inj he]
      exact hr.untouched i k event o h hissued
    · exact hr.untouched i k e p h he

/-- Every move keeps the invariant. -/
theorem Moves.sound {r r' : Roster Id Key Ev} {m : Move Id Key Ev} (hr : r.Sound)
    (h : Moves r m r') : r'.Sound := by
  cases h with
  | found id key permanent => exact sound_founded id key permanent
  | invite event id key role hopen hkey hperm => exact hr.issue hopen hkey hperm
  | accept event o hissued hopen hunheld hdemotes => exact hr.take hissued hopen hunheld hdemotes
  | remove id hperm hspares => exact hr.vacate hperm hspares
  | other => exact hr

/-- The key of a seat outlives every move that leaves the seat filled. -/
theorem Moves.key_eq {r r' : Roster Id Key Ev} {m : Move Id Key Ev} (hr : r.Sound)
    (h : Moves r m r') {id : Id} {a b : Seat Key} (ha : r.seats id = some a)
    (hb : r'.seats id = some b) : a.key = b.key := by
  have hsame : r.seats id = some b → a.key = b.key := fun h => by
    rw [Option.some.inj (ha.symm.trans h)]
  cases h with
  | found => simp [empty] at ha
  | invite => exact hsame hb
  | accept event o hissued hopen hunheld hdemotes =>
    simp only [Roster.take] at hb
    split_ifs at hb with hid
    · rw [← Option.some.inj hb]
      exact hr.promotes event o a hissued hopen (hid ▸ ha)
    · exact hsame hb
  | remove target =>
    simp only [Roster.vacate] at hb
    split_ifs at hb
    exact hsame hb
  | other => exact hsame hb

/-- The runs of a roster. -/
abbrev Run (log : List (Move Id Key Ev)) (r : Roster Id Key Ev) : Prop :=
  Machine.RunFrom Moves empty log r

theorem Run.sound {log : List (Move Id Key Ev)} {r : Roster Id Key Ev} (h : Run log r) :
    r.Sound :=
  Machine.RunFrom.invariant h sound_empty fun _ _ _ hr hm => hm.sound hr

end Roster

end Mabel
