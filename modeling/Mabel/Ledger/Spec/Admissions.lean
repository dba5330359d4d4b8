import Mabel.Ledger.Spec.Roster

/-!
# What a roster remembers of its log

When every offer is issued under an id of its own, the offers are a record of the log:
none is forgotten or rewritten, an offer is accepted exactly when the log takes it up,
which it does once, and a seat is held under the offer taken up last.
-/

namespace Mabel

variable {Id Key Ev : Type}

/-- The id a move issues an offer under. -/
def Move.issues : Move Id Key Ev → Option Ev
  | .invite event _ _ _ => some event
  | _ => none

/-- What an offer may become: only its status changes, and only while it is open. -/
structure Offer.Becomes (o o' : Offer Id Key) : Prop where
  invitee : o'.invitee = o.invitee
  key : o'.key = o.key
  role : o'.role = o.role
  status : o'.status = o.status ∨ o.status = .open

theorem Offer.Becomes.refl (o : Offer Id Key) : o.Becomes o := ⟨rfl, rfl, rfl, .inl rfl⟩

/-- What an offer becomes may become more. -/
theorem Offer.Becomes.trans {o p q : Offer Id Key} (h : o.Becomes p) (h' : p.Becomes q) :
    o.Becomes q where
  invitee := h'.invitee.trans h.invitee
  key := h'.key.trans h.key
  role := h'.role.trans h.role
  status := by
    rcases h.status with hs | hs
    · rw [← hs]
      exact h'.status
    · exact .inr hs

namespace Roster

/-- No two offers of a log are issued under one id. -/
def Fresh (log : List (Move Id Key Ev)) : Prop := (log.filterMap Move.issues).Nodup

/-- The events of an earlier log are fresh when those of the whole are. -/
theorem Fresh.left {before after : List (Move Id Key Ev)} (h : Fresh (before ++ after)) :
    Fresh before := by
  rw [Fresh, List.filterMap_append] at h
  exact h.of_append_left

/-- A fresh move does not issue an event anew. -/
theorem Fresh.not_reissued {log : List (Move Id Key Ev)} {m : Move Id Key Ev} {event : Ev}
    (h : Fresh (log ++ [m])) (hevent : event ∈ log.filterMap Move.issues) :
    m.issues ≠ some event := by
  intro hm
  rw [Fresh, List.filterMap_append, List.nodup_append] at h
  exact h.2.2 event hevent event (by simp [hm]) rfl

/-- A log takes up an offer at a position. -/
def TakesUp (log : List (Move Id Key Ev)) (k : Nat) (event : Ev) : Prop :=
  log[k]? = some (.accept event)

/-- An acceptance in a longer log is an earlier one or the last move. -/
theorem takesUp_snoc {log : List (Move Id Key Ev)} {m : Move Id Key Ev} {k : Nat} {event : Ev} :
    TakesUp (log ++ [m]) k event ↔ TakesUp log k event ∨ (k = log.length ∧ m = .accept event) := by
  rw [TakesUp, TakesUp]
  rcases lt_trichotomy k log.length with hk | rfl | hk
  · rw [List.getElem?_append_left hk]
    simp [hk.ne]
  · simp
  · rw [List.getElem?_eq_none (by simpa using Nat.succ_le_of_lt hk), List.getElem?_eq_none hk.le]
    simp [hk.ne']

theorem TakesUp.mem {log : List (Move Id Key Ev)} {k : Nat} {event : Ev}
    (h : TakesUp log k event) : Move.accept event ∈ log := List.mem_of_getElem? h

theorem TakesUp.lt {log : List (Move Id Key Ev)} {k : Nat} {event : Ev}
    (h : TakesUp log k event) : k < log.length := (List.getElem?_eq_some_iff.mp h).1

/-- A seat is held under the offer its holder took up last. -/
def HeldUnder (log : List (Move Id Key Ev)) (r : Roster Id Key Ev) (id : Id) (seat : Seat Key) :
    Prop :=
  ∃ k e o, TakesUp log k e ∧ r.offers e = some o ∧ o.invitee = id ∧ seat = ⟨o.role, o.key⟩ ∧
    ∀ j e' o', k < j → TakesUp log j e' → r.offers e' = some o' → o'.invitee ≠ id

/-- What a roster knows of the log that led to it. -/
structure Traced (log : List (Move Id Key Ev)) (r : Roster Id Key Ev) : Prop where
  /-- Every offer was issued. -/
  issued : ∀ e o, r.offers e = some o → e ∈ log.filterMap Move.issues
  /-- The accepted offers are those the log took up. -/
  accepted : ∀ e, Move.accept e ∈ log ↔ ∃ o, r.offers e = some o ∧ o.status = .accepted
  /-- No offer was taken up twice. -/
  once : ∀ e j k, TakesUp log j e → TakesUp log k e → j = k
  /-- A seat that was not founded is held under the offer taken up last. -/
  latest : ∀ id seat, r.seats id = some seat → r.founder ≠ some id → HeldUnder log r id seat

theorem traced_empty : Traced [] (empty : Roster Id Key Ev) := by
  constructor <;> simp [empty, TakesUp]

namespace Traced

variable {log : List (Move Id Key Ev)} {r r' : Roster Id Key Ev} {m : Move Id Key Ev}

/-- A seat a move leaves alone is held as before, unless the move seats its holder anew. -/
theorem heldUnder_snoc (h : Traced log r)
    (hkeeps : ∀ e o, r.offers e = some o → ∃ o', r'.offers e = some o' ∧ o.Becomes o')
    {id : Id} {seat : Seat Key} (hheld : HeldUnder log r id seat)
    (hm : ∀ e o, m = .accept e → r'.offers e = some o → o.invitee ≠ id) :
    HeldUnder (log ++ [m]) r' id seat := by
  obtain ⟨k, e, o, hk, ho, hinvitee, hs, hlater⟩ := hheld
  obtain ⟨o', ho', hbecomes⟩ := hkeeps e o ho
  refine ⟨k, e, o', takesUp_snoc.mpr (.inl hk), ho', hbecomes.invitee.trans hinvitee, ?_, ?_⟩
  · rw [hs, hbecomes.role, hbecomes.key]
  · intro j e₁ o₁ hj hjm ho₁
    rcases takesUp_snoc.mp hjm with hjl | ⟨-, haccept⟩
    · obtain ⟨p, hp, -⟩ := (h.accepted e₁).mp hjl.mem
      obtain ⟨p', hp', hp''⟩ := hkeeps e₁ p hp
      obtain rfl := Option.some.inj (hp'.symm.trans ho₁)
      rw [hp''.invitee]
      exact hlater j e₁ p hj hjl hp
    · exact hm e₁ o₁ haccept ho₁

/-- One move more takes no offer up a second time. -/
theorem once_snoc (h : Traced log r) (hm : ∀ e, m = .accept e → Move.accept e ∉ log) (e : Ev)
    (j k : Nat) (hj : TakesUp (log ++ [m]) j e) (hk : TakesUp (log ++ [m]) k e) : j = k := by
  rcases takesUp_snoc.mp hj with hjl | ⟨hjl, hjm⟩ <;>
    rcases takesUp_snoc.mp hk with hkl | ⟨hkl, hkm⟩
  · exact h.once e j k hjl hkl
  · exact absurd hjl.mem (hm e hkm)
  · exact absurd hkl.mem (hm e hjm)
  · exact hjl.trans hkl.symm

/-- A move that takes up no offer and rewrites none keeps the trace. -/
theorem keep (h : Traced log r) (hm : ∀ e, m ≠ .accept e)
    (hissued : ∀ e o, r'.offers e = some o → e ∈ (log ++ [m]).filterMap Move.issues)
    (hkeeps : ∀ e o, r.offers e = some o → ∃ o', r'.offers e = some o' ∧ o.Becomes o')
    (haccepted : ∀ e o, r'.offers e = some o → o.status = .accepted → r.offers e = some o)
    (hseats : ∀ id seat, r'.seats id = some seat → r'.founder ≠ some id →
      r.seats id = some seat ∧ r.founder ≠ some id) :
    Traced (log ++ [m]) r' where
  issued := hissued
  accepted := by
    intro e
    have hmem : Move.accept e ∈ log ++ [m] ↔ Move.accept e ∈ log := by
      simp [(hm e).symm]
    rw [hmem, h.accepted e]
    constructor
    · rintro ⟨o, ho, hs⟩
      obtain ⟨o', ho', hb⟩ := hkeeps e o ho
      refine ⟨o', ho', ?_⟩
      rcases hb.status with hs' | hs'
      · exact hs'.trans hs
      · simp [hs] at hs'
    · rintro ⟨o, ho, hs⟩
      exact ⟨o, haccepted e o ho hs, hs⟩
  once := h.once_snoc fun e he => absurd he (hm e)
  latest := by
    intro id seat hseat hfounder
    obtain ⟨hold, hfounder⟩ := hseats id seat hseat hfounder
    exact h.heldUnder_snoc hkeeps (h.latest id seat hold hfounder) fun e _ he => absurd he (hm e)

end Traced

variable [DecidableEq Id] [DecidableEq Ev]

omit [DecidableEq Ev] in
/-- A withdrawn offer became what an offer may become. -/
theorem withdraw_becomes (id : Id) (o : Offer Id Key) : o.Becomes (withdraw id o) := by
  rw [withdraw]
  split_ifs with h
  · exact ⟨rfl, rfl, rfl, .inr h.2⟩
  · exact .refl o

omit [DecidableEq Ev] in
/-- Withdrawing neither accepts an offer nor undoes an acceptance. -/
theorem withdraw_accepted {id : Id} {o : Offer Id Key} :
    (withdraw id o).status = .accepted ↔ o.status = .accepted := by
  rw [withdraw]
  split_ifs with h
  · simp [h.2]
  · rfl

/-- A move that does not reuse the id of an offer leaves a record of it. -/
theorem Moves.keeps {r r' : Roster Id Key Ev} {m : Move Id Key Ev} (h : Moves r m r')
    {event : Ev} {o : Offer Id Key} (ho : r.offers event = some o)
    (hid : m.issues ≠ some event) : ∃ o', r'.offers event = some o' ∧ o.Becomes o' := by
  cases h with
  | found => simp [empty] at ho
  | invite e =>
    have hne : event ≠ e := fun he => hid (congrArg some he.symm)
    exact ⟨o, (if_neg hne).trans ho, .refl o⟩
  | accept e p hissued hopen =>
    by_cases he : event = e
    · subst he
      obtain rfl := Option.some.inj (hissued.symm.trans ho)
      exact ⟨_, if_pos rfl, rfl, rfl, rfl, .inr hopen⟩
    · exact ⟨o, (if_neg he).trans ho, .refl o⟩
  | remove id =>
    exact ⟨withdraw id o, by simp [Roster.vacate, ho], withdraw_becomes id o⟩
  | other => exact ⟨o, ho, .refl o⟩

namespace Traced

variable {log : List (Move Id Key Ev)} {r r' : Roster Id Key Ev} {m : Move Id Key Ev}

/-- Taking up an offer keeps the trace: the offer was open, so the log had not taken it up. -/
theorem take (h : Traced log r) {event : Ev} {o : Offer Id Key}
    (ho : r.offers event = some o) (hopen : o.status = .open) :
    Traced (log ++ [.accept event]) (r.take event o) := by
  have hnew : Move.accept event ∉ log := by
    intro hmem
    obtain ⟨p, hp, hstatus⟩ := (h.accepted event).mp hmem
    rw [Option.some.inj (hp.symm.trans ho), hopen] at hstatus
    exact absurd hstatus (by decide)
  have hself : (r.take event o).offers event = some { o with status := .accepted } := if_pos rfl
  have hrest : ∀ {e}, e ≠ event → (r.take event o).offers e = r.offers e := fun he => if_neg he
  have hkeeps : ∀ e p, r.offers e = some p →
      ∃ p', (r.take event o).offers e = some p' ∧ p.Becomes p' := by
    intro e p hp
    by_cases he : e = event
    · subst he
      obtain rfl := Option.some.inj (ho.symm.trans hp)
      exact ⟨_, hself, rfl, rfl, rfl, .inr hopen⟩
    · exact ⟨p, (hrest he).trans hp, .refl p⟩
  refine ⟨?_, ?_, h.once_snoc fun e he => ?_, ?_⟩
  · intro e p hp
    rw [List.filterMap_append]
    refine List.mem_append_left _ ?_
    by_cases he : e = event
    · exact he ▸ h.issued event o ho
    · exact h.issued e p ((hrest he).symm.trans hp)
  · intro e
    by_cases he : e = event
    · subst he
      simp [hself]
    · simp [hrest he, h.accepted e, he]
  · rw [← Move.accept.inj he]
    exact hnew
  · intro id seat hseat hfounder
    by_cases hid : id = o.invitee
    · refine ⟨log.length, event, _, takesUp_snoc.mpr (.inr ⟨rfl, rfl⟩), hself, hid.symm, ?_, ?_⟩
      · rw [← Option.some.inj (hseat.symm.trans (if_pos hid))]
      · intro j e p hj hjm
        have := hjm.lt
        simp only [List.length_append, List.length_singleton] at this
        omega
    · have hold : r.seats id = some seat := (if_neg hid).symm.trans hseat
      refine h.heldUnder_snoc hkeeps (h.latest id seat hold hfounder) ?_
      intro e p he hp
      obtain rfl := Move.accept.inj he
      rw [← Option.some.inj (hself.symm.trans hp)]
      exact fun h => hid h.symm

/-- Every move keeps the trace, if offers are issued under ids of their own. -/
theorem step (h : Traced log r) (hm : Moves r m r') (hfresh : Fresh (log ++ [m])) :
    Traced (log ++ [m]) r' := by
  have hissued : ∀ e o, r.offers e = some o → e ∈ (log ++ [m]).filterMap Move.issues := by
    intro e o ho
    rw [List.filterMap_append]
    exact List.mem_append_left _ (h.issued e o ho)
  have hkeeps : ∀ e o, r.offers e = some o → ∃ o', r'.offers e = some o' ∧ o.Becomes o' :=
    fun e o ho => hm.keeps ho (hfresh.not_reissued (h.issued e o ho))
  cases hm with
  | found id key permanent =>
    refine h.keep (by simp) (by simp [founded]) hkeeps (by simp [founded]) ?_
    intro i seat hseat hfounder
    simp only [founded] at hseat hfounder
    split_ifs at hseat with hi
    exact absurd (congrArg some hi.symm) hfounder
  | invite event id key role =>
    have hold : ∀ {e o}, (r.issue event ⟨id, key, role, .open⟩).offers e = some o →
        (e = event ∧ o.status = .open) ∨ r.offers e = some o := by
      intro e o ho
      simp only [Roster.issue] at ho
      split_ifs at ho with he
      · exact .inl ⟨he, by rw [← Option.some.inj ho]⟩
      · exact .inr ho
    refine h.keep (by simp) ?_ hkeeps ?_ fun i seat hseat hfounder => ⟨hseat, hfounder⟩
    · intro e o ho
      rcases hold ho with ⟨rfl, -⟩ | ho
      · simp [Move.issues]
      · exact hissued e o ho
    · intro e o ho hs
      rcases hold ho with ⟨-, hopen⟩ | ho
      · simp [hs] at hopen
      · exact ho
  | accept event o ho hopen => exact h.take ho hopen
  | remove id =>
    have hold : ∀ {e o}, (r.vacate id).offers e = some o →
        ∃ p, r.offers e = some p ∧ o = withdraw id p := by
      intro e o ho
      obtain ⟨p, hp, rfl⟩ := Option.map_eq_some_iff.mp ho
      exact ⟨p, hp, rfl⟩
    refine h.keep (by simp) ?_ hkeeps ?_ ?_
    · intro e o ho
      obtain ⟨p, hp, -⟩ := hold ho
      exact hissued e p hp
    · intro e o ho hs
      obtain ⟨p, hp, rfl⟩ := hold ho
      have hne : p.status ≠ .open := by
        rw [withdraw_accepted.mp hs]
        decide
      rw [hp, withdraw, if_neg fun hw => hne hw.2]
    · intro i seat hseat hfounder
      simp only [Roster.vacate] at hseat
      split_ifs at hseat
      exact ⟨hseat, hfounder⟩
  | other => exact h.keep (by simp) hissued hkeeps (fun _ _ ho _ => ho) fun _ _ hs hf => ⟨hs, hf⟩

end Traced

/-- The roster a fresh log leads to knows the log. -/
theorem Run.traced {log : List (Move Id Key Ev)} {r : Roster Id Key Ev} (h : Run log r)
    (hfresh : Fresh log) : Traced log r := by
  induction h with
  | nil => exact traced_empty
  | snoc _ hm ih => exact (ih hfresh.left).step hm hfresh

/-- An offer stays on record for the rest of a fresh log. -/
theorem Run.keeps {before after : List (Move Id Key Ev)} {r r' : Roster Id Key Ev}
    (h : Run before r) (h' : Machine.RunFrom Moves r after r') (hfresh : Fresh (before ++ after))
    {event : Ev} {o : Offer Id Key} (ho : r.offers event = some o) :
    ∃ o', r'.offers event = some o' ∧ o.Becomes o' := by
  have hissued := (h.traced hfresh.left).issued event o ho
  induction h' with
  | nil => exact ⟨o, ho, .refl o⟩
  | @snoc log _ _ m hrun hm ih =>
    rw [← List.append_assoc] at hfresh
    obtain ⟨p, hp, hbecomes⟩ := ih hfresh.left
    have hmem : event ∈ (before ++ log).filterMap Move.issues := by
      rw [List.filterMap_append]
      exact List.mem_append_left _ hissued
    obtain ⟨q, hq, hbecomes'⟩ := hm.keeps hp (hfresh.not_reissued hmem)
    exact ⟨q, hq, hbecomes.trans hbecomes'⟩

end Roster

end Mabel
