import Mabel.Core.Run
import Mathlib.Data.List.Nodup
import Mathlib.Logic.Function.Basic

/-!
# Who a ledger trusts

An identity vouches for others and takes it back. A vouch is made under an id and revoked
by naming that id, at most one vouch for a subject stands at any time, and nobody vouches
for itself. The balance of a log is then the answer: a subject is trusted exactly when it
was vouched for once more than it was taken back.
-/

namespace Mabel

variable {Id By Ev : Type}

/-- A vouch for a subject and what revoked it. -/
structure Vouch (Id By Ev : Type) where
  subject : Id
  signer : By
  revokedBy : Option Ev

/-- The vouches of one ledger. -/
structure TrustBook (Id By Ev : Type) where
  /-- Whose book it is, once that is known. -/
  self : Option Id
  /-- The vouches, by the id they were made under. -/
  vouches : Ev → Option (Vouch Id By Ev)

/-- What an event asks of a book. -/
inductive TrustMove (Id Ev : Type) where
  /-- Say whose book it is. -/
  | found (self : Id)
  /-- Vouch for a subject. -/
  | attest (event : Ev) (subject : Id)
  /-- Take a vouch back. -/
  | revoke (event target : Ev)
  /-- Nothing. -/
  | other

/-- What a vouch may become: it can be revoked once. -/
structure Vouch.Becomes (v w : Vouch Id By Ev) : Prop where
  subject : w.subject = v.subject
  signer : w.signer = v.signer
  revokedBy : w.revokedBy = v.revokedBy ∨ v.revokedBy = none

theorem Vouch.Becomes.refl (v : Vouch Id By Ev) : v.Becomes v := ⟨rfl, rfl, .inl rfl⟩

/-- What a vouch becomes may become more. -/
theorem Vouch.Becomes.trans {u v w : Vouch Id By Ev} (h : u.Becomes v) (h' : v.Becomes w) :
    u.Becomes w where
  subject := h'.subject.trans h.subject
  signer := h'.signer.trans h.signer
  revokedBy := by
    rcases h.revokedBy with hs | hs
    · rw [← hs]
      exact h'.revokedBy
    · exact .inr hs

/-- The id a move vouches under. -/
def TrustMove.issues : TrustMove Id Ev → Option Ev
  | .attest event _ => some event
  | _ => none

namespace TrustBook

/-- The book before any event. -/
def empty : TrustBook Id By Ev := ⟨none, fun _ => none⟩

/-- A vouch for a subject stands. -/
def Stands (b : TrustBook Id By Ev) (subject : Id) : Prop :=
  ∃ e v, b.vouches e = some v ∧ v.subject = subject ∧ v.revokedBy = none

/-! ## One standing vouch for a subject -/

/-- What holds of a book along every run. -/
structure Sound (b : TrustBook Id By Ev) : Prop where
  /-- At most one vouch for a subject stands. -/
  single : ∀ e f v w, b.vouches e = some v → b.vouches f = some w → v.revokedBy = none →
    w.revokedBy = none → v.subject = w.subject → e = f
  /-- Nobody vouches for itself. -/
  noSelf : ∀ e v, b.vouches e = some v → b.self ≠ some v.subject

theorem sound_empty : (empty : TrustBook Id By Ev).Sound := by
  constructor <;> simp [empty]

/-! ## What a book remembers of its log -/

/-- No two vouches of a log are made under one id. -/
def Fresh (log : List (TrustMove Id Ev)) : Prop := (log.filterMap TrustMove.issues).Nodup

/-- The events of an earlier log are fresh when those of the whole are. -/
theorem Fresh.left {before after : List (TrustMove Id Ev)} (h : Fresh (before ++ after)) :
    Fresh before := by
  rw [Fresh, List.filterMap_append] at h
  exact h.of_append_left

/-- A fresh move does not issue an event anew. -/
theorem Fresh.not_reissued {log : List (TrustMove Id Ev)} {m : TrustMove Id Ev} {e : Ev}
    {subject : Id} (h : Fresh (log ++ [m])) (hmem : TrustMove.attest e subject ∈ log) : m.issues ≠ some e := by
  intro hm
  rw [Fresh, List.filterMap_append, List.nodup_append] at h
  exact h.2.2 e (List.mem_filterMap.mpr ⟨_, hmem, rfl⟩) e (by simp [hm]) rfl

/-- A move vouches for a subject. -/
def vouchesFor [DecidableEq Id] (subject : Id) : TrustMove Id Ev → Bool
  | .attest _ s => decide (s = subject)
  | _ => false

/-- A move takes back a vouch for a subject. -/
def takesBack [DecidableEq Id] (b : TrustBook Id By Ev) (subject : Id) :
    TrustMove Id Ev → Bool
  | .revoke _ target => (b.vouches target).any fun v => decide (v.subject = subject)
  | _ => false

/-- What a book knows of the log that led to it. -/
structure Traced [DecidableEq Id] (log : List (TrustMove Id Ev)) (b : TrustBook Id By Ev) :
    Prop where
  /-- Every vouch was made by the log. -/
  made : ∀ e v, b.vouches e = some v → TrustMove.attest e v.subject ∈ log
  /-- Every vouch of the log is on record. -/
  recorded : ∀ e subject, TrustMove.attest e subject ∈ log →
    ∃ v, b.vouches e = some v ∧ v.subject = subject
  /-- What revoked a vouch is a later move of the log. -/
  revoked : ∀ e v r, b.vouches e = some v → v.revokedBy = some r →
    ∃ j k : Nat, j < k ∧ log[j]? = some (.attest e v.subject) ∧
      log[k]? = some (.revoke r e)
  /-- Every revocation of the log revoked its target. -/
  targets : ∀ r e, TrustMove.revoke r e ∈ log →
    ∃ v, b.vouches e = some v ∧ v.revokedBy = some r
  /-- A subject stands by the balance of its vouches and revocations. -/
  balance : ∀ subject, (b.Stands subject →
      log.countP (vouchesFor subject) = log.countP (b.takesBack subject) + 1) ∧
    (¬ b.Stands subject → log.countP (vouchesFor subject) = log.countP (b.takesBack subject))

theorem traced_empty [DecidableEq Id] : Traced [] (empty : TrustBook Id By Ev) := by
  constructor <;> simp [empty, Stands]

/-- A fresh move issues no event the book already holds. -/
theorem Traced.not_issued [DecidableEq Id] {log : List (TrustMove Id Ev)}
    {b : TrustBook Id By Ev} {m : TrustMove Id Ev} (h : Traced log b)
    (hfresh : Fresh (log ++ [m])) {e : Ev} {v : Vouch Id By Ev}
    (hv : b.vouches e = some v) : m.issues ≠ some e :=
  hfresh.not_reissued (h.made e v hv)

theorem getElem?_lift {log : List (TrustMove Id Ev)} {m x : TrustMove Id Ev} {k : Nat}
    (h : log[k]? = some x) : (log ++ [m])[k]? = some x := by
  rw [List.getElem?_append_left (List.getElem?_eq_some_iff.mp h).1, h]

/-! ## The rules -/

variable [DecidableEq Ev]

/-- The book with one more vouch. -/
def vouch (b : TrustBook Id By Ev) (event : Ev) (v : Vouch Id By Ev) : TrustBook Id By Ev :=
  { b with vouches := fun e => if e = event then some v else b.vouches e }

/-- The rules of trust. -/
inductive Moves : TrustBook Id By Ev → TrustMove Id Ev → TrustBook Id By Ev → Prop
  /-- The owner is named while the book is empty. -/
  | found (self : Id) : Moves empty (.found self) { empty with self := some self }
  /-- A subject other than the owner, no vouch for which stands, is vouched for. -/
  | attest {b : TrustBook Id By Ev} (event : Ev) (subject : Id) (signer : By)
    (other : b.self ≠ some subject) (unvouched : ¬ b.Stands subject) :
    Moves b (.attest event subject) (b.vouch event ⟨subject, signer, none⟩)
  /-- A standing vouch is revoked. -/
  | revoke {b : TrustBook Id By Ev} (event target : Ev) (v : Vouch Id By Ev)
    (made : b.vouches target = some v) (stands : v.revokedBy = none) :
    Moves b (.revoke event target) (b.vouch target { v with revokedBy := some event })
  /-- Every other event leaves the book alone. -/
  | other {b : TrustBook Id By Ev} : Moves b .other b

theorem vouch_self {b : TrustBook Id By Ev} {event : Ev} {v : Vouch Id By Ev} :
    (b.vouch event v).vouches event = some v := if_pos rfl

theorem vouch_of_ne {b : TrustBook Id By Ev} {event e : Ev} {v : Vouch Id By Ev}
    (h : e ≠ event) : (b.vouch event v).vouches e = b.vouches e := if_neg h

/-- A vouch of the changed book is the new one or an old one. -/
theorem vouch_cases {b : TrustBook Id By Ev} {event e : Ev} {v w : Vouch Id By Ev}
    (h : (b.vouch event v).vouches e = some w) :
    (e = event ∧ w = v) ∨ (e ≠ event ∧ b.vouches e = some w) := by
  by_cases he : e = event
  · subst he
    exact .inl ⟨rfl, (Option.some.inj (vouch_self.symm.trans h)).symm⟩
  · exact .inr ⟨he, (vouch_of_ne he).symm.trans h⟩

/-- Every move keeps the invariant. -/
theorem Moves.sound {b b' : TrustBook Id By Ev} {m : TrustMove Id Ev} (hb : b.Sound)
    (h : Moves b m b') : b'.Sound := by
  cases h with
  | found self => constructor <;> simp [empty]
  | attest event subject signer hother hun =>
    refine ⟨?_, ?_⟩
    · intro e f v w he hf hv hw hsubject
      rcases vouch_cases he with ⟨hee, rfl⟩ | ⟨_, hbe⟩ <;>
        rcases vouch_cases hf with ⟨hfe, rfl⟩ | ⟨_, hbf⟩
      · exact hee.trans hfe.symm
      · exact absurd ⟨f, w, hbf, hsubject.symm, hw⟩ hun
      · exact absurd ⟨e, v, hbe, hsubject, hv⟩ hun
      · exact hb.single e f v w hbe hbf hv hw hsubject
    · intro e v he
      rcases vouch_cases he with ⟨rfl, rfl⟩ | ⟨_, he⟩
      · exact hother
      · exact hb.noSelf e v he
  | revoke event target u made stands =>
    have hold : ∀ {e v}, (b.vouch target { u with revokedBy := some event }).vouches e = some v →
        v.revokedBy = none → b.vouches e = some v := by
      intro e v he hv
      rcases vouch_cases he with ⟨rfl, rfl⟩ | ⟨_, he⟩
      · simp at hv
      · exact he
    refine ⟨?_, ?_⟩
    · intro e f v w he hf hv hw
      exact hb.single e f v w (hold he hv) (hold hf hw) hv hw
    · intro e v he
      rcases vouch_cases he with ⟨rfl, rfl⟩ | ⟨_, he⟩
      · exact hb.noSelf e u made
      · exact hb.noSelf e v he
  | other => exact hb

/-- The runs of a book. -/
abbrev Run (log : List (TrustMove Id Ev)) (b : TrustBook Id By Ev) : Prop :=
  Machine.RunFrom Moves empty log b

theorem Run.sound {log : List (TrustMove Id Ev)} {b : TrustBook Id By Ev} (h : Run log b) :
    b.Sound :=
  Machine.RunFrom.invariant h sound_empty fun _ _ _ hb hm => hm.sound hb

/-- A move that does not reuse the id of a vouch leaves a record of it. -/
theorem Moves.keeps {b b' : TrustBook Id By Ev} {m : TrustMove Id Ev} (h : Moves b m b')
    {e : Ev} {v : Vouch Id By Ev} (hv : b.vouches e = some v) (hid : m.issues ≠ some e) :
    ∃ w, b'.vouches e = some w ∧ v.Becomes w := by
  cases h with
  | found => simp [empty] at hv
  | attest event =>
    have hne : e ≠ event := fun he => hid (congrArg some he.symm)
    exact ⟨v, (vouch_of_ne hne).trans hv, .refl v⟩
  | revoke event target u made stands =>
    by_cases he : e = target
    · subst he
      obtain rfl := Option.some.inj (made.symm.trans hv)
      exact ⟨_, vouch_self, rfl, rfl, .inr stands⟩
    · exact ⟨v, (vouch_of_ne he).trans hv, .refl v⟩
  | other => exact ⟨v, hv, .refl v⟩

namespace Traced

variable [DecidableEq Id] {log : List (TrustMove Id Ev)} {b b' : TrustBook Id By Ev}
  {m : TrustMove Id Ev}

/-- The moves of the log take back what they took back before. -/
theorem countP_takesBack (h : Traced log b) (hm : Moves b m b') (hfresh : Fresh (log ++ [m]))
    (subject : Id) : log.countP (b'.takesBack subject) = log.countP (b.takesBack subject) := by
  refine List.countP_congr fun m' hm' => ?_
  cases m' with
  | revoke r e =>
    obtain ⟨v, hv, -⟩ := h.targets r e hm'
    obtain ⟨w, hw, hbecomes⟩ := hm.keeps hv (h.not_issued hfresh hv)
    simp [takesBack, hv, hw, hbecomes.subject]
  | _ => simp [takesBack]

/-- Vouching for a subject for which no vouch stands tips its balance. -/
theorem attest (h : Traced log b) {event : Ev} {subject : Id} {signer : By}
    (hm : Moves b (.attest event subject) (b.vouch event ⟨subject, signer, none⟩))
    (hun : ¬ b.Stands subject) (hfresh : Fresh (log ++ [.attest event subject])) :
    Traced (log ++ [.attest event subject]) (b.vouch event ⟨subject, signer, none⟩) := by
  have hnew : ∀ {e v}, b.vouches e = some v → e ≠ event := fun hv he =>
    h.not_issued hfresh hv (congrArg some he.symm)
  have hold : ∀ {e v}, b.vouches e = some v →
      (b.vouch event ⟨subject, signer, none⟩).vouches e = some v := fun hv =>
    (vouch_of_ne (hnew hv)).trans hv
  refine ⟨?_, ?_, ?_, ?_, ?_⟩
  · intro e v hv
    rcases vouch_cases hv with ⟨rfl, rfl⟩ | ⟨_, hv⟩
    · simp
    · exact List.mem_append_left _ (h.made e v hv)
  · intro e s hmem
    rcases List.mem_append.mp hmem with hmem | hmem
    · obtain ⟨v, hv, hs⟩ := h.recorded e s hmem
      exact ⟨v, hold hv, hs⟩
    · obtain ⟨rfl, rfl⟩ := TrustMove.attest.injEq .. ▸ List.mem_singleton.mp hmem
      exact ⟨_, vouch_self, rfl⟩
  · intro e v r hv hr
    rcases vouch_cases hv with ⟨rfl, rfl⟩ | ⟨_, hv⟩
    · simp at hr
    · obtain ⟨j, k, hjk, hj, hk⟩ := h.revoked e v r hv hr
      exact ⟨j, k, hjk, getElem?_lift hj, getElem?_lift hk⟩
  · intro r e hmem
    obtain ⟨v, hv, hr⟩ := h.targets r e (by simpa using hmem)
    exact ⟨v, hold hv, hr⟩
  · intro s
    have hstands : (b.vouch event ⟨subject, signer, none⟩).Stands s ↔ s = subject ∨ b.Stands s := by
      constructor
      · rintro ⟨e, v, hv, rfl, hlive⟩
        rcases vouch_cases hv with ⟨rfl, rfl⟩ | ⟨_, hv⟩
        · exact .inl rfl
        · exact .inr ⟨e, v, hv, rfl, hlive⟩
      · rintro (rfl | ⟨e, v, hv, rfl, hlive⟩)
        · exact ⟨event, _, vouch_self, rfl, rfl⟩
        · exact ⟨e, v, hold hv, rfl, hlive⟩
    rw [hstands, List.countP_append, List.countP_append, h.countP_takesBack hm hfresh]
    by_cases hs : s = subject
    · subst hs
      simp [vouchesFor, takesBack, (h.balance s).2 hun]
    · have hne : ¬ subject = s := fun he => hs he.symm
      simpa [vouchesFor, takesBack, hs, hne] using h.balance s

/-- Taking a standing vouch back evens its subject's balance. -/
theorem revoke (h : Traced log b) (hb : b.Sound) {event target : Ev} {v : Vouch Id By Ev}
    (hm : Moves b (.revoke event target) (b.vouch target { v with revokedBy := some event }))
    (made : b.vouches target = some v) (stands : v.revokedBy = none)
    (hfresh : Fresh (log ++ [.revoke event target])) :
    Traced (log ++ [.revoke event target])
      (b.vouch target { v with revokedBy := some event }) := by
  refine ⟨?_, ?_, ?_, ?_, ?_⟩
  · intro e w hw
    rcases vouch_cases hw with ⟨rfl, rfl⟩ | ⟨_, hw⟩
    · exact List.mem_append_left _ (h.made e v made)
    · exact List.mem_append_left _ (h.made e w hw)
  · intro e s hmem
    obtain ⟨w, hw, hs⟩ := h.recorded e s (by simpa using hmem)
    obtain ⟨w', hw', hbecomes⟩ := hm.keeps hw (by simp [TrustMove.issues])
    exact ⟨w', hw', hbecomes.subject.trans hs⟩
  · intro e w r hw hr
    rcases vouch_cases hw with ⟨rfl, rfl⟩ | ⟨_, hw⟩
    · obtain ⟨j, hj⟩ := List.mem_iff_getElem?.mp (h.made e v made)
      obtain rfl := Option.some.inj hr
      exact ⟨j, log.length, (List.getElem?_eq_some_iff.mp hj).1, getElem?_lift hj, by simp⟩
    · obtain ⟨j, k, hjk, hj, hk⟩ := h.revoked e w r hw hr
      exact ⟨j, k, hjk, getElem?_lift hj, getElem?_lift hk⟩
  · intro r e hmem
    rcases List.mem_append.mp hmem with hmem | hmem
    · obtain ⟨w, hw, hr⟩ := h.targets r e hmem
      have hne : e ≠ target := by
        rintro rfl
        rw [Option.some.inj (hw.symm.trans made), stands] at hr
        exact absurd hr (by simp)
      exact ⟨w, (vouch_of_ne hne).trans hw, hr⟩
    · obtain ⟨rfl, rfl⟩ := TrustMove.revoke.injEq .. ▸ List.mem_singleton.mp hmem
      exact ⟨_, vouch_self, rfl⟩
  · intro s
    have hstands : (b.vouch target { v with revokedBy := some event }).Stands s ↔
        s ≠ v.subject ∧ b.Stands s := by
      constructor
      · rintro ⟨e, w, hw, rfl, hlive⟩
        rcases vouch_cases hw with ⟨rfl, rfl⟩ | ⟨hne, hw⟩
        · simp at hlive
        · exact ⟨fun hs => hne (hb.single e target w v hw made hlive stands hs),
            e, w, hw, rfl, hlive⟩
      · rintro ⟨hs, e, w, hw, rfl, hlive⟩
        have hne : e ≠ target := by
          rintro rfl
          exact hs (by rw [Option.some.inj (hw.symm.trans made)])
        exact ⟨e, w, (vouch_of_ne hne).trans hw, rfl, hlive⟩
    rw [hstands, List.countP_append, List.countP_append, h.countP_takesBack hm hfresh]
    by_cases hs : s = v.subject
    · subst hs
      simp [vouchesFor, takesBack, vouch_self, (h.balance v.subject).1 ⟨target, v, made, rfl, stands⟩]
    · have hne : ¬ v.subject = s := fun he => hs he.symm
      simpa [vouchesFor, takesBack, vouch_self, hs, hne] using h.balance s

/-- Every move keeps the trace, if vouches are made under ids of their own. -/
theorem step (h : Traced log b) (hb : b.Sound) (hm : Moves b m b')
    (hfresh : Fresh (log ++ [m])) : Traced (log ++ [m]) b' := by
  have hquiet : b'.vouches = b.vouches → (∀ s, vouchesFor s m = false) →
      (∀ s, b'.takesBack s m = false) → (∀ e s, m ≠ .attest e s) → (∀ r e, m ≠ .revoke r e) →
      Traced (log ++ [m]) b' := by
    intro hvouches hfor hback hattest hrevoke
    have hstands : ∀ s, b'.Stands s ↔ b.Stands s := fun s => by rw [Stands, Stands, hvouches]
    refine ⟨?_, ?_, ?_, ?_, ?_⟩
    · intro e v hv
      exact List.mem_append_left _ (h.made e v (hvouches ▸ hv))
    · intro e s hmem
      rw [hvouches]
      exact h.recorded e s (by simpa [(hattest e s).symm] using hmem)
    · intro e v r hv hr
      obtain ⟨j, k, hjk, hj, hk⟩ := h.revoked e v r (hvouches ▸ hv) hr
      exact ⟨j, k, hjk, getElem?_lift hj, getElem?_lift hk⟩
    · intro r e hmem
      rw [hvouches]
      exact h.targets r e (by simpa [(hrevoke r e).symm] using hmem)
    · intro s
      rw [hstands, List.countP_append, List.countP_append, h.countP_takesBack hm hfresh]
      simpa [hfor, hback] using h.balance s
  have hmoves := hm
  cases hm with
  | found self => exact hquiet rfl (fun _ => rfl) (fun _ => rfl) (by simp) (by simp)
  | attest event subject signer hother hun => exact h.attest hmoves hun hfresh
  | revoke event target v made stands => exact h.revoke hb hmoves made stands hfresh
  | other => exact hquiet rfl (fun _ => rfl) (fun _ => rfl) (by simp) (by simp)

end Traced

/-- The book a fresh log leads to knows the log. -/
theorem Run.traced [DecidableEq Id] {log : List (TrustMove Id Ev)} {b : TrustBook Id By Ev}
    (h : Run log b) (hfresh : Fresh log) : Traced log b := by
  induction h with
  | nil => exact traced_empty
  | snoc hrun hm ih => exact (ih hfresh.left).step (Run.sound hrun) hm hfresh

/-- A vouch stays on record for the rest of a fresh log. -/
theorem Run.keeps [DecidableEq Id] {before after : List (TrustMove Id Ev)}
    {b b' : TrustBook Id By Ev} (h : Run before b) (h' : Machine.RunFrom Moves b after b')
    (hfresh : Fresh (before ++ after)) {e : Ev} {v : Vouch Id By Ev}
    (hv : b.vouches e = some v) : ∃ w, b'.vouches e = some w ∧ v.Becomes w := by
  have hmade := (h.traced hfresh.left).made e v hv
  induction h' with
  | nil => exact ⟨v, hv, .refl v⟩
  | @snoc log _ _ m hrun hm ih =>
    rw [← List.append_assoc] at hfresh
    obtain ⟨w, hw, hbecomes⟩ := ih hfresh.left
    obtain ⟨x, hx, hbecomes'⟩ := hm.keeps hw
      (hfresh.not_reissued (List.mem_append_left log hmade))
    exact ⟨x, hx, hbecomes.trans hbecomes'⟩

end TrustBook

end Mabel
