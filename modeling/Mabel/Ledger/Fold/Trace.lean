import Mabel.Ledger.Fold.Change

/-!
# The events of a run

An accepted event stands in its run at the position its body declares. The bodies of one
run therefore differ, and where no two of them share a digest, so do the event ids.
-/

namespace Mabel

open Wire Proto Validate Machine

variable {C : Crypto}

/-- The messages inside an event, as the tolerant decoder reads them. -/
def openEvent (event : Bytes) : Option (SignedEvent × EventBody × Payload) := do
  let signed ← SignedEvent.decode event
  let body ← EventBody.decode signed.body
  let payload ← body.payload
  return (signed, body, payload)

/-- The body bytes an event carries. -/
def bodyOf (event : Bytes) : Bytes := ((SignedEvent.decode event).map SignedEvent.body).getD []

/-- The id of an event. -/
def eventIdOf (C : Crypto) (event : Bytes) : EventId := eventId C (bodyOf event)

/-- No two bodies among these events share an event id. -/
def CollisionFree (C : Crypto) (events : List Bytes) : Prop :=
  ∀ a ∈ events, ∀ b ∈ events, eventIdOf C a = eventIdOf C b → bodyOf a = bodyOf b

instance (C : Crypto) (events : List Bytes) : Decidable (CollisionFree C events) :=
  inferInstanceAs (Decidable (∀ a ∈ events, ∀ b ∈ events,
    eventIdOf C a = eventIdOf C b → bodyOf a = bodyOf b))

section Opened

variable {event : Bytes} {signed : SignedEvent} {body : EventBody} {payload : Payload}

theorem openEvent_of_opened (h : Opened C event signed body payload) :
    openEvent event = some (signed, body, payload) := by
  simp [openEvent, h.decode, h.decodeBody, h.holds]

theorem bodyOf_opened (h : Opened C event signed body payload) : bodyOf event = signed.body := by
  simp [bodyOf, h.decode]

end Opened

/-- An accepted event's id is its own. -/
theorem Step.id_eq {s s' : LedgerState C} {event : Bytes} (st : Step s event s') :
    st.id = eventIdOf C event := by
  rw [eventIdOf, bodyOf_opened st.opened]
  rfl

/-- The next position is the number of accepted events. -/
theorem FoldRun.nextSeq {log : List Bytes} {s : LedgerState C} (h : FoldRun log s) :
    s.nextSeq = log.length := by
  induction h with
  | nil => rfl
  | snoc _ haccept ih =>
    obtain ⟨st⟩ := apply_iff.mp haccept
    rw [LedgerState.nextSeq, st.head, List.length_append, ← ih]
    rfl

/-- The head of a run that accepted something is its last event. -/
theorem FoldRun.head_eq {log : List Bytes} {s : LedgerState C} (h : FoldRun log s)
    (hne : log ≠ []) : ∃ timestampMs,
      s.head = some ⟨log.length - 1, eventIdOf C (log.getLastD []), timestampMs⟩ := by
  cases h with
  | nil => exact absurd rfl hne
  | @snoc log u _ event hrun haccept =>
    obtain ⟨st⟩ := apply_iff.mp haccept
    refine ⟨st.body.timestampMs, ?_⟩
    rw [st.head, Step.newHead, FoldRun.nextSeq hrun, st.id_eq]
    simp

/-- Every event of a run was accepted at the position it stands. -/
theorem FoldRun.at_index {log : List Bytes} {s : LedgerState C} (h : FoldRun log s) {k : Nat}
    {event : Bytes} (hk : log[k]? = some event) : ∃ u u', FoldRun (log.take k) u ∧
      u.nextSeq = k ∧ Nonempty (Step u event u') ∧
      RunFrom (Accepts LedgerState.apply) u' (log.drop (k + 1)) s := by
  obtain ⟨u, u', hbefore, haccept, hafter⟩ := RunFrom.at_index h hk
  refine ⟨u, u', hbefore, ?_, apply_iff.mp haccept, hafter⟩
  rw [FoldRun.nextSeq hbefore, List.length_take_of_le (List.getElem?_eq_some_iff.mp hk).1.le]

/-- The events of a run carry different bodies. -/
theorem FoldRun.body_injective {log : List Bytes} {s : LedgerState C} (h : FoldRun log s)
    {j k : Nat} {a b : Bytes} (hj : log[j]? = some a) (hk : log[k]? = some b)
    (hbody : bodyOf a = bodyOf b) : j = k := by
  obtain ⟨u, u', -, hu, ⟨st⟩, -⟩ := h.at_index hj
  obtain ⟨v, v', -, hv, ⟨st'⟩, -⟩ := h.at_index hk
  rw [bodyOf_opened st.opened, bodyOf_opened st'.opened] at hbody
  have hsame : st.body = st'.body := Option.some.inj
    (st.opened.decodeBody.symm.trans (hbody ▸ st'.opened.decodeBody))
  rw [← hu, ← hv, ← st.seq, ← st'.seq, hsame]

/-- Event ids name positions of a run without collisions. -/
theorem FoldRun.id_injective {log : List Bytes} {s : LedgerState C} (h : FoldRun log s)
    (hids : CollisionFree C log) {j k : Nat} {a b : Bytes} (hj : log[j]? = some a)
    (hk : log[k]? = some b) (hid : eventIdOf C a = eventIdOf C b) : j = k :=
  h.body_injective hj hk
    (hids a (List.mem_of_getElem? hj) b (List.mem_of_getElem? hk) hid)

/-- Without a collision a run's ids are distinct. -/
theorem FoldRun.nodup_ids {log : List Bytes} {s : LedgerState C} (h : FoldRun log s)
    (hids : CollisionFree C log) : (log.map (eventIdOf C)).Nodup := by
  rw [List.nodup_iff_injective_get]
  intro j k hjk
  simp only [List.get_eq_getElem, List.getElem_map] at hjk
  have hj : j.val < log.length := List.length_map (eventIdOf C) ▸ j.isLt
  have hk : k.val < log.length := List.length_map (eventIdOf C) ▸ k.isLt
  exact Fin.ext (h.id_injective hids (List.getElem?_eq_getElem hj) (List.getElem?_eq_getElem hk)
    hjk)

/-- Records kept under the ids of some events of the run have ids of their own. -/
theorem FoldRun.nodup_filterMap {log : List Bytes} {s : LedgerState C} (h : FoldRun log s)
    (hids : CollisionFree C log) {f : Bytes → Option EventId}
    (hf : ∀ event e, f event = some e → e = eventIdOf C event) : (log.filterMap f).Nodup := by
  have hsub : ∀ l : List Bytes, (l.filterMap f).Sublist (l.map (eventIdOf C)) := by
    intro l
    induction l with
    | nil => exact .slnil
    | cons a l ih =>
      rw [List.filterMap_cons, List.map_cons]
      cases ha : f a with
      | none => exact ih.cons _
      | some b => exact hf a b ha ▸ ih.cons_cons _
  exact (hsub log).nodup (h.nodup_ids hids)

/-- The state a log leads to is the state after handing it to the fold. -/
theorem FoldRun.after_eq {log : List Bytes} {s : LedgerState C} (h : FoldRun log s) :
    after C log = s := RunFrom.replay_eq h

end Mabel
