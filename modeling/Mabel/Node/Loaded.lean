import Mabel.Ledger.Correctness.Chain
import Mabel.Node.Wallet

/-!
# What loading a run of events finds

A loaded ledger keeps the run it folds, the id of every event in it and where it ends. One
that met no violation is a run of the fold, so its ids are those of the accepted events.
-/

namespace Mabel.Node

open Wire Proto Machine

variable {C : Crypto}

namespace LoadedLedger

/-- What folding one more event does. -/
structure Stepped (loaded loaded' : LoadedLedger C) (seq : Nat) (bytes : Bytes) : Prop where
  ledger : loaded'.ledger = loaded.ledger
  events : loaded'.events = loaded.events
  eventIds : loaded'.eventIds = loaded.eventIds ++ [decodedId C bytes]
  headSeq : loaded'.headSeq = (decodedId C bytes).elim loaded.headSeq fun _ => seq
  headEvent : loaded'.headEvent = (decodedId C bytes).getD loaded.headEvent
  /-- Without a violation so far, the event was accepted. -/
  accepts : loaded'.violation = none →
    loaded.violation = none ∧ loaded.state.apply bytes = .ok loaded'.state

/-- What one step of loading does. -/
theorem step_eq_ok {ε : Type} {loaded loaded' : LoadedLedger C} {seq : Nat} {bytes : Bytes}
    (h : (loaded.step seq bytes : Outcome ε _) = .ok loaded') :
    Stepped loaded loaded' seq bytes := by
  rw [step] at h
  dsimp only at h
  by_cases hviolation : loaded.violation.isSome = true
  · rw [if_pos hviolation] at h
    obtain rfl := Except.ok.inj h
    refine ⟨rfl, rfl, rfl, rfl, rfl, fun hnone => ?_⟩
    rw [show loaded.violation = none from hnone] at hviolation
    simp at hviolation
  · rw [if_neg hviolation] at h
    have hnone : loaded.violation = none := by simpa using hviolation
    rcases happly : loaded.state.apply bytes with (reason | site) | state
    · rw [happly] at h
      obtain rfl := Except.ok.inj h
      exact ⟨rfl, rfl, rfl, rfl, rfl, fun hsome => by simp at hsome⟩
    · simp [happly] at h
    · rw [happly] at h
      obtain rfl := Except.ok.inj h
      exact ⟨rfl, rfl, rfl, rfl, rfl, fun _ => ⟨hnone, happly⟩⟩

/-- What folding some more events does. -/
structure Folded (loaded loaded' : LoadedLedger C) (more : List Bytes) : Prop where
  ledger : loaded'.ledger = loaded.ledger
  events : loaded'.events = loaded.events
  eventIds : loaded'.eventIds = loaded.eventIds ++ more.map (decodedId C)
  accepts : loaded'.violation = none → loaded.violation = none ∧
    RunFrom (Accepts LedgerState.apply) loaded.state more loaded'.state

/-- What loading a list of events does. -/
theorem foldFrom_eq_ok {ε : Type} (events : List Bytes) :
    ∀ {loaded loaded' : LoadedLedger C} {seq : Nat},
      (loaded.foldFrom seq events : Outcome ε _) = .ok loaded' → Folded loaded loaded' events := by
  induction events with
  | nil =>
    intro loaded loaded' seq h
    obtain rfl := Except.ok.inj h
    exact ⟨rfl, rfl, by simp, fun hnone => ⟨hnone, .nil⟩⟩
  | cons bytes events ih =>
    intro loaded loaded' seq h
    obtain ⟨next, hstep, hrest⟩ := Outcome.bind_eq_ok.mp h
    have hstepped := step_eq_ok hstep
    have hfolded := ih hrest
    refine ⟨hfolded.ledger.trans hstepped.ledger, hfolded.events.trans hstepped.events, ?_,
      fun hnone => ?_⟩
    · rw [hfolded.eventIds, hstepped.eventIds, List.append_assoc]
      rfl
    · obtain ⟨hnext, hrun⟩ := hfolded.accepts hnone
      obtain ⟨hfirst, happly⟩ := hstepped.accepts hnext
      exact ⟨hfirst, hrun.cons happly⟩

/-- A fold keeps the run it folds. -/
theorem fold_events {ε : Type} {ledger : LedgerId} {events : List Bytes} {loaded : LoadedLedger C}
    (h : (LoadedLedger.fold ledger events : Outcome ε _) = .ok loaded) : loaded.events = events :=
  (foldFrom_eq_ok events h).events

/-- A run whose last event decodes ends at that event. -/
theorem foldFrom_head {ε : Type} {bytes : Bytes} (events : List Bytes) :
    ∀ {loaded loaded' : LoadedLedger C} {seq : Nat},
      (loaded.foldFrom seq (events ++ [bytes]) : Outcome ε _) = .ok loaded' →
      ∀ id, decodedId C bytes = some id →
        loaded'.headSeq = seq + events.length ∧ loaded'.headEvent = id := by
  induction events with
  | nil =>
    intro loaded loaded' seq h id hid
    obtain ⟨next, hstep, hrest⟩ := Outcome.bind_eq_ok.mp h
    obtain rfl := Except.ok.inj hrest
    have hstepped := step_eq_ok hstep
    rw [hstepped.headSeq, hstepped.headEvent, hid]
    exact ⟨rfl, rfl⟩
  | cons first events ih =>
    intro loaded loaded' seq h id hid
    obtain ⟨next, hstep, hrest⟩ := Outcome.bind_eq_ok.mp h
    obtain ⟨hseq, hevent⟩ := ih hrest id hid
    refine ⟨?_, hevent⟩
    rw [hseq, List.length_cons]
    omega

/-- An event the state takes is loaded. -/
theorem step_of_apply {loaded : LoadedLedger C} {state : LedgerState C} {bytes : Bytes} (seq : Nat)
    (hnone : loaded.violation = none) (happly : loaded.state.apply bytes = .ok state) :
    ∃ loaded' : LoadedLedger C, (∀ ε : Type, (loaded.step seq bytes : Outcome ε _) = .ok loaded') ∧
      loaded'.violation = none ∧ loaded'.state = state := by
  let id := decodedId C bytes
  refine ⟨{ loaded with
    eventIds := loaded.eventIds ++ [id]
    headSeq := id.elim loaded.headSeq fun _ => seq
    headEvent := id.getD loaded.headEvent
    state := state
    seqOf := id.elim loaded.seqOf fun id => loaded.seqOf.insert id seq
    createdAtMs := if seq = 0 then timestampOf bytes else loaded.createdAtMs },
    fun ε => ?_, hnone, rfl⟩
  rw [step]
  dsimp only
  rw [hnone, if_neg (by simp), happly]

/-- Events the fold accepts are loaded without a violation, whatever the caller's errors are. -/
theorem foldFrom_of_run (events : List Bytes) :
    ∀ {loaded : LoadedLedger C} {state : LedgerState C} (seq : Nat),
      loaded.violation = none → RunFrom (Accepts LedgerState.apply) loaded.state events state →
      ∃ loaded', (∀ ε : Type, (loaded.foldFrom seq events : Outcome ε _) = .ok loaded') ∧
        loaded'.violation = none ∧ loaded'.state = state := by
  induction events with
  | nil => exact fun seq hnone hrun => ⟨_, fun _ => rfl, hnone, hrun.eq_of_nil.symm⟩
  | cons bytes events ih =>
    intro loaded state seq hnone hrun
    obtain ⟨next, happly, hrest⟩ := hrun.cases_cons
    obtain ⟨stepped, hstep, hviolation, hstate⟩ := step_of_apply seq hnone happly
    obtain ⟨loaded', hfold, hresult⟩ := ih (seq + 1) hviolation (hstate ▸ hrest)
    refine ⟨loaded', fun ε => ?_, hresult⟩
    rw [foldFrom, hstep ε]
    exact hfold ε

/-! ## Chains that verify -/

/-- A loaded ledger is the fold of its events, met no violation and is of a ledger. -/
structure Verifies (ledger : LedgerId) (loaded : LoadedLedger C) : Prop where
  folds : (LoadedLedger.fold ledger loaded.events : Outcome Empty _) = .ok loaded
  valid : loaded.violation = none
  ofLedger : loaded.state.ledger = some ledger

namespace Verifies

variable {ledger : LedgerId} {loaded : LoadedLedger C}

theorem run (h : Verifies ledger loaded) : FoldRun loaded.events loaded.state :=
  ((foldFrom_eq_ok loaded.events h.folds).accepts h.valid).2

/-- A run of the fold verifies. -/
theorem of_run {events : List Bytes} {state : LedgerState C} (hrun : FoldRun events state)
    (hledger : state.ledger = some ledger) : ∃ loaded : LoadedLedger C,
      Verifies ledger loaded ∧ loaded.events = events ∧ loaded.state = state ∧
        ∀ ε : Type, (LoadedLedger.fold ledger events : Outcome ε _) = .ok loaded := by
  obtain ⟨loaded, hfold, hvalid, rfl⟩ :=
    @foldFrom_of_run C events (start ledger events) state 0 rfl hrun
  have hevents := fold_events (hfold Empty)
  exact ⟨loaded, ⟨hevents.symm ▸ hfold Empty, hvalid, hledger⟩, hevents, rfl, hfold⟩

/-- A chain that verifies is what its events fold to, whatever the caller's errors are. -/
theorem fold_eq (h : Verifies ledger loaded) (ε : Type) :
    (LoadedLedger.fold ledger loaded.events : Outcome ε _) = .ok loaded := by
  obtain ⟨loaded', -, -, -, hfold⟩ := of_run h.run h.ofLedger
  rw [hfold ε]
  exact congrArg Except.ok (Except.ok.inj ((hfold Empty).symm.trans h.folds))

/-- A verified chain has events. -/
theorem ne_nil (h : Verifies ledger loaded) : loaded.events ≠ [] := by
  intro hnil
  have hrun := h.run
  rw [hnil] at hrun
  have hledger := h.ofLedger
  rw [hrun.eq_of_nil] at hledger
  simp [LedgerState.default] at hledger

/-- Accepted events decode to their ids. -/
theorem decodedId_eq (h : Verifies ledger loaded) {k : Nat} {event : Bytes}
    (hk : loaded.events[k]? = some event) :
    decodedId C event = some (Mabel.eventIdOf C event) := by
  obtain ⟨u, u', -, -, ⟨st⟩, -⟩ := h.run.at_index hk
  rw [decodedId, st.opened.decode, Mabel.eventIdOf, bodyOf_opened st.opened]
  rfl

/-- Every event of a verified chain decodes. -/
theorem decodes (h : Verifies ledger loaded) :
    ∀ bytes ∈ loaded.events, (SignedEvent.decode bytes).isSome = true := by
  intro bytes hmem
  obtain ⟨k, hk⟩ := List.mem_iff_getElem?.mp hmem
  have := h.decodedId_eq hk
  rw [decodedId, Option.map_eq_some_iff] at this
  obtain ⟨signed, hsigned, -⟩ := this
  rw [hsigned]
  rfl

/-- The ids of a verified chain are its events'. -/
theorem eventIds_eq (h : Verifies ledger loaded) {k : Nat} {event : Bytes}
    (hk : loaded.events[k]? = some event) :
    loaded.eventIds[k]? = some (some (Mabel.eventIdOf C event)) := by
  have hids := (foldFrom_eq_ok loaded.events h.folds).eventIds
  rw [show (start ledger loaded.events : LoadedLedger C).eventIds = [] from rfl,
    List.nil_append] at hids
  rw [hids, List.getElem?_map, hk, Option.map_some, h.decodedId_eq hk]

/-- The head of a chain that verifies is its last event. -/
theorem head_eq (h : Verifies ledger loaded) :
    loaded.headSeq = loaded.events.length - 1 ∧
      loaded.headEvent = Mabel.eventIdOf C (loaded.events.getLastD []) := by
  obtain ⟨events, last, hlast⟩ := List.eq_nil_or_concat' loaded.events |>.resolve_left h.ne_nil
  have hat : loaded.events[events.length]? = some last := by simp [hlast]
  have hfolds : ((start ledger loaded.events : LoadedLedger C).foldFrom 0 loaded.events :
      Outcome Empty _) = .ok loaded := h.folds
  have hfold : ((start ledger loaded.events : LoadedLedger C).foldFrom 0 (events ++ [last]) :
      Outcome Empty _) = .ok loaded := by rwa [← hlast]
  obtain ⟨hseq, hevent⟩ := foldFrom_head events hfold _ (h.decodedId_eq hat)
  rw [hseq, hevent, hlast]
  simp

end Verifies

end LoadedLedger

/-- The fold of a run that meets no violation verifies. -/
theorem verifies_of_fold {ledger : LedgerId} {events : List Bytes} {loaded : LoadedLedger C}
    (hfold : (LoadedLedger.fold ledger events : Outcome Empty _) = .ok loaded)
    (hvalid : loaded.violation = none) (hledger : loaded.state.ledger = some ledger) :
    loaded.Verifies ledger := by
  have hevents := LoadedLedger.fold_events hfold
  exact ⟨hevents.symm ▸ hfold, hvalid, hledger⟩

end Mabel.Node
