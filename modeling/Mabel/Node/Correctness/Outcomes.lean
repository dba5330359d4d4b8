import Mabel.Node.Correctness.FirstSeen

/-!
# What a push answers is what it did

The answer of a push says exactly what happened to the store: which of the offered events
are stored, that a refusal changed nothing, and that a fork is two events which both apply
where only one is stored. The fork records stay few, distinct and valid.
-/

namespace Mabel.Node

open Wire Proto Net Machine Program

variable {C : Crypto}

/-! ## Reachable stores -/

/-- A store reached by pushes from an empty home. -/
inductive Reachable : LedgerStorage C → Prop
  | opened {setup : Setup} {identities : SortedMap IdentityId IdentityFiles}
      {endpoint : EndpointId C} {clock : LedgerId → LoadClock} {s : LedgerStorage C}
      (hopen : LedgerStorage.openHome setup (.empty identities) endpoint clock = .ok s) :
    Reachable s
  | pushed {s : LedgerStorage C} (call : PushCall C) (before : Reachable s) :
    Reachable (s.push call).2

/-- What holds of an empty home and is kept by every push holds of every reachable state. -/
theorem Reachable.invariant {P : LedgerStorage C → Prop} {s : LedgerStorage C}
    (h : Reachable s)
    (hinit : ∀ setup identities (endpoint : EndpointId C),
      P (LedgerStorage.empty setup identities endpoint))
    (hstep : ∀ t call r t', Sound t → P t → Pushed t call r t' → P t') : Sound s ∧ P s := by
  induction h with
  | opened hopen =>
    rw [openHome_empty] at hopen
    obtain rfl := Except.ok.inj hopen
    exact ⟨sound_empty _ _ _, hinit _ _ _⟩
  | @pushed s call _ ih =>
    obtain ⟨hsound, hP⟩ := ih
    exact ⟨(hsound.pushed call).sound hsound, hstep s call _ _ hsound hP (hsound.pushed call)⟩

theorem Reachable.sound {s : LedgerStorage C} (h : Reachable s) : Sound s :=
  (h.invariant (P := fun _ => True) (fun _ _ _ => trivial) fun _ _ _ _ _ _ _ => trivial).1

/-! ## Fork records -/

/-- A fork record is evidence against what is stored: after the stored events below it, the
stored event and the conflicting one both apply and differ. -/
structure Evidence (log : List Bytes) (l : LedgerId) (record : ForkRecord C) : Prop where
  ledger : record.ledger = l
  kept : log[record.seq]? = some record.kept
  valid : ∃ shared fork, fold C (log.take record.seq) = .ok (shared, none) ∧
    validateForkRecord shared record.kept record.conflicting = .ok fork ∧
    fork.ledger = l ∧ fork.seq = record.seq ∧
    signedEventId C record.conflicting = some fork.conflicting

/-- What tells two fork records of a ledger apart. -/
def forkKey (record : ForkRecord C) : Nat × Option EventId :=
  (record.seq, signedEventId C record.conflicting)

/-- The fork records of a ledger are few, distinct and evidence. -/
structure ForksKept (cap : UInt32) (log : List Bytes) (l : LedgerId)
    (forks : List (ForkRecord C)) : Prop where
  few : forks.length ≤ cap.toNat
  distinct : (forks.map forkKey).Nodup
  evidence : ∀ record ∈ forks, Evidence log l record

/-- Evidence stays evidence when the log grows. -/
theorem Evidence.append {log : List Bytes} {l : LedgerId} {record : ForkRecord C}
    (h : Evidence log l record) (events : List Bytes) : Evidence (log ++ events) l record := by
  have hlt := (List.getElem?_eq_some_iff.mp h.kept).1
  refine ⟨h.ledger, ?_, ?_⟩
  · rw [List.getElem?_append_left hlt]
    exact h.kept
  · rw [List.take_append_of_le_length hlt.le]
    exact h.valid

/-- The forks kept of a log are kept of a longer one. -/
theorem ForksKept.append {cap : UInt32} {log : List Bytes} {l : LedgerId}
    {forks : List (ForkRecord C)} (h : ForksKept cap log l forks) (events : List Bytes) :
    ForksKept cap (log ++ events) l forks :=
  ⟨h.few, h.distinct, fun record hrecord => (h.evidence record hrecord).append events⟩

theorem insertFork_perm (forks : List (ForkRecord C)) (record : ForkRecord C) :
    (insertFork forks record).Perm (record :: forks) :=
  (List.perm_insertionSort _ _).trans (List.perm_append_singleton record forks)

/-- A fork that is recorded keeps the records few, distinct and evidence. -/
theorem ForksKept.record {entry : Entry C} {cap : UInt32} {log : List Bytes} {l : LedgerId}
    (h : ForksKept cap log l entry.forks) {record : ForkRecord C} {conflicting : EventId}
    (hrecords : entry.records cap record.seq conflicting = true)
    (hid : signedEventId C record.conflicting = some conflicting)
    (hevidence : Evidence log l record) : ForksKept cap log l (insertFork entry.forks record) := by
  have hperm := insertFork_perm entry.forks record
  rw [Entry.records, Bool.and_eq_true, Bool.not_eq_true', Bool.not_eq_true', List.any_eq_false,
    Entry.forksTruncated, decide_eq_false_iff_not, ge_iff_le, UInt32.not_le, UInt32.lt_iff_toNat_lt,
    UInt32.toNat_ofNat'] at hrecords
  obtain ⟨hnew, hroom⟩ := hrecords
  refine ⟨?_, ?_, ?_⟩
  · have hfew := h.few
    have hcap := cap.toNat_lt
    rw [Nat.mod_eq_of_lt (by omega)] at hroom
    rw [hperm.length_eq, List.length_cons]
    omega
  · rw [(hperm.map forkKey).nodup_iff, List.map_cons, List.nodup_cons]
    refine ⟨?_, h.distinct⟩
    rintro hmem
    obtain ⟨held, hheld, hkey⟩ := List.mem_map.mp hmem
    obtain ⟨hseq, hconf⟩ := Prod.mk.inj hkey
    exact hnew held hheld (by simp [hseq, hconf, hid])
  · intro r hr
    rcases List.mem_cons.mp (hperm.mem_iff.mp hr) with rfl | hr
    · exact hevidence
    · exact h.evidence r hr

/-- The fork records of every ledger are few, distinct and evidence. -/
def ForksSound (s : LedgerStorage C) : Prop :=
  ∀ l entry, s.index.ledgers.get? l = some entry →
    ForksKept s.setup.caps.forkRecords (s.logOf l) l entry.forks

/-- What a push records is evidence. -/
theorem Differs.evidence {s : LedgerStorage C} {call : PushCall C} {first i : Nat}
    {kept conflicting : Bytes} {shared : LedgerState C} {fork : Fork} {entry : Entry C}
    (h : Sound s) (hdiffers : Differs s call first i kept conflicting)
    (hshared : FoldRun ((s.logOf call.ledger).take (first + i)) shared)
    (hfork : Forks shared kept conflicting fork)
    (hentry : s.index.ledgers.get? call.ledger = some entry) :
    Evidence (s.logOf call.ledger) call.ledger (call.record (first + i) kept conflicting) ∧
      signedEventId C conflicting = some fork.conflicting := by
  have hid : signedEventId C conflicting = some fork.conflicting := by
    obtain ⟨state, happly⟩ := hfork.conflictingApplies
    obtain ⟨st⟩ := apply_iff.mp happly
    rw [signedEventId_step st, hfork.conflictingId]
  have hlt := (List.getElem?_eq_some_iff.mp hdiffers.kept_eq).1
  have hhead : shared.head ≠ none := by
    intro hnone
    have hledger := hfork.ledger
    rw [(hshared.empty_of_head hnone).2] at hledger
    simp [LedgerState.default] at hledger
  -- The shared prefix leads to what is stored, so it is of the same ledger.
  have hledger : fork.ledger = call.ledger := by
    obtain ⟨u, hu, hrest⟩ : ∃ u, FoldRun ((s.logOf call.ledger).take (first + i)) u ∧
        RunFrom (Accepts LedgerState.apply) u ((s.logOf call.ledger).drop (first + i))
          (s.stateOf call.ledger) := by
      apply RunFrom.split
      rw [List.take_append_drop]
      exact h.foldRun call.ledger
    obtain rfl := hu.functional hshared
    obtain ⟨-, -, -, hsame⟩ := fixed_of_runFrom hrest hhead
    rw [Sound.stateOf_eq hentry, (h.heldLog hentry).ledger, hfork.ledger] at hsame
    exact (Option.some.inj hsame).symm
  refine ⟨⟨rfl, hdiffers.kept_eq, shared, fork, fold_eq_ok.mpr hshared,
    validateForkRecord_eq_ok.mpr hfork, hledger, ?_, hid⟩, hid⟩
  rw [hfork.seq, hshared.nextSeq, List.length_take, Nat.min_eq_left hlt.le]
  rfl

/-- A push keeps the forks sound. -/
theorem Pushed.forksSound {s t : LedgerStorage C} {call : PushCall C}
    {r : Outcome StoreError PushOutcome} (h : Sound s) (hforks : ForksSound s)
    (hpushed : Pushed s call r t) : ForksSound t := by
  cases hpushed with
  | @fork first i kept conflicting shared fork entry msg hdiffers hshared hfork hentry =>
    obtain ⟨hevidence, hid⟩ := hdiffers.evidence h hshared hfork hentry
    by_cases hrecords : entry.records s.setup.caps.forkRecords (first + i) fork.conflicting = true
    · rw [if_pos hrecords]
      intro l held hl
      rw [LedgerStorage.logOf_forked]
      rw [LedgerStorage.get?_forked, PushCall.record_ledger] at hl
      by_cases hsame : l = call.ledger
      · subst hsame
        rw [if_pos rfl, hentry] at hl
        obtain rfl := Option.some.inj hl
        exact (hforks _ entry hentry).record hrecords hid hevidence
      · rw [if_neg hsame] at hl
        exact hforks l held hl
    · rw [if_neg hrecords]
      exact hforks
  | stored =>
    intro l held hl
    rw [h.logOf_landed]
    rw [LedgerStorage.get?_landed] at hl
    by_cases hsame : l = call.ledger
    · subst hsame
      rw [if_pos rfl] at hl ⊢
      obtain rfl := Option.some.inj hl
      rw [LedgerStorage.forks_entryAfter, LedgerStorage.landed_setup]
      cases hentry : s.index.ledgers.get? call.ledger with
      | none => exact ⟨Nat.zero_le _, List.nodup_nil, by simp⟩
      | some entry => exact (hforks _ entry hentry).append _
    · rw [if_neg hsame] at hl ⊢
      exact hforks l held hl
  | _ => exact hforks

/-- Every reachable state has sound forks. -/
theorem Reachable.forksSound {s : LedgerStorage C} (h : Reachable s) : ForksSound s := by
  refine (h.invariant ?_ ?_).2
  · intro setup identities endpoint l entry hl
    simp [LedgerStorage.empty, Index.default] at hl
  · intro t call r t' hsound hforks hpushed
    exact hpushed.forksSound hsound hforks

/-! ## Answers -/

/-- The sequence the first event of a push declares. -/
def PushCall.first (call : PushCall C) : Option Nat := call.events.head?.bind signedEventSeq

/-- A numbered push starts at its first event's number. -/
theorem Numbered.first_eq {checks : Bool} {first : Nat} {call : PushCall C}
    (h : Numbered checks first call.events) : call.first = some first := by
  obtain ⟨event, rest, hevents, hseq, -⟩ := h
  rw [PushCall.first, hevents]
  exact Outcome.orReject_eq_ok.mp hseq

/-- A push is numbered from one sequence only. -/
theorem Numbered.unique {checks : Bool} {first other : Nat} {call : PushCall C}
    (h : Numbered checks first call.events) (h' : Numbered checks other call.events) :
    first = other :=
  Option.some.inj (h.first_eq.symm.trans h'.first_eq)

/-- The code and the sequence of a rejection. -/
def rejection {α : Type} : Outcome StoreError α → Option (RejectCode × Nat)
  | .error (.reject (.rejected rejection)) => some (rejection.code, rejection.atSeq)
  | _ => none

section Codes

variable {α : Type}

@[simp] theorem rejection_ok (a : α) : rejection (.ok a) = none := rfl

@[simp] theorem rejection_panic (site : String) :
    rejection (Outcome.panic site : Outcome StoreError α) = none := rfl

@[simp] theorem rejection_malformed (seq : Nat) (msg : String) :
    rejection (Outcome.reject (malformed seq msg) : Outcome StoreError α) =
      some (.malformed, seq) := rfl

@[simp] theorem rejection_tooLarge (msg : String) :
    rejection (Outcome.reject (tooLarge msg) : Outcome StoreError α) = some (.tooLarge, 0) := rfl

@[simp] theorem rejection_invalid (seq : Nat) (msg : String) :
    rejection (Outcome.reject (.invalid seq msg) : Outcome StoreError α) =
      some (.invalid, seq) := rfl

@[simp] theorem rejection_fork (seq : Nat) (msg : String) :
    rejection (Outcome.reject (.fork seq msg) : Outcome StoreError α) = some (.fork, seq) := rfl

@[simp] theorem rejection_refusal (ledger : LedgerId) (post : LedgerState C)
    (entries : List WitnessForEntry) :
    rejection (Outcome.reject (refusal ledger post entries) : Outcome StoreError α) =
      some (.notAdmitted, 0) := by
  unfold refusal
  split_ifs
  · rfl
  · split <;> rfl

/-- An answer after storing rejects exactly where an event did not apply. -/
@[simp] theorem rejection_answer (k : Nat) (violation : Option (Reason C)) (o : PushOutcome) :
    rejection (answer k violation o) = violation.map fun _ => (.invalid, k) := by
  cases violation <;> rfl

end Codes

/-- A stored event lies at the sequence it declares. -/
theorem Sound.stored_at {s : LedgerStorage C} (h : Sound s) {l : LedgerId} {k : Nat}
    {event : Bytes} (hk : (s.logOf l)[k]? = some event) :
    signedEventSeq event = some k ∧ (s.filesOf l).events.get? k = some event := by
  obtain ⟨u, u', -, hseq, ⟨st⟩, -⟩ := (h.foldRun l).at_index hk
  rw [signedEventSeq_step st, hseq, h.holds l k, hk]
  exact ⟨rfl, rfl⟩

/-- Once what applies has landed, the offered events up to it are stored where they belong. -/
theorem Reaches.log_eq {s : LedgerStorage C} {call : PushCall C} {first fresh valid : Nat}
    {state : LedgerState C} {violation : Option (Reason C)} (h : Sound s)
    (hreaches : Reaches s call first fresh state valid violation) {i : Nat}
    (hi : i < fresh + valid) :
    (s.logOf call.ledger ++ (call.events.drop fresh).take valid)[first + i]? = call.events[i]? := by
  have hlen := h.length_logOf call.ledger
  have hends := hreaches.ends
  by_cases hlow : i < fresh
  · rw [List.getElem?_append_left (by omega), hreaches.same i hlow]
  · rw [List.getElem?_append_right (by omega), List.getElem?_take_of_lt (by omega),
      List.getElem?_drop]
    congr 1
    omega

/-- An answer says that the offered events below a sequence are stored, and that nothing was
stored at it or past it. -/
structure StoredBelow (s t : LedgerStorage C) (call : PushCall C) (k : Nat) : Prop where
  range : ∃ first, call.first = some first ∧ first ≤ k ∧ k < first + call.events.length ∧
    ∀ i event, first + i < k → call.events[i]? = some event →
      (t.filesOf call.ledger).events.get? (first + i) = some event
  others : ∀ l seq, l ≠ call.ledger ∨ k ≤ seq →
    (t.filesOf l).events.get? seq = (s.filesOf l).events.get? seq

/-- A fork answer: no event and no state changed, at most one record was added, and the
offered and the stored event contend for the sequence. -/
structure ForkAnswered (s t : LedgerStorage C) (call : PushCall C) (k : Nat) : Prop where
  events : ∀ l, (t.filesOf l).events = (s.filesOf l).events
  states : ∀ l, t.preOf l = s.preOf l
  others : ∀ l, l ≠ call.ledger →
    (t.index.ledgers.get? l).map Entry.forks = (s.index.ledgers.get? l).map Entry.forks ∧
      (t.filesOf l).forks = (s.filesOf l).forks
  records : t = s ∨ ∃ record id,
    (t.index.ledgers.get? call.ledger).map Entry.forks =
      (s.index.ledgers.get? call.ledger).map (fun entry => insertFork entry.forks record) ∧
    (t.filesOf call.ledger).forks =
      (s.filesOf call.ledger).forks.insert (toLex (k, id)) (forkEntry record)
  contends : ∃ first i kept offered shared, call.first = some first ∧ k = first + i ∧
    call.events[i]? = some offered ∧ (s.filesOf call.ledger).events.get? k = some kept ∧
    fold C ((s.filesOf call.ledger).stored.take k) = .ok (shared, none) ∧
    (∃ u, shared.apply kept = .ok u) ∧ (∃ u, shared.apply offered = .ok u) ∧
    eventIdOf C kept ≠ eventIdOf C offered

section Answers

variable {s t : LedgerStorage C} {call : PushCall C} {r : Outcome StoreError PushOutcome}

/-- After an `Ok` every offered event is stored at the sequence it declares. -/
theorem Pushed.ok_stored (h : Sound s) (hne : call.events ≠ []) (hpushed : Pushed s call r t)
    {o : PushOutcome} (hr : r = .ok o) {event : Bytes} (hevent : event ∈ call.events) :
    ∃ seq, signedEventSeq event = some seq ∧
      (t.filesOf call.ledger).events.get? seq = some event := by
  have hsound := hpushed.sound h
  obtain ⟨i, hi, hget⟩ := List.mem_iff_getElem.mp hevent
  have hget? : call.events[i]? = some event := by rw [List.getElem?_eq_getElem hi, hget]
  cases hpushed with
  | nothing hevents => exact absurd hevents hne
  | @known first _ hsame =>
    have hlog := hsame i hi
    rw [hget?] at hlog
    exact ⟨first + i, hsound.stored_at hlog⟩
  | @stored first fresh state valid violation hreaches =>
    cases violation with
    | some reason => simp [answer] at hr
    | none =>
      have hwhole := hreaches.applied.whole rfl
      rw [List.length_drop] at hwhole
      have hmore := hreaches.more
      refine ⟨first + i, hsound.stored_at ?_⟩
      rw [h.logOf_landed, if_pos rfl, hreaches.log_eq h (by omega), hget?]
  | _ => simp at hr

/-- After `INVALID` the offered events below its sequence are stored and none at it or past
it. -/
theorem Pushed.invalid_below (h : Sound s) (hpushed : Pushed s call r t) {k : Nat}
    (hr : rejection r = some (.invalid, k)) : StoredBelow s t call k := by
  cases hpushed with
  | @divergent first i kept conflicting _ _ hdiffers =>
    rw [rejection_invalid, Option.some.injEq, Prod.mk.injEq] at hr
    obtain ⟨-, rfl⟩ := hr
    have hi := (List.getElem?_eq_some_iff.mp hdiffers.conflicting_eq).1
    refine ⟨⟨first, hdiffers.isNumbered.first_eq, by omega, by omega, ?_⟩, fun _ _ _ => rfl⟩
    intro j event hj hevent
    rw [h.holds, hdiffers.same j (by omega), hevent]
  | @stops first fresh _ _ hreaches =>
    rw [rejection_invalid, Option.some.injEq, Prod.mk.injEq] at hr
    obtain ⟨-, rfl⟩ := hr
    have hmore := hreaches.more
    refine ⟨⟨first, hreaches.isNumbered.first_eq, by omega, by omega, ?_⟩, fun _ _ _ => rfl⟩
    intro j event hj hevent
    rw [h.holds, hreaches.same j (by omega), hevent]
  | @foreign first _ _ _ _ hreaches _ hheld =>
    rw [rejection_invalid, Option.some.injEq, Prod.mk.injEq] at hr
    obtain ⟨-, rfl⟩ := hr
    have hends := hreaches.ends
    have hmore := hreaches.more
    rw [LedgerStorage.countOf, hheld, Option.elim_none] at hends
    refine ⟨⟨first, hreaches.isNumbered.first_eq, by omega, by omega, ?_⟩, fun _ _ _ => rfl⟩
    intro j _ hj
    omega
  | @stored first fresh state valid violation hreaches =>
    cases violation with
    | none => simp at hr
    | some reason =>
      rw [rejection_answer, Option.map_some, Option.some.injEq, Prod.mk.injEq] at hr
      obtain ⟨-, rfl⟩ := hr
      have hsound := Pushed.sound h (.stored hreaches ‹_› ‹_› ‹_› ‹_›)
      have hlen := h.length_logOf call.ledger
      have hends := hreaches.ends
      obtain ⟨_, hstop, -⟩ := hreaches.applied.stops reason rfl
      have hvalid := (List.getElem?_eq_some_iff.mp hstop).1
      rw [List.length_drop] at hvalid
      refine ⟨⟨first, hreaches.isNumbered.first_eq, by omega, by omega, ?_⟩, ?_⟩
      · intro j event hj hevent
        rw [hsound.holds, h.logOf_landed, if_pos rfl, hreaches.log_eq h (by omega), hevent]
      · intro l seq hseq
        rw [hsound.holds, h.holds, h.logOf_landed]
        by_cases hl : l = call.ledger
        · subst hl
          have hpast : first + (fresh + valid) ≤ seq := hseq.resolve_left (fun hne => hne rfl)
          rw [if_pos rfl, List.getElem?_eq_none, List.getElem?_eq_none]
          · omega
          · rw [List.length_append, List.length_take]
            omega
        · rw [if_neg hl]
  | _ => simp at hr

/-- `MALFORMED`, `TOO_LARGE` and `NOT_ADMITTED` leave everything as it was. -/
theorem Pushed.refused_unchanged (hpushed : Pushed s call r t) {code : RejectCode} {k : Nat}
    (hcode : code = .malformed ∨ code = .tooLarge ∨ code = .notAdmitted)
    (hr : rejection r = some (code, k)) : t = s := by
  cases hpushed with
  | fork =>
    obtain ⟨rfl, -⟩ := Prod.mk.inj (Option.some.inj hr)
    simp at hcode
  | @stored _ _ _ _ violation =>
    cases violation with
    | none => simp at hr
    | some reason =>
      obtain ⟨rfl, -⟩ := Prod.mk.inj (Option.some.inj hr)
      simp at hcode
  | _ => rfl

/-- `FORK` changes no event and no state, and is answered for two contending events. -/
theorem Pushed.fork_answered (h : Sound s) (hpushed : Pushed s call r t) {k : Nat}
    (hr : rejection r = some (.fork, k)) : ForkAnswered s t call k := by
  cases hpushed with
  | @fork first i kept conflicting shared fork entry _ hdiffers hshared hfork hentry =>
    rw [rejection_fork, Option.some.injEq, Prod.mk.injEq] at hr
    obtain ⟨-, rfl⟩ := hr
    have hcontends : ∃ start j stored offered prior, call.first = some start ∧
        first + i = start + j ∧ call.events[j]? = some offered ∧
        (s.filesOf call.ledger).events.get? (first + i) = some stored ∧
        fold C ((s.filesOf call.ledger).stored.take (first + i)) = .ok (prior, none) ∧
        (∃ u, prior.apply stored = .ok u) ∧ (∃ u, prior.apply offered = .ok u) ∧
        eventIdOf C stored ≠ eventIdOf C offered := by
      refine ⟨first, i, kept, conflicting, shared, hdiffers.isNumbered.first_eq, rfl,
        hdiffers.conflicting_eq, ?_, fold_eq_ok.mpr hshared, hfork.keptApplies,
        hfork.conflictingApplies, hfork.distinct⟩
      rw [h.holds, hdiffers.kept_eq]
    by_cases hrecords : entry.records s.setup.caps.forkRecords (first + i) fork.conflicting = true
    · rw [if_pos hrecords]
      refine ⟨fun l => (s.filesOf_forked _ _ l).1, fun l => ?_, fun l hl => ?_, .inr ?_, hcontends⟩
      · rw [LedgerStorage.preOf, LedgerStorage.get?_forked]
        split_ifs
        · rw [Option.map_map]
          rfl
        · rfl
      · rw [LedgerStorage.get?_forked, PushCall.record_ledger, if_neg hl,
          s.forks_forked, PushCall.record_ledger, if_neg hl]
        exact ⟨rfl, rfl⟩
      · refine ⟨call.record (first + i) kept conflicting, fork.conflicting, ?_, ?_⟩
        · rw [LedgerStorage.get?_forked, PushCall.record_ledger, if_pos rfl, Option.map_map]
          rfl
        · rw [s.forks_forked, PushCall.record_ledger, if_pos rfl]
          rfl
    · rw [if_neg hrecords]
      exact ⟨fun _ => rfl, fun _ => rfl, fun _ _ => ⟨rfl, rfl⟩, .inl rfl, hcontends⟩
  | @stored _ _ _ _ violation => cases violation <;> simp at hr
  | _ => simp at hr

end Answers

/-- Push outcomes are exact: on every reachable store the answer of a push says what is
stored, what is refused and what contends, and the fork records are few, distinct and
valid. -/
theorem push_outcomes_exact {s : LedgerStorage C} (h : Reachable s) {call : PushCall C}
    (hne : call.events ≠ []) :
    (∀ o, (s.push call).1 = .ok o → ∀ event ∈ call.events, ∃ seq,
      signedEventSeq event = some seq ∧
        ((s.push call).2.filesOf call.ledger).events.get? seq = some event) ∧
    (∀ k, rejection (s.push call).1 = some (.invalid, k) →
      StoredBelow s (s.push call).2 call k) ∧
    (∀ code k, code = .malformed ∨ code = .tooLarge ∨ code = .notAdmitted →
      rejection (s.push call).1 = some (code, k) → (s.push call).2 = s) ∧
    (∀ k, rejection (s.push call).1 = some (.fork, k) →
      ForkAnswered s (s.push call).2 call k) ∧
    ForksSound s := by
  have hpushed := h.sound.pushed call
  refine ⟨?_, ?_, ?_, ?_, h.forksSound⟩
  · intro o ho event hevent
    exact hpushed.ok_stored h.sound hne ho hevent
  · intro k hk
    exact hpushed.invalid_below h.sound hk
  · intro code k hcode hk
    exact hpushed.refused_unchanged hcode hk
  · intro k hk
    exact hpushed.fork_answered h.sound hk

theorem reachable_sampleHome : Reachable sampleHome :=
  .opened (openHome_empty sampleSetup _ _ fun _ => ⟨0, 0⟩)

/-- A home that stored two events refuses a run that leaves its chain after the first, and
keeps the two events that contend for the second place. -/
theorem push_outcomes_exact_sampleHome :
    rejection ((sampleHome.push (sampleCall (sampleLedger.take 2))).2.push
      (sampleCall sampleFork)).1 = some (.fork, 1) ∧
    ForkAnswered (sampleHome.push (sampleCall (sampleLedger.take 2))).2
      ((sampleHome.push (sampleCall (sampleLedger.take 2))).2.push (sampleCall sampleFork)).2
      (sampleCall sampleFork) 1 := by
  have hne : (sampleCall sampleFork).events ≠ [] := by decide +kernel
  have hfork : rejection ((sampleHome.push (sampleCall (sampleLedger.take 2))).2.push
      (sampleCall sampleFork)).1 = some (.fork, 1) := by decide +kernel
  obtain ⟨-, -, -, hanswered, -⟩ := push_outcomes_exact
    (reachable_sampleHome.pushed (sampleCall (sampleLedger.take 2))) hne
  exact ⟨hfork, hanswered 1 hfork⟩

end Mabel.Node
