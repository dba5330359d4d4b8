import Mabel.Node.Sound

/-!
# What a push does

Every way one push can end on a sound store, with the answer it gives and the store it
leaves. The results about pushes are case analyses over this list; none of them looks into
the push again.
-/

namespace Mabel.Node

open Wire Proto Net Machine Program

variable {C : Crypto}

/-! ## The pushed run -/

/-- A run of events that is contiguous and ascending from a sequence. -/
def Numbered (checks : Bool) (first : Nat) (events : List Bytes) : Prop :=
  ∃ event rest, events = event :: rest ∧ seqOf event = .ok first ∧
    checkRun checks first 0 events = .ok ()

/-- How far a run applies to a state, and why no further. -/
structure Applied (s : LedgerState C) (events : List Bytes) (state : LedgerState C) (valid : Nat)
    (violation : Option (Reason C)) : Prop where
  valid_le : valid ≤ events.length
  run : RunFrom (Accepts LedgerState.apply) s (events.take valid) state
  whole : violation = none → valid = events.length
  stops : ∀ reason, violation = some reason →
    ∃ event, events[valid]? = some event ∧ state.apply event = .error (.reject reason)

/-- A run applied to the end of a log answers how far it applies. -/
theorem applyRun_applied (events : List Bytes) : ∀ {log : List Bytes} {s : LedgerState C},
    FoldRun log s → ∃ state valid violation,
      applyRun s events = .ok (state, valid, violation) ∧
        Applied s events state valid violation := by
  induction events with
  | nil =>
    intro log s _
    exact ⟨s, 0, none, rfl, le_rfl, .nil, fun _ => rfl, by simp⟩
  | cons event events ih =>
    intro log s hlog
    rw [applyRun]
    rcases happly : s.apply event with (reason | site) | s'
    · refine ⟨s, 0, some reason, rfl, Nat.zero_le _, .nil, by simp, ?_⟩
      intro r hr
      exact ⟨event, rfl, Option.some.inj hr ▸ happly⟩
    · exact absurd happly ((LedgerState.anchored_of_run hlog).noPanic event site)
    · obtain ⟨state, valid, violation, hrest, happlied⟩ := ih (hlog.snoc happly)
      refine ⟨state, valid + 1, violation, ?_, ?_, ?_, ?_, ?_⟩
      · dsimp only
        rw [hrest]
        rfl
      · exact Nat.succ_le_succ happlied.valid_le
      · rw [List.take_succ_cons]
        exact happlied.run.cons happly
      · intro hnone
        rw [happlied.whole hnone, List.length_cons]
      · intro reason hreason
        rw [List.getElem?_cons_succ]
        exact happlied.stops reason hreason

/-! ## The overlap -/

/-- How a run compares with a log, as the overlap check answers it. -/
inductive Compared (log : List Bytes) (first : Nat) (events : List Bytes) : Overlap → Prop
  | agrees {fresh : Nat} (le : fresh ≤ events.length)
    (same : ∀ i < fresh, log[first + i]? = events[i]?)
    (ends : fresh = events.length ∨ first + fresh = log.length) :
    Compared log first events (.agrees fresh)
  | differs {i : Nat} {kept event : Bytes} (same : ∀ j < i, log[first + j]? = events[j]?)
    (kept_eq : log[first + i]? = some kept) (event_eq : events[i]? = some event)
    (ne : kept ≠ event) : Compared log first events (.differs (first + i) kept event)

/-- The overlap check reads and compares. -/
theorem run_overlap {store : LedgerStore C} {files : LedgerFiles C} {log : List Bytes}
    (h : files.Holds log) {headSeq first : Nat} (hhead : headSeq + 1 = log.length)
    {events : List Bytes} (rest : List Bytes) : ∀ offset, events.drop offset = rest →
    offset ≤ events.length → first + offset ≤ log.length →
    (∀ i < offset, log[first + i]? = events[i]?) →
    ∃ o, run FileOp.exec (overlap store headSeq first offset rest) files = (.ok o, files) ∧
      Compared log first events o := by
  induction rest with
  | nil =>
    intro offset hdrop hle _ hsame
    have hall : offset = events.length := le_antisymm hle (List.drop_eq_nil_iff.mp hdrop)
    exact ⟨_, rfl, .agrees hle hsame (.inl hall)⟩
  | cons event rest ih =>
    intro offset hdrop hle hend hsame
    have hlt : offset < events.length := by
      by_contra hge
      rw [List.drop_eq_nil_of_le (not_lt.mp hge)] at hdrop
      simp at hdrop
    have hevent : events[offset]? = some event := by
      rw [← List.head?_drop, hdrop]
      rfl
    rw [overlap]
    by_cases hpast : first + offset > headSeq
    · rw [if_pos hpast]
      exact ⟨_, rfl, .agrees hle hsame (.inr (by omega))⟩
    · obtain ⟨kept, hkept⟩ : ∃ kept, log[first + offset]? = some kept :=
        ⟨_, List.getElem?_eq_getElem (by omega)⟩
      rw [if_neg hpast, run_bind_of_ok (run_readEvent h hkept)]
      by_cases hne : kept ≠ event
      · rw [if_pos hne]
        exact ⟨_, rfl, .differs hsame hkept hevent hne⟩
      · rw [if_neg hne]
        refine ih (offset + 1) ?_ hlt (by omega) ?_
        · rw [← List.drop_drop, hdrop, List.drop_one, List.tail_cons]
        · intro i hi
          rcases Nat.lt_succ_iff_lt_or_eq.mp hi with hi | rfl
          · exact hsame i hi
          · rw [hkept, hevent, not_ne_iff.mp hne]

/-! ## Divergence -/

/-- The state folded from the stored events before a sequence. -/
theorem Sound.run_foldedTo {s : LedgerStorage C} (h : Sound s) (l : LedgerId) (rebuilt : Nat)
    {seq : Nat} (hseq : seq < s.countOf l) :
    ∃ shared, run StoreOp.exec (onFiles l (foldedTo (s.setup.ledger l) rebuilt seq)) s =
      (.ok shared, s) ∧ FoldRun ((s.logOf l).take seq) shared := by
  obtain ⟨cached, hhead, hcount⟩ := h.run_head l (s.setup.ledger l) rebuilt rfl rfl
  obtain ⟨shared, hshared, -⟩ : ∃ u, FoldRun ((s.logOf l).take seq) u ∧
      RunFrom (Accepts LedgerState.apply) u ((s.logOf l).drop seq) (s.stateOf l) := by
    apply RunFrom.split
    rw [List.take_append_drop]
    exact h.foldRun l
  refine ⟨shared, run_onFiles_reads (x := .ok shared) ?_, hshared⟩
  cases cached with
  | none =>
    rw [← hcount] at hseq
    simp at hseq
  | some head =>
    have hread : run FileOp.exec ((s.setup.ledger l : LedgerStore C).readFrom rebuilt 0 (some seq))
        (s.filesOf l) = (.ok ((((s.logOf l).drop 0).take seq).zipIdx 0 |>.map fun e => ⟨e.2, e.1⟩),
          s.filesOf l) := by
      rw [LedgerStore.readFrom, run_bind_of_ok hhead]
      dsimp only [Option.elim_some] at hcount ⊢
      rw [Nat.sub_zero, hcount, Nat.min_eq_left hseq.le]
      refine run_readCount (fun k _ => h.holds l k) seq 0 ?_
      rw [h.length_logOf]
      omega
    have hbytes : ((((s.logOf l).drop 0).take seq).zipIdx 0 |>.map fun e =>
        (⟨e.2, e.1⟩ : StoredEvent)).map StoredEvent.bytes = (s.logOf l).take seq := by
      rw [List.map_map, List.drop_zero]
      exact List.zipIdx_map_fst 0 _
    rw [foldedTo, run_bind_of_ok hread, hbytes, foldFrom_eq_ok.mpr hshared]
    rfl

/-- The store once a fork has been recorded. -/
def LedgerStorage.forked (s : LedgerStorage C) (record : ForkRecord C) (conflicting : EventId) :
    LedgerStorage C :=
  { s.withFiles record.ledger { s.filesOf record.ledger with
      forks := (s.filesOf record.ledger).forks.insert (toLex (record.seq, conflicting))
        (forkEntry record) } with
    index := { s.index with
      ledgers := s.index.ledgers.adjust record.ledger fun entry =>
        { entry with forks := insertFork entry.forks record } } }

/-- The record a push would keep of a fork. -/
def PushCall.record (call : PushCall C) (seq : Nat) (kept conflicting : Bytes) : ForkRecord C :=
  ⟨call.ledger, seq, kept, conflicting, call.clock.observed, call.provenance.endpoint⟩

@[simp] theorem PushCall.record_ledger (call : PushCall C) (seq : Nat) (kept conflicting : Bytes) :
    (call.record seq kept conflicting).ledger = call.ledger := rfl

/-- Whether a fork is recorded: it is not known yet and recording has not stopped. -/
def Entry.records (entry : Entry C) (cap : UInt32) (seq : Nat) (conflicting : EventId) : Bool :=
  !(entry.forks.any fun held =>
    held.seq == seq && signedEventId C held.conflicting == some conflicting) &&
    !entry.forksTruncated cap

/-- What keeping a fork answers and leaves. -/
theorem run_keepFork (s : LedgerStorage C) (call : PushCall C) (entry : Entry C) (fork : Fork)
    (seq : Nat) (kept conflicting : Bytes) :
    run StoreOp.exec (keepFork s.setup call s.index entry fork (call.record seq kept conflicting)) s =
      (.ok (), if entry.records s.setup.caps.forkRecords seq fork.conflicting then
        s.forked (call.record seq kept conflicting) fork.conflicting else s) := by
  unfold keepFork Entry.records
  by_cases hkeep : (!(entry.forks.any fun held =>
      held.seq == seq && signedEventId C held.conflicting == some fork.conflicting) &&
      !entry.forksTruncated s.setup.caps.forkRecords) = true
  · rw [if_pos hkeep]
    exact if_pos hkeep ▸ rfl
  · rw [if_neg hkeep]
    exact if_neg hkeep ▸ rfl

/-! ## The ways a push ends -/

/-- The stored state of a ledger, if it is held. -/
def LedgerStorage.preOf (s : LedgerStorage C) (ledger : LedgerId) : Option (LedgerState C) :=
  (s.index.ledgers.get? ledger).map Entry.state

/-- Whether the admission rule takes a push that folds to a state. -/
def LedgerStorage.takes (s : LedgerStorage C) (ledger : LedgerId) (post : LedgerState C) : Bool :=
  admits (s.home.canSignFor ledger) s.setup.policy s.advertised (s.preOf ledger) post

/-- The first event of a push that is not the stored one. -/
structure Differs (s : LedgerStorage C) (call : PushCall C) (first i : Nat)
    (kept conflicting : Bytes) : Prop where
  isNumbered : Numbered s.setup.overflowChecks first call.events
  same : ∀ j < i, (s.logOf call.ledger)[first + j]? = call.events[j]?
  kept_eq : (s.logOf call.ledger)[first + i]? = some kept
  conflicting_eq : call.events[i]? = some conflicting
  ne : kept ≠ conflicting

/-- A push agrees with everything stored from its first sequence on and goes past it. -/
structure Reaches (s : LedgerStorage C) (call : PushCall C) (first fresh : Nat)
    (state : LedgerState C) (valid : Nat) (violation : Option (Reason C)) : Prop where
  isNumbered : Numbered s.setup.overflowChecks first call.events
  same : ∀ i < fresh, (s.logOf call.ledger)[first + i]? = call.events[i]?
  ends : first + fresh = s.countOf call.ledger
  more : fresh < call.events.length
  applied : Applied (s.stateOf call.ledger) (call.events.drop fresh) state valid violation

/-- Where anything applies, something is stored. -/
theorem Reaches.taken_ne_nil {s : LedgerStorage C} {call : PushCall C} {first fresh valid : Nat}
    {state : LedgerState C} {violation : Option (Reason C)}
    (h : Reaches s call first fresh state valid violation) (hvalid : 0 < valid) :
    (call.events.drop fresh).take valid ≠ [] := by
  have := h.more
  simp only [ne_eq, List.take_eq_nil_iff, List.drop_eq_nil_iff]
  omega

/-- What a push that stores events answers. -/
def storedAnswer (s : LedgerStorage C) (call : PushCall C) (events : List Bytes) : PushOutcome :=
  ⟨s.countOf call.ledger + (events.length - 1), events.length % 2 ^ 32⟩

/-- The ways a push ends on a sound store. -/
inductive Pushed (s : LedgerStorage C) (call : PushCall C) :
    Outcome StoreError PushOutcome → LedgerStorage C → Prop
  /-- Nothing was offered for a held ledger. -/
  | nothing (hevents : call.events = [])
      (hheld : (s.index.ledgers.get? call.ledger).isSome = true) :
    Pushed s call (.ok ⟨s.countOf call.ledger - 1, 0⟩) s
  /-- Nothing was offered for a ledger this home does not hold. -/
  | nothingHeld (hevents : call.events = []) (hheld : s.index.ledgers.get? call.ledger = none) :
    Pushed s call (Outcome.reject (refusal call.ledger (LedgerState.default : LedgerState C)
      s.advertised.entries)) s
  /-- The run is not contiguous and ascending. -/
  | unnumbered {seq : Nat} {msg : String} (hevents : call.events ≠ [])
      (hrun : ∀ first, ¬ Numbered s.setup.overflowChecks first call.events) :
    Pushed s call (Outcome.reject (malformed seq msg)) s
  /-- The numbers of the run leave the range of a `u64`. -/
  | overflow {site : String} (hevents : call.events ≠ [])
      (hrun : ∀ first, ¬ Numbered s.setup.overflowChecks first call.events) :
    Pushed s call (Outcome.panic site) s
  /-- The run starts past what is stored. -/
  | gap {first : Nat} {msg : String}
      (hrun : Numbered s.setup.overflowChecks first call.events)
      (hgap : s.countOf call.ledger < first) :
    Pushed s call (Outcome.reject (malformed first msg)) s
  /-- Every offered event is stored. -/
  | known {first : Nat} (hrun : Numbered s.setup.overflowChecks first call.events)
      (hsame : ∀ i < call.events.length, (s.logOf call.ledger)[first + i]? = call.events[i]?) :
    Pushed s call (.ok ⟨s.countOf call.ledger - 1, 0⟩) s
  /-- An event differs from the stored one and is no fork of it. -/
  | divergent {first i : Nat} {kept conflicting : Bytes} {shared : LedgerState C} {msg : String}
      (hdiffers : Differs s call first i kept conflicting)
      (hshared : FoldRun ((s.logOf call.ledger).take (first + i)) shared)
      (hfork : ∀ fork, ¬ Forks shared kept conflicting fork) :
    Pushed s call (Outcome.reject (.invalid (first + i) msg)) s
  /-- An event forks the ledger where another is stored. -/
  | fork {first i : Nat} {kept conflicting : Bytes} {shared : LedgerState C} {fork : Fork}
      {entry : Entry C} {msg : String} (hdiffers : Differs s call first i kept conflicting)
      (hshared : FoldRun ((s.logOf call.ledger).take (first + i)) shared)
      (hfork : Forks shared kept conflicting fork)
      (hentry : s.index.ledgers.get? call.ledger = some entry) :
    Pushed s call (Outcome.reject (.fork (first + i) msg))
      (if entry.records s.setup.caps.forkRecords (first + i) fork.conflicting then
        s.forked (call.record (first + i) kept conflicting) fork.conflicting else s)
  /-- No event past what is stored applies. -/
  | stops {first fresh : Nat} {state : LedgerState C} {reason : Reason C}
      (hreaches : Reaches s call first fresh state 0 (some reason))
      (htakes : s.index.ledgers.get? call.ledger ≠ none → s.takes call.ledger state = true) :
    Pushed s call (Outcome.reject (.invalid (first + fresh) reason.display)) s
  /-- A first push names another ledger than its events do. -/
  | foreign {first : Nat} {state : LedgerState C} {valid : Nat} {violation : Option (Reason C)}
      {msg : String} (hreaches : Reaches s call first 0 state valid violation)
      (hvalid : 0 < valid) (hheld : s.index.ledgers.get? call.ledger = none)
      (hledger : state.ledger ≠ some call.ledger) :
    Pushed s call (Outcome.reject (.invalid 0 msg)) s
  /-- The admission rule does not take the push. -/
  | notAdmitted {first fresh : Nat} {state : LedgerState C} {valid : Nat}
      {violation : Option (Reason C)}
      (hreaches : Reaches s call first fresh state valid violation)
      (htakes : s.takes call.ledger state = false) :
    Pushed s call (Outcome.reject (refusal call.ledger state s.advertised.entries)) s
  /-- A cap leaves no room for what applies. -/
  | tooLarge {first fresh : Nat} {state : LedgerState C} {valid : Nat}
      {violation : Option (Reason C)} {msg : String}
      (hreaches : Reaches s call first fresh state valid violation) (hvalid : 0 < valid)
      (htakes : s.takes call.ledger state = true)
      (hroom : ¬ Room s.setup.caps s.index call.ledger ((call.events.drop fresh).take valid).length
        (((call.events.drop fresh).take valid).map List.length).sum) :
    Pushed s call (Outcome.reject (tooLarge msg)) s
  /-- What applies is stored. -/
  | stored {first fresh : Nat} {state : LedgerState C} {valid : Nat}
      {violation : Option (Reason C)}
      (hreaches : Reaches s call first fresh state valid violation) (hvalid : 0 < valid)
      (hledger : state.ledger = some call.ledger) (htakes : s.takes call.ledger state = true)
      (hroom : Room s.setup.caps s.index call.ledger ((call.events.drop fresh).take valid).length
        (((call.events.drop fresh).take valid).map List.length).sum) :
    Pushed s call (answer (first + (fresh + valid)) violation
        (storedAnswer s call ((call.events.drop fresh).take valid)))
      (s.landed call state ((call.events.drop fresh).take valid))

namespace Sound

variable {s : LedgerStorage C} {call : PushCall C} {first fresh i valid : Nat}
  {state : LedgerState C} {violation : Option (Reason C)} {entry : Entry C}

/-- The state of an indexed ledger is its entry's. -/
theorem stateOf_eq (hl : s.index.ledgers.get? call.ledger = some entry) :
    s.stateOf call.ledger = entry.state := by
  rw [LedgerStorage.stateOf, hl]
  rfl

/-- The count of an indexed ledger is one past its head. -/
theorem countOf_eq (hl : s.index.ledgers.get? call.ledger = some entry) :
    s.countOf call.ledger = entry.headSeq + 1 := by
  rw [LedgerStorage.countOf, hl]
  rfl

/-- A divergence is a fork or an invalid event. -/
theorem divergence (h : Sound s) {kept conflicting : Bytes}
    (hdiffers : Differs s call first i kept conflicting)
    (hentry : s.index.ledgers.get? call.ledger = some entry) :
    (recordDivergence s.setup call (first + i) kept conflicting).Ensures StoreOp.exec s
      (Pushed s call) := by
  have hlt : first + i < s.countOf call.ledger := by
    rw [← h.length_logOf]
    exact (List.getElem?_eq_some_iff.mp hdiffers.kept_eq).1
  obtain ⟨shared, hfolded, hshared⟩ := h.run_foldedTo call.ledger call.clock.rebuilt hlt
  -- The stored event verifies after what is stored below it.
  obtain ⟨u, u', hu, -, ⟨st⟩, -⟩ := (h.foldRun call.ledger).at_index hdiffers.kept_eq
  obtain rfl := hu.functional hshared
  have hkept := apply_iff.mpr ⟨st⟩
  rcases validateForkRecord_cases hshared hkept conflicting with ⟨fork, hfork⟩ | ⟨e, he, hnot⟩
  · refine Ensures.of_run (r := Outcome.reject (.fork (first + i)
      s!"another validly signed event is stored at seq {first + i}")) ?_
      (.fork hdiffers hshared hfork hentry)
    rw [recordDivergence, run_bind_of_ok hfolded,
      run_lift_ok_bind (Outcome.mapReject_eq_ok.mpr (validateForkRecord_eq_ok.mpr hfork)),
      Shared.run_readIndex_bind, hentry, run_lift_ok_bind (Outcome.expect_some _ _)]
    exact run_bind_of_ok (run_keepFork s call entry fork (first + i) kept conflicting)
  · have hnone : ∀ fork, ¬ Forks u kept conflicting fork := by
      intro fork hfork
      rw [validateForkRecord_eq_ok.mpr hfork] at he
      simp at he
    obtain ⟨msg, hmsg⟩ : ∃ msg,
        divergenceError call.ledger (first + i) e = .invalid (first + i) msg := by
      cases e with
      | kept violation => exact absurd rfl (hnot violation)
      | _ => exact ⟨_, rfl⟩
    refine Ensures.of_run (r := Outcome.reject (.invalid (first + i) msg)) ?_
      (.divergent hdiffers hshared hnone)
    rw [recordDivergence, run_bind_of_ok hfolded,
      run_lift_error_bind (congrArg (Outcome.mapReject _) he)]
    rw [hmsg]
    rfl

/-- An admitted run past what is stored lands, unless a cap refuses it. -/
theorem storing (h : Sound s) (hreaches : Reaches s call first fresh state valid violation)
    (hvalid : 0 < valid) (hledger : state.ledger = some call.ledger)
    (htakes : s.takes call.ledger state = true) :
    (do
      let outcome ← storeRun s.setup call state ((call.events.drop fresh).take valid)
      Program.lift (answer (first + (fresh + valid)) violation outcome) :
        OnNode C StoreError PushOutcome).Ensures StoreOp.exec s (Pushed s call) := by
  have hne := hreaches.taken_ne_nil hvalid
  by_cases hroom : Room s.setup.caps s.index call.ledger
      ((call.events.drop fresh).take valid).length
      (((call.events.drop fresh).take valid).map List.length).sum
  · refine Ensures.of_run ?_ (.stored hreaches hvalid hledger htakes hroom)
    rw [run_bind_of_ok (h.run_storeRun hne hreaches.applied.run hroom)]
    rfl
  · cases hcaps : checkCaps s.setup.caps s.index call.ledger
      ((call.events.drop fresh).take valid).length
      (((call.events.drop fresh).take valid).map List.length).sum with
    | ok u => exact absurd (checkCaps_eq_ok.mp hcaps) hroom
    | error e =>
      obtain ⟨msg, rfl⟩ := checkCaps_error hcaps
      refine Ensures.of_run (r := Outcome.reject (tooLarge msg)) ?_
        (.tooLarge hreaches hvalid htakes hroom)
      apply run_bind_of_error
      rw [storeRun, Shared.run_readIndex_bind, if_neg hne, run_lift_error_bind hcaps]

end Sound

/-- Admission reads, and takes or refuses. -/
theorem run_admitPush (s : LedgerStorage C) (ledger : LedgerId) (post : LedgerState C) :
    run StoreOp.exec (admitPush s.setup ledger (s.preOf ledger) post) s =
      (Outcome.rejectIf (s.takes ledger post = false)
        (refusal ledger post s.advertised.entries), s) := rfl

/-- A push past what is stored goes on once it is admitted. -/
theorem Reaches.admitting {s : LedgerStorage C} {call : PushCall C} {first fresh valid : Nat}
    {state : LedgerState C} {violation : Option (Reason C)} {k : OnNode C StoreError PushOutcome}
    (hreaches : Reaches s call first fresh state valid violation)
    (hk : s.takes call.ledger state = true → k.Ensures StoreOp.exec s (Pushed s call)) :
    (do
      admitPush s.setup call.ledger (s.preOf call.ledger) state
      k : OnNode C StoreError PushOutcome).Ensures StoreOp.exec s (Pushed s call) := by
  by_cases htakes : s.takes call.ledger state = false
  · refine Ensures.of_run (run_bind_of_error ?_) (.notAdmitted hreaches htakes)
    rw [run_admitPush, Outcome.rejectIf, if_pos htakes]
    rfl
  · refine Ensures.after ((run_admitPush s call.ledger state).trans
      (congrArg (·, s) (Outcome.rejectIf_of_not htakes))) (hk ?_)
    simpa using htakes

namespace Sound

variable {s : LedgerStorage C} {call : PushCall C} {first : Nat}

/-- A first push. -/
theorem ingested (h : Sound s) (hrun : Numbered s.setup.overflowChecks first call.events)
    (hheld : s.index.ledgers.get? call.ledger = none) :
    (ingest s.setup call first).Ensures StoreOp.exec s (Pushed s call) := by
  have hcount : s.countOf call.ledger = 0 := by
    rw [LedgerStorage.countOf, hheld]
    rfl
  have hstate : s.stateOf call.ledger = LedgerState.default := by
    rw [LedgerStorage.stateOf, hheld]
    rfl
  have hpre : s.preOf call.ledger = none := by
    rw [LedgerStorage.preOf, hheld]
    rfl
  obtain ⟨event, rest, hevents, -⟩ := id hrun
  refine Ensures.lift_bind (fun _ hfirst => ?_) fun e he => ?_
  swap
  · obtain ⟨hfirst, rfl⟩ := Outcome.rejectIf_eq_error.mp he
    exact .gap hrun (by omega)
  have hzero : first = 0 := not_ne_iff.mp (Outcome.rejectIf_eq_ok.mp hfirst)
  obtain ⟨state, valid, violation, happly, happlied⟩ :=
    applyRun_applied call.events (RunFrom.nil : FoldRun [] (LedgerState.default : LedgerState C))
  have hreaches : Reaches s call first 0 state valid violation := by
    refine ⟨hrun, by simp, by omega, by simp [hevents], ?_⟩
    rw [hstate, List.drop_zero]
    exact happlied
  refine Ensures.after (congrArg (·, s) happly) ?_
  dsimp only
  by_cases hvalid : valid = 0
  · subst hvalid
    rw [if_pos rfl]
    cases hviolation : violation with
    | none =>
      have := happlied.whole hviolation
      simp [hevents] at this
    | some reason =>
      subst hviolation
      have hpushed := Pushed.stops hreaches fun hsome => absurd hheld hsome
      rw [hzero] at hpushed
      exact hpushed
  · rw [if_neg hvalid]
    refine Ensures.lift_bind (fun _ hledger => ?_) fun e he => ?_
    swap
    · obtain ⟨hledger, rfl⟩ := Outcome.rejectIf_eq_error.mp he
      exact .foreign hreaches (Nat.pos_of_ne_zero hvalid) hheld hledger
    have hledger := not_ne_iff.mp (Outcome.rejectIf_eq_ok.mp hledger)
    rw [← hpre]
    refine hreaches.admitting fun htakes => ?_
    have hstored := h.storing hreaches (Nat.pos_of_ne_zero hvalid) hledger htakes
    rw [hzero, List.drop_zero, Nat.zero_add, Nat.zero_add] at hstored
    exact hstored

/-- A push against a held ledger. -/
theorem spliced (h : Sound s) (hrun : Numbered s.setup.overflowChecks first call.events)
    {entry : Entry C} (hentry : s.index.ledgers.get? call.ledger = some entry) :
    (splice s.setup call first).Ensures StoreOp.exec s (Pushed s call) := by
  have hcount := countOf_eq hentry
  have hstate := stateOf_eq hentry
  have hpre : s.preOf call.ledger = some entry.state := by
    rw [LedgerStorage.preOf, hentry]
    rfl
  have hlen := h.length_logOf call.ledger
  refine Ensures.after (a := s.index) (t := s) rfl ?_
  rw [hentry]
  refine Ensures.after (a := entry) (t := s) rfl ?_
  refine Ensures.lift_bind (fun _ hfirst => ?_) fun e he => ?_
  swap
  · obtain ⟨hgap, rfl⟩ := Outcome.rejectIf_eq_error.mp he
    exact .gap hrun (by omega)
  have hle : first ≤ s.countOf call.ledger := by
    have := Outcome.rejectIf_eq_ok.mp hfirst
    omega
  obtain ⟨o, hoverlap, hcompared⟩ := run_overlap (h.holds call.ledger) (hcount.symm.trans hlen.symm)
    call.events 0 rfl (Nat.zero_le _) (hle.trans hlen.ge) (by simp)
  refine Ensures.after (run_onFiles_reads hoverlap) ?_
  cases hcompared with
  | @differs i kept conflicting hsame hkept hconflicting hne =>
    exact h.divergence ⟨hrun, hsame, hkept, hconflicting, hne⟩ hentry
  | @agrees fresh hfresh hsame hends =>
    dsimp only
    by_cases hall : call.events.drop fresh = []
    · have hwhole : fresh = call.events.length := le_antisymm hfresh (List.drop_eq_nil_iff.mp hall)
      subst hwhole
      rw [if_pos hall]
      have hpushed := Pushed.known hrun hsame
      rw [hcount, Nat.add_sub_cancel] at hpushed
      exact hpushed
    · have hmore : fresh < call.events.length := by
        rwa [List.drop_eq_nil_iff, not_le] at hall
      obtain ⟨state, valid, violation, happly, happlied⟩ :=
        applyRun_applied (call.events.drop fresh) (hstate ▸ h.foldRun call.ledger)
      have hreaches : Reaches s call first fresh state valid violation :=
        ⟨hrun, hsame, by omega, hmore, hstate ▸ happlied⟩
      rw [if_neg hall, extend]
      refine Ensures.after (congrArg (·, s) happly) ?_
      dsimp only
      rw [← hpre]
      refine hreaches.admitting fun htakes => ?_
      by_cases hvalid : valid = 0
      · subst hvalid
        cases hviolation : violation with
        | none =>
          have := happlied.whole hviolation
          rw [List.length_drop] at this
          omega
        | some reason =>
          subst hviolation
          exact .stops hreaches fun _ => htakes
      · refine h.storing hreaches (Nat.pos_of_ne_zero hvalid) ?_ htakes
        -- A held ledger keeps its id.
        obtain ⟨timestampMs, hhead⟩ := (h.heldLog hentry).head
        obtain ⟨-, -, -, hledger⟩ := fixed_of_runFrom happlied.run (by simp [hhead])
        exact hledger.trans (h.heldLog hentry).ledger

end Sound

/-- A `u64` sum fails by overflowing only. -/
theorem addU64_error {ε : Type} {checks : Bool} {a b : Nat} {e : Fault ε}
    (h : addU64 checks a b = .error e) : ∃ site, e = .panic site := by
  unfold addU64 at h
  split_ifs at h
  exact ⟨_, (Except.error.inj h).symm⟩

/-- An event without a number is malformed. -/
theorem seqOf_error {event : Bytes} {e : Fault StoreError} (h : seqOf event = .error e) :
    ∃ seq msg, e = .reject (malformed seq msg) := by
  unfold seqOf at h
  cases hseq : signedEventSeq event with
  | some seq => simp [hseq] at h
  | none =>
    rw [hseq] at h
    exact ⟨_, _, (Except.error.inj h).symm⟩

/-- The run check refuses or overflows. -/
theorem checkRun_error {checks : Bool} {first : Nat} (events : List Bytes) :
    ∀ {offset : Nat} {e : Fault StoreError}, checkRun checks first offset events = .error e →
      (∃ seq msg, e = .reject (malformed seq msg)) ∨ ∃ site, e = .panic site := by
  induction events with
  | nil => simp [checkRun]
  | cons event events ih =>
    intro offset e he
    rw [checkRun, Outcome.bind_eq_error] at he
    rcases he with he | ⟨want, -, he⟩
    · exact .inr (addU64_error he)
    rw [Outcome.bind_eq_error] at he
    rcases he with he | ⟨seq, -, he⟩
    · exact .inl (seqOf_error he)
    rw [Outcome.bind_eq_error] at he
    rcases he with he | ⟨_, -, he⟩
    · exact .inl ⟨_, _, (Outcome.rejectIf_eq_error.mp he).2⟩
    · exact ih he

/-- Once the index is locked, a push ends in one of these ways. -/
theorem Sound.pushedLocked {s : LedgerStorage C} (h : Sound s) (call : PushCall C) :
    (pushLocked s.setup call).Ensures StoreOp.exec s (Pushed s call) := by
  refine Ensures.after (a := s.index) (t := s) rfl ?_
  cases hevents : call.events with
  | nil =>
    cases hentry : s.index.ledgers.get? call.ledger with
    | none => exact .nothingHeld hevents hentry
    | some entry =>
      have hpushed := Pushed.nothing hevents (by rw [hentry]; rfl)
      rw [countOf_eq hentry, Nat.add_sub_cancel] at hpushed
      exact hpushed
  | cons event rest =>
    have hne : call.events ≠ [] := by simp [hevents]
    dsimp only
    refine Ensures.lift_bind (fun first hfirst => ?_) fun e he => ?_
    swap
    · obtain ⟨seq, msg, rfl⟩ := seqOf_error he
      refine .unnumbered hne ?_
      rintro first ⟨_, _, heq, hseq, -⟩
      obtain ⟨rfl, rfl⟩ := List.cons.inj (hevents.symm.trans heq)
      simp [hseq] at he
    rw [← hevents]
    refine Ensures.lift_bind (fun _ hcheck => ?_) fun e he => ?_
    swap
    · have hnot : ∀ first, ¬ Numbered s.setup.overflowChecks first call.events := by
        rintro start ⟨_, _, heq, hseq, hcheck⟩
        obtain ⟨rfl, rfl⟩ := List.cons.inj (hevents.symm.trans heq)
        obtain rfl : first = start := Except.ok.inj (hfirst.symm.trans hseq)
        simp [hcheck] at he
      rcases checkRun_error _ he with ⟨seq, msg, rfl⟩ | ⟨site, rfl⟩
      · exact .unnumbered hne hnot
      · exact .overflow hne hnot
    have hrun : Numbered s.setup.overflowChecks first call.events :=
      ⟨event, rest, hevents, hfirst, hcheck⟩
    cases hentry : s.index.ledgers.get? call.ledger with
    | none => exact h.ingested hrun hentry
    | some entry => exact h.spliced hrun hentry

/-- Every push on a sound store ends in one of these ways. -/
theorem Sound.pushed {s : LedgerStorage C} (h : Sound s) (call : PushCall C) :
    Pushed s call (s.push call).1 (s.push call).2 := by
  have hpush : s.push call = run StoreOp.exec (pushLocked s.setup call) s := by
    rw [LedgerStorage.push, push, Shared.run_lockIndex_bind, run_andFinally]
    rfl
  rw [hpush]
  exact h.pushedLocked call

end Mabel.Node
