import Mabel.Node.Correctness.Provenance
import Mabel.Node.Quiet

/-!
# What the admission rule lets in

For every push to any home, sound or not: an event file or a folded state changes only for
the pushed ledger, and only after the admission rule took the state its valid part folds to.
The verdicts the rule reads are current as long as they were current before.
-/

namespace Mabel.Node

open Wire Proto Net Machine Program

variable {C : Crypto}

/-! ## What a push may change -/

/-- Nothing that is stored or folded has changed. -/
structure Unchanged (s t : LedgerStorage C) : Prop where
  setup : t.setup = s.setup
  identities : t.home.identities = s.home.identities
  advertised : t.advertised = s.advertised
  states : ∀ l, t.preOf l = s.preOf l
  events : ∀ l, (t.filesOf l).events = (s.filesOf l).events

/-- What the valid part of a push folds to. -/
def LedgerStorage.FoldsTo (s : LedgerStorage C) (call : PushCall C) (post : LedgerState C) : Prop :=
  ∃ fresh valid violation, (s.preOf call.ledger = none → fresh = 0) ∧
    applyRun ((s.preOf call.ledger).getD LedgerState.default) (call.events.drop fresh) =
      .ok (post, valid, violation)

/-- The pushed ledger has been extended to a state the admission rule takes, which is what
the valid part of the push folds to. -/
structure Extended (s : LedgerStorage C) (call : PushCall C) (t : LedgerStorage C)
    (post : LedgerState C) : Prop where
  setup : t.setup = s.setup
  identities : t.home.identities = s.home.identities
  advertised : t.advertised = recheckedFor s.setup.policy t.index call.ledger s.advertised
  states : ∀ l, l ≠ call.ledger → t.preOf l = s.preOf l
  events : ∀ l, l ≠ call.ledger → (t.filesOf l).events = (s.filesOf l).events
  folded : t.preOf call.ledger = some post
  folds : s.FoldsTo call post
  takes : s.takes call.ledger post = true

/-- A push leaves what is stored unchanged, or extends its ledger. -/
def Admitted (s : LedgerStorage C) (call : PushCall C) (t : LedgerStorage C) : Prop :=
  Unchanged s t ∨ ∃ post, Extended s call t post

/-- A quiet step changes no admission. -/
theorem Quiet.unchanged {s t : LedgerStorage C} (h : Quiet s t) : Unchanged s t := by
  refine ⟨h.setup, h.identities, h.advertised, fun l => ?_, h.events⟩
  rw [LedgerStorage.preOf, h.index]
  rfl

theorem Quiet.admitted {s t : LedgerStorage C} (h : Quiet s t) (call : PushCall C) :
    Admitted s call t := .inl h.unchanged

/-- A push with events makes a batch with events. -/
theorem newEvents_ne_nil {start : Nat} {events : List Bytes} {batch : List NewEvent}
    (hne : events ≠ []) (h : newEvents C start events = .ok batch) : batch ≠ [] := by
  obtain ⟨event, rest, rfl⟩ := List.exists_cons_of_ne_nil hne
  rw [newEvents, Outcome.bind_eq_ok] at h
  obtain ⟨id, -, h⟩ := h
  rw [Outcome.bind_eq_ok] at h
  obtain ⟨batch', -, h⟩ := h
  rw [← Except.ok.inj h]
  simp

/-- The state before a push is the recorded one. -/
theorem preOf_record (index : Index C) (l l' : LedgerId) (state : LedgerState C) (written : Head)
    (bytes : Nat) (noted : LedgerMeta C) :
    ((index.record l state written bytes noted).ledgers.get? l').map Entry.state =
      if l' = l then some state else (index.ledgers.get? l').map Entry.state := by
  rw [Index.record, SortedMap.get?_insert]
  by_cases hl : l' = l
  · rw [if_pos hl, if_pos hl]
    rfl
  · rw [if_neg hl, if_neg hl]

/-- Storing a run the rule takes extends the ledger, or stores nothing. -/
theorem admitted_storeRun {s t : LedgerStorage C} (h : Quiet s t) {call : PushCall C}
    {post : LedgerState C} (hfolds : s.FoldsTo call post)
    (htakes : s.takes call.ledger post = true) (events : List Bytes) :
    (storeRun s.setup call post events).Ensures StoreOp.exec t fun _ => Admitted s call := by
  refine Ensures.after (a := t.index) (t := t) rfl ?_
  by_cases hne : events = []
  · rw [if_pos hne]
    exact h.admitted call
  rw [if_neg hne]
  refine Ensures.lift_bind (fun _ _ => ?_) fun e _ => h.admitted call
  refine Ensures.lift_bind (fun batch hbatch => ?_) fun e _ => h.admitted call
  obtain ⟨files, hnote, hfiles⟩ := run_noteSource t call
  have hevents : files.events = (t.filesOf call.ledger).events := by
    change ({ files with present := true } : LedgerFiles C).events = _
    rw [hfiles]
  refine Ensures.after hnote ?_
  have hquiet : Quiet s (t.withFiles call.ledger files) := h.withFiles hevents
  have hcases := append_cases (s.setup.ledger call.ledger : LedgerStore C) call.clock.rebuilt
    call.clock.written (newEvents_ne_nil hne hbatch)
    ((t.withFiles call.ledger files).filesOf call.ledger)
  rcases happend : run FileOp.exec ((s.setup.ledger call.ledger : LedgerStore C).append
    call.clock.rebuilt call.clock.written batch)
    ((t.withFiles call.ledger files).filesOf call.ledger) with ⟨x, after⟩
  rw [Ensures, happend] at hcases
  rcases hcases with ⟨e, rfl, hsame⟩ | ⟨written, rfl⟩
  · cases e with
    | reject error =>
      exact Ensures.of_run (run_bind_of_error (run_onFiles happend))
        ((hquiet.withFiles hsame).admitted call)
    | panic site =>
      exact Ensures.of_run (run_bind_of_error (run_onFiles happend))
        ((hquiet.withFiles hsame).admitted call)
  · refine Ensures.after (run_onFiles_ok happend) ?_
    refine Ensures.after (a := written) (congrArg (·, _) (Outcome.expect_some _ _)) ?_
    refine Ensures.after (a := ()) (t := _) rfl ?_
    refine Ensures.after (run_recheckFor ..) ?_
    refine .inr ⟨post, h.setup, h.identities, ?_, ?_, ?_, ?_, hfolds, htakes⟩
    · change recheckedFor _ _ _ t.advertised = _
      rw [h.advertised]
      rfl
    · intro l hl
      refine (preOf_record ..).trans ?_
      rw [if_neg hl, h.index]
      rfl
    · intro l hl
      have hfile : ∀ (u : LedgerStorage C) files, ((u.withFiles call.ledger files).filesOf l) =
          u.filesOf l := by
        intro u files
        rw [LedgerStorage.filesOf_withFiles, if_neg hl]
      change ((((t.withFiles call.ledger files).withFiles call.ledger after).filesOf l).events = _)
      rw [hfile, hfile]
      exact h.events l
    · refine (preOf_record ..).trans ?_
      rw [if_pos rfl]

theorem Quiet.takes_eq {s t : LedgerStorage C} (h : Quiet s t) (ledger : LedgerId)
    (post : LedgerState C) : t.takes ledger post = s.takes ledger post := by
  rw [LedgerStorage.takes, LedgerStorage.takes, canSignFor_congr h.identities, h.setup, h.advertised, h.unchanged.states]

/-- What follows a decision of the rule runs only where the rule takes the state. -/
theorem admitted_admitPush {s t : LedgerStorage C} (h : Quiet s t) {call : PushCall C}
    {post : LedgerState C} {k : Unit → OnNode C StoreError PushOutcome}
    (hk : s.takes call.ledger post = true →
      (k ()).Ensures StoreOp.exec t fun _ => Admitted s call) :
    (admitPush s.setup call.ledger (s.preOf call.ledger) post >>= k).Ensures StoreOp.exec t
      fun _ => Admitted s call := by
  have hadmitted := run_admitPush t call.ledger post
  rw [h.setup, h.unchanged.states, h.takes_eq] at hadmitted
  by_cases htakes : s.takes call.ledger post = false
  · rw [Outcome.rejectIf, if_pos htakes] at hadmitted
    exact Ensures.of_run (run_bind_of_error hadmitted) (h.admitted call)
  · rw [Outcome.rejectIf_of_not htakes] at hadmitted
    exact Ensures.after hadmitted (hk (by simpa using htakes))

/-- Recording a fork stores no event and folds nothing. -/
theorem admitted_keepFork {s t : LedgerStorage C} (h : Quiet s t) (call : PushCall C)
    (entry : Entry C) (fork : Fork) (seq : Nat) (kept conflicting : Bytes) :
    (keepFork s.setup call t.index entry fork (call.record seq kept conflicting)).Ensures
      StoreOp.exec t fun _ => Unchanged s := by
  have hrun := run_keepFork t call entry fork seq kept conflicting
  rw [h.setup] at hrun
  refine Ensures.of_run hrun ?_
  by_cases hrecords : entry.records s.setup.caps.forkRecords seq fork.conflicting = true
  · rw [if_pos hrecords]
    refine ⟨h.setup, h.identities, h.advertised, fun l => ?_, fun l => ?_⟩
    · rw [LedgerStorage.preOf, LedgerStorage.get?_forked, h.index]
      by_cases hl : l = call.ledger
      · refine (congrArg _ (if_pos hl)).trans ?_
        rw [Option.map_map]
        rfl
      · exact congrArg _ (if_neg hl)
    · rw [(t.filesOf_forked _ _ l).1]
      exact h.events l
  · rw [if_neg hrecords]
    exact h.unchanged

/-- Recording a divergence stores no event. -/
theorem admitted_recordDivergence {s t : LedgerStorage C} (h : Quiet s t) (call : PushCall C)
    (seq : Nat) (kept conflicting : Bytes) :
    (recordDivergence s.setup call seq kept conflicting).Ensures StoreOp.exec t
      fun _ => Admitted s call := by
  refine Ensures.bind (h.onFiles ((foldedTo_onHead ..).mono fun _ => FileOp.OnHead.looks) _) (fun shared u hu => ?_)
    fun e u hu => hu.admitted call
  refine Ensures.lift_bind (fun fork _ => ?_) fun e _ => hu.admitted call
  refine Ensures.after (a := u.index) (t := u) rfl ?_
  refine Ensures.lift_bind (fun entry _ => ?_) fun e _ => hu.admitted call
  refine Ensures.bind (admitted_keepFork hu call entry fork seq kept conflicting)
    (fun _ v hv => .inl hv) fun e v hv => .inl hv

/-- A push against a held ledger stores only what the rule takes. -/
theorem admitted_splice (s : LedgerStorage C) (call : PushCall C) (first : Nat) :
    (splice s.setup call first).Ensures StoreOp.exec s fun _ => Admitted s call := by
  have h := Quiet.refl s
  refine Ensures.after (a := s.index) (t := s) rfl ?_
  refine Ensures.lift_bind (fun entry hentry => ?_) fun e _ => h.admitted call
  have hpre : s.preOf call.ledger = some entry.state := by
    rw [LedgerStorage.preOf, Outcome.expect_eq_ok.mp hentry]
    rfl
  refine Ensures.lift_bind (fun _ _ => ?_) fun e _ => h.admitted call
  refine Ensures.bind (h.onFiles ((overlap_onHead ..).mono fun _ => FileOp.OnHead.looks) _) (fun compared t ht => ?_)
    fun e t ht => ht.admitted call
  cases compared with
  | differs seq stored event => exact admitted_recordDivergence ht call seq stored event
  | agrees fresh =>
    dsimp only
    by_cases hall : call.events.drop fresh = []
    · rw [if_pos hall]
      exact ht.admitted call
    rw [if_neg hall]
    refine Ensures.lift_bind (fun folded hfolded => ?_) fun e _ => ht.admitted call
    obtain ⟨post, valid, violation⟩ := folded
    dsimp only
    rw [← hpre]
    refine admitted_admitPush ht fun htakes => ?_
    have hfolds : s.FoldsTo call post := by
      refine ⟨fresh, valid, violation, by simp [hpre], ?_⟩
      rw [hpre]
      exact hfolded
    exact Ensures.bind (admitted_storeRun ht hfolds htakes _) (fun _ u hu => hu)
      fun e u hu => hu

/-- A first push stores only what the rule takes. -/
theorem admitted_ingest (s : LedgerStorage C) (call : PushCall C) (first : Nat)
    (hpre : s.preOf call.ledger = none) :
    (ingest s.setup call first).Ensures StoreOp.exec s fun _ => Admitted s call := by
  have h := Quiet.refl s
  refine Ensures.lift_bind (fun _ _ => ?_) fun e _ => h.admitted call
  refine Ensures.lift_bind (fun folded hfolded => ?_) fun e _ => h.admitted call
  obtain ⟨post, valid, violation⟩ := folded
  dsimp only
  by_cases hvalid : valid = 0
  · rw [if_pos hvalid]
    exact Ensures.lift_bind (fun _ _ => h.admitted call) fun e _ => h.admitted call
  rw [if_neg hvalid]
  refine Ensures.lift_bind (fun _ _ => ?_) fun e _ => h.admitted call
  rw [← hpre]
  refine admitted_admitPush h fun htakes => ?_
  have hfolds : s.FoldsTo call post := by
    refine ⟨0, valid, violation, fun _ => rfl, ?_⟩
    rw [hpre, List.drop_zero]
    exact hfolded
  exact Ensures.bind (admitted_storeRun h hfolds htakes _) (fun _ u hu => hu) fun e u hu => hu

/-- Whatever is stored before, a push changes its ledger only as the rule allows. -/
theorem admitted_push (s : LedgerStorage C) (call : PushCall C) :
    Admitted s call (s.push call).2 := by
  have h := Quiet.refl s
  have hlocked : (pushLocked s.setup call).Ensures StoreOp.exec s fun _ => Admitted s call := by
    refine Ensures.after (a := s.index) (t := s) rfl ?_
    cases hevents : call.events with
    | nil =>
      cases hentry : s.index.ledgers.get? call.ledger with
      | none => exact h.admitted call
      | some entry => exact h.admitted call
    | cons event rest =>
      dsimp only
      refine Ensures.lift_bind (fun first _ => ?_) fun e _ => h.admitted call
      refine Ensures.lift_bind (fun _ _ => ?_) fun e _ => h.admitted call
      cases hentry : s.index.ledgers.get? call.ledger with
      | none =>
        refine admitted_ingest s call first ?_
        rw [LedgerStorage.preOf, hentry]
        rfl
      | some entry => exact admitted_splice s call first
  rw [LedgerStorage.push, push, Shared.run_lockIndex_bind, run_andFinally]
  exact hlocked

/-! ## The verdicts stay current -/

/-- The recorded verdicts are those on the index and the endpoint as they are. -/
def Current (s : LedgerStorage C) : Prop :=
  s.advertised.entries = verdicts s.setup.policy s.index s.advertised.endpoint

/-- A verdict looks at the folded state of its witness only. -/
theorem gapFor_congr {s t : LedgerStorage C} {witness : IdentityId}
    (h : t.preOf witness = s.preOf witness) (endpoint : EndpointId C) :
    gapFor t.index witness endpoint = gapFor s.index witness endpoint := by
  rw [LedgerStorage.preOf, LedgerStorage.preOf] at h
  unfold gapFor
  cases ht : t.index.ledgers.get? witness with
  | none =>
    rw [ht, Option.map_none, eq_comm, Option.map_eq_none_iff] at h
    rw [h]
  | some entry =>
    rw [ht, Option.map_some, eq_comm, Option.map_eq_some_iff] at h
    obtain ⟨entry', hs, hstate⟩ := h
    rw [hs]
    dsimp only
    rw [hstate]

/-- The verdicts look at the witnesses' states alone. -/
theorem verdicts_congr {s t : LedgerStorage C} {policy : AdmissionPolicy}
    (h : ∀ witness ∈ policy.witnessFor, t.preOf witness = s.preOf witness)
    (endpoint : EndpointId C) :
    verdicts policy t.index endpoint = verdicts policy s.index endpoint := by
  apply List.map_congr_left
  intro witness hwitness
  rw [gapFor_congr (h witness hwitness)]

/-- Advertisements that are current stay so. -/
theorem Current.unchanged {s t : LedgerStorage C} (h : Current s) (ht : Unchanged s t) :
    Current t := by
  rw [Current, ht.setup, ht.advertised, verdicts_congr fun w _ => ht.states w]
  exact h

/-- Where one ledger changed, checking for it again is enough. -/
theorem Current.rechecked {s t : LedgerStorage C} (h : Current s) {l : LedgerId}
    (hsetup : t.setup = s.setup)
    (hadvertised : t.advertised = recheckedFor s.setup.policy t.index l s.advertised)
    (hstates : ∀ l', l' ≠ l → t.preOf l' = s.preOf l') : Current t := by
  rw [Current, hsetup, hadvertised, recheckedFor]
  by_cases hwitness : s.setup.policy.witnessFor.contains l = true
  · rw [if_pos hwitness]
  · rw [if_neg hwitness, verdicts_congr fun w hw => hstates w ?_]
    · exact h
    · rintro rfl
      exact hwitness (List.contains_iff_mem.mpr hw)

/-- A push rechecks whenever it changed what a verdict looks at. -/
theorem Current.admitted {s t : LedgerStorage C} {call : PushCall C} (h : Current s)
    (ht : Admitted s call t) : Current t := by
  rcases ht with ht | ⟨post, ht⟩
  · exact h.unchanged ht
  · exact h.rechecked ht.setup ht.advertised ht.states

/-- A reload leaves the store as it was, or replaces the index and rechecks. -/
theorem reload_cases (s : LedgerStorage C) (clock : LedgerId → LoadClock) :
    (reload s.setup clock).Ensures StoreOp.exec s fun r t =>
      (∃ e, r = .error e) ∧ Quiet s t ∨ r = .ok () ∧ t.setup = s.setup ∧ Current t ∧
        t.advertised.endpoint = s.advertised.endpoint := by
  refine Ensures.after (a := s.home.ledgers) (t := s) rfl ?_
  refine Ensures.bind (Quiet.loadAll clock _ _ (Quiet.refl s)) (fun index t ht => .inr ?_)
    fun e t ht => .inl ⟨⟨e, rfl⟩, ht⟩
  refine ⟨rfl, ht.setup, ?_, ?_⟩
  · change verdicts s.setup.policy index t.advertised.endpoint =
      verdicts t.setup.policy index t.advertised.endpoint
    rw [ht.setup]
  · change t.advertised.endpoint = s.advertised.endpoint
    rw [ht.advertised]

/-- An opened home's advertisements are current. -/
theorem current_openHome {setup : Setup} {home : NodeHome C} {endpoint : EndpointId C}
    {clock : LedgerId → LoadClock} {s : LedgerStorage C}
    (h : LedgerStorage.openHome setup home endpoint clock = .ok s) : Current s := by
  have hcases := reload_cases (⟨setup, home, .default, ⟨endpoint, []⟩⟩ : LedgerStorage C) clock
  rw [LedgerStorage.openHome] at h
  rw [Ensures] at hcases
  rcases hcases with ⟨⟨e, he⟩, -⟩ | ⟨hok, -, hcurrent, -⟩
  · rw [← Prod.eta (run _ _ _), he] at h
    simp at h
  · rw [← Prod.eta (run _ _ _), hok] at h
    obtain rfl := Except.ok.inj h
    exact hcurrent

/-! ## What the rule asks -/

namespace LedgerStorage

variable (s : LedgerStorage C)

/-- A state's witness set names an identity this home witnesses for. -/
def NamesWitness (state : LedgerState C) : Prop :=
  ∃ witness ∈ witnessIdentities state, witness ∈ s.setup.policy.witnessFor

/-- A state's witness set names an identity this home witnesses for, whose stored copy
advertises this home's endpoint. -/
def NamesAdvertiser (state : LedgerState C) : Prop :=
  ∃ witness ∈ witnessIdentities state, witness ∈ s.setup.policy.witnessFor ∧
    ∃ entry, s.index.ledgers.get? witness = some entry ∧
      s.advertised.endpoint ∈ endpoints entry.state

/-- The legacy switch is on in a home that witnesses for somebody, and a state's retired list
names this home's endpoint. -/
def NamesEndpoint (state : LedgerState C) : Prop :=
  s.setup.policy.acceptLegacyWitnessConfig = true ∧ s.setup.policy.witnessFor ≠ [] ∧
    s.advertised.endpoint ∈ state.witnessEndpoints

end LedgerStorage

/-- A witness has no gap when its latest state names the endpoint. -/
theorem gapFor_eq_none {index : Index C} {witness : IdentityId} {endpoint : EndpointId C} :
    gapFor index witness endpoint = none ↔
      ∃ entry, index.ledgers.get? witness = some entry ∧ endpoint ∈ endpoints entry.state := by
  unfold gapFor
  cases index.ledgers.get? witness with
  | none => simp
  | some entry =>
    by_cases hnone : endpoints entry.state = []
    · simp [hnone]
    · by_cases hmem : endpoint ∈ endpoints entry.state
      · simp [hnone, hmem]
      · simp [hnone, hmem]

/-- Who is advertising: the witnesses of the policy whose state names the endpoint. -/
theorem mem_advertising {s : LedgerStorage C} (h : Current s) {witness : IdentityId} :
    witness ∈ advertising s.advertised.entries ↔ witness ∈ s.setup.policy.witnessFor ∧
      ∃ entry, s.index.ledgers.get? witness = some entry ∧
        s.advertised.endpoint ∈ endpoints entry.state := by
  rw [advertising, h, verdicts, List.filter_map, List.map_map, ← gapFor_eq_none]
  simp [WitnessForEntry.advertised]

/-- What the rule takes, where the verdicts are current. -/
theorem takes_iff {s : LedgerStorage C} (h : Current s) {l : LedgerId} {post : LedgerState C} :
    s.takes l post = true ↔ s.home.canSignFor l = true ∨
      (∃ pre, s.preOf l = some pre ∧ (s.NamesWitness pre ∨ s.NamesEndpoint pre)) ∨
      s.NamesAdvertiser post ∨ s.NamesEndpoint post := by
  have hpost : names post (advertising s.advertised.entries) = true ↔ s.NamesAdvertiser post := by
    simp only [names, List.any_eq_true, List.contains_iff_mem, mem_advertising h]
    rfl
  have hlegacy : ∀ pre : Option (LedgerState C),
      legacyAdmits s.setup.policy s.advertised.endpoint pre post = true ↔
        (∃ state, pre = some state ∧ s.NamesEndpoint state) ∨ s.NamesEndpoint post := by
    intro pre
    unfold legacyAdmits LedgerStorage.NamesEndpoint
    cases pre <;> simp <;> tauto
  rw [LedgerStorage.takes, admits, Bool.or_eq_true, Bool.or_eq_true, Bool.or_eq_true, hpost,
    hlegacy]
  cases s.preOf l with
  | none => simp [or_assoc]
  | some pre =>
    have hpre : names pre s.setup.policy.witnessFor = true ↔ s.NamesWitness pre := by
      simp only [names, List.any_eq_true, List.contains_iff_mem]
      rfl
    simp [hpre]
    tauto

/-! ## What gets in -/

/-- A push changes what a home holds of a ledger. -/
def Alters (s t : LedgerStorage C) (l : LedgerId) : Prop :=
  (t.filesOf l).events ≠ (s.filesOf l).events ∨ t.preOf l ≠ s.preOf l

/-- Only an admitted extension alters a ledger. -/
theorem Admitted.altered {s t : LedgerStorage C} {call : PushCall C} (h : Admitted s call t)
    {l : LedgerId} (halters : Alters s t l) :
    l = call.ledger ∧ ∃ post, Extended s call t post := by
  rcases h with h | ⟨post, h⟩
  · rcases halters with hne | hne
    · exact absurd (h.events l) hne
    · exact absurd (h.states l) hne
  · refine ⟨?_, post, h⟩
    by_contra hl
    rcases halters with hne | hne
    · exact hne (h.events l hl)
    · exact hne (h.states l hl)

/-- A push leaves setup and identities. -/
theorem Admitted.home {s t : LedgerStorage C} {call : PushCall C} (h : Admitted s call t) :
    t.setup = s.setup ∧ t.home.identities = s.home.identities := by
  rcases h with h | ⟨post, h⟩
  · exact ⟨h.setup, h.identities⟩
  · exact ⟨h.setup, h.identities⟩

/-- What every push keeps, admitted as it is, holds after any number of them. -/
theorem pushes_current {s : LedgerStorage C} (h : Current s) (calls : List (PushCall C)) :
    Current (s.pushes calls) ∧ (s.pushes calls).setup = s.setup ∧
      (s.pushes calls).home.identities = s.home.identities := by
  induction calls generalizing s with
  | nil => exact ⟨h, rfl, rfl⟩
  | cons call calls ih =>
    have hadmitted := admitted_push s call
    obtain ⟨hcurrent, hsetup, hidentities⟩ := ih (h.admitted hadmitted)
    exact ⟨hcurrent, hsetup.trans hadmitted.home.1, hidentities.trans hadmitted.home.2⟩

/-- A home that witnesses for nobody takes only what it signs for. -/
theorem takes_nobody {s : LedgerStorage C} (h : Current s) (hnobody : s.setup.policy.witnessFor = [])
    {l : LedgerId} (hsign : s.home.canSignFor l = false) (post : LedgerState C) :
    ¬ s.takes l post = true := by
  rw [takes_iff h]
  simp [hsign, hnobody, LedgerStorage.NamesWitness, LedgerStorage.NamesEndpoint,
    LedgerStorage.NamesAdvertiser]

/-- In a home that witnesses for nobody, the events of a ledger it does not sign for stay as
they were. -/
theorem events_nobody {l : LedgerId} (calls : List (PushCall C)) : ∀ {s : LedgerStorage C},
    Current s → s.setup.policy.witnessFor = [] → s.home.canSignFor l = false →
      ((s.pushes calls).filesOf l).events = (s.filesOf l).events := by
  induction calls with
  | nil => exact fun _ _ _ => rfl
  | cons call calls ih =>
    intro s h hnobody hsign
    have hadmitted := admitted_push s call
    refine (ih (h.admitted hadmitted) ?_ ?_).trans ?_
    · rw [hadmitted.home.1]
      exact hnobody
    · rw [canSignFor_congr hadmitted.home.2]
      exact hsign
    · by_contra hne
      obtain ⟨rfl, post, hextended⟩ := hadmitted.altered (.inl hne)
      exact takes_nobody h hnobody hsign post hextended.takes

/-- Admission safety. After any pushes to an opened home: a home that witnesses for nobody
has stored no event of a ledger it does not sign for; one more push alters such a ledger
only as the rule allows, of a ledger not held on the state its valid prefix folds to and of
a held one on that or on the stored state; and who sent the pushes does not matter. -/
theorem admission_safety {setup : Setup} {home : NodeHome C} {endpoint : EndpointId C}
    {clock : LedgerId → LoadClock} {s : LedgerStorage C}
    (hopen : LedgerStorage.openHome setup home endpoint clock = .ok s)
    (calls : List (PushCall C)) :
    (s.setup.policy.witnessFor = [] → ∀ l, s.home.canSignFor l = false →
      ((s.pushes calls).filesOf l).events = (s.filesOf l).events) ∧
    (∀ call l, (s.pushes calls).home.canSignFor l = false →
      Alters (s.pushes calls) ((s.pushes calls).push call).2 l →
      (s.pushes calls).preOf l = none →
      ∃ post valid violation, l = call.ledger ∧
        applyRun LedgerState.default call.events = .ok (post, valid, violation) ∧
        ((s.pushes calls).push call).2.preOf l = some post ∧
        ((s.pushes calls).NamesAdvertiser post ∨ (s.pushes calls).NamesEndpoint post)) ∧
    (∀ call l pre, (s.pushes calls).home.canSignFor l = false →
      Alters (s.pushes calls) ((s.pushes calls).push call).2 l →
      (s.pushes calls).preOf l = some pre →
      ∃ post fresh valid violation, l = call.ledger ∧
        applyRun pre (call.events.drop fresh) = .ok (post, valid, violation) ∧
        ((s.pushes calls).push call).2.preOf l = some post ∧
        ((s.pushes calls).NamesAdvertiser post ∨ (s.pushes calls).NamesEndpoint post ∨
          (s.pushes calls).NamesWitness pre ∨ (s.pushes calls).NamesEndpoint pre)) ∧
    (∀ calls', List.Forall₂ CallsAlike calls calls' → s.answers calls = s.answers calls' ∧
      SameButSource (s.pushes calls) (s.pushes calls')) := by
  have hcurrent := current_openHome hopen
  have hafter := (pushes_current hcurrent calls).1
  refine ⟨fun hnobody l hsign => events_nobody calls hcurrent hnobody hsign, ?_, ?_,
    fun calls' halike => SameButSource.pushes halike (.refl s)⟩
  · intro call l hsign halters hpre
    obtain ⟨rfl, post, hextended⟩ := (admitted_push _ call).altered halters
    obtain ⟨fresh, valid, violation, hfresh, hfolded⟩ := hextended.folds
    rw [hfresh hpre, hpre, List.drop_zero] at hfolded
    refine ⟨post, valid, violation, rfl, hfolded, hextended.folded, ?_⟩
    have htakes := (takes_iff hafter).mp hextended.takes
    simpa [hsign, hpre] using htakes
  · intro call l pre hsign halters hpre
    obtain ⟨rfl, post, hextended⟩ := (admitted_push _ call).altered halters
    obtain ⟨fresh, valid, violation, -, hfolded⟩ := hextended.folds
    rw [hpre] at hfolded
    refine ⟨post, fresh, valid, violation, rfl, hfolded, hextended.folded, ?_⟩
    have htakes := (takes_iff hafter).mp hextended.takes
    simp only [hsign, hpre, Bool.false_eq_true, Option.some.injEq, exists_eq_left', false_or]
      at htakes
    tauto

/-- A home that signs for nobody and witnesses for nobody stores nothing of a valid ledger. -/
theorem admission_safety_sampleLedger :
    LedgerStorage.openHome sampleSetup (.empty .empty) (SecretKey.sample 1).publicKey
        (fun _ => ⟨1, 2⟩) =
      .ok (.empty sampleSetup .empty (SecretKey.sample 1).publicKey : LedgerStorage Crypto.sample) ∧
    (((LedgerStorage.empty sampleSetup .empty (SecretKey.sample 1).publicKey).pushes
      [sampleCall sampleLedger]).filesOf sampleLedgerId).events = .empty :=
  ⟨openHome_empty .., (admission_safety (openHome_empty sampleSetup .empty
    (SecretKey.sample 1).publicKey fun _ => ⟨1, 2⟩) [sampleCall sampleLedger]).1 rfl
      sampleLedgerId (by decide)⟩

end Mabel.Node
