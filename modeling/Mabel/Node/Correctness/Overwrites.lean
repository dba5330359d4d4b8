import Mabel.Node.Appending
import Mabel.Node.Correctness.FirstSeen

/-!
# No event is lost while one writer is at work

Wallet appends and pushes on one ledger, in every order of their operations in which no
writer begins while another is at work on the events.
-/

namespace Mabel.Node

open Wire Proto Net Program

variable {C : Crypto} {l : LedgerId} {K : LedgerStorage C → Prop}

theorem Clean.lock {index : Index C} {m : Mode Bool} {s : LedgerStorage C}
    (h : Clean l K (.index index) m s) : Clean l K .locked m s := ⟨h.known, h.seen.1, h.settled⟩

/-! ## Telling the index -/

/-- The recheck takes plain steps. -/
theorem recheckFor_plain {ε : Type} (policy : AdmissionPolicy) (index : Index C)
    (ledger : LedgerId) :
    (recheckFor policy index ledger : OnNode C ε Unit).Performs (StoreOp.Plain l) :=
  .ite (.bind (.ask trivial) fun _ => .pure _) (.pure _)

/-- Noting a ledger keeps it clean. -/
theorem clean_noteLedger (hK : Lasting l K) (setup : Setup) (clock : LoadClock) :
    (writerDiscipline l).Triple (Clean l K .free) (noteLedger setup l clock)
      fun _ => Clean l K .free := by
  refine .bind (tidy_loadEntry _ clock K hK .free) (fun entry => ?_) fun _ _ _ => id
  refine lockIndex_bind hK (.andFinally (R := fun _ => Clean l K .locked) ?_ fun _ =>
    unlock hK .unlockIndex trivial fun _ => rfl)
  refine readIndex_bind hK fun index => ?_
  exact writeIndex_bind hK (clean_of_plain hK .locked (recheckFor_plain ..))

/-! ## Wallet appends -/

theorem tidy_load (store : LedgerStore C) (rebuilt : Nat) : Tidy l (load store rebuilt) :=
  .bind ((tidy_readFrom store rebuilt 0 none).mapReject _) fun _ => .of_spares
    (.bind (.lift _) fun _ => .bind (.lift _) fun _ => .pure _)

/-- What a wallet append that succeeds has stored. -/
theorem clean_appendEvent (hK : Lasting l K) (store : LedgerStore C) (checks : Bool)
    (call : WalletCall C) :
    (writerDiscipline l).Triple (Clean l K .free) (onLedger l (appendEvent store checks call))
      fun r => Clean l (fun s => K s ∧ ∀ landed, r = .ok landed →
        StoredAt s l landed.seq landed.bytes) .free := by
  have hfailed : ∀ {m s} (e : Fault (WalletError C)), Clean l K .free m s →
      Clean l (fun s => K s ∧ ∀ landed, (.error e : Outcome _ AppendedEvent) = .ok landed →
        StoredAt s l landed.seq landed.bytes) .free m s :=
    fun e h => h.mono fun hknown => ⟨hknown, fun _ hok => by simp at hok⟩
  rw [appendEvent, onLedger_bind]
  refine .bind (tidy_load store call.clock.loaded K hK .free) (fun loaded => ?_) fun e m s h =>
    hfailed e h
  rw [onLedger_bind]
  refine .lift_bind (fun signed hsigned => ?_) fun e _ m s h => hfailed e h
  obtain ⟨position, timestampMs, built⟩ := signed
  dsimp only
  rw [onLedger_bind, onLedger_mapReject]
  refine .bind (.mapReject (R := fun r => Clean l (fun s => K s ∧ ∀ head, r = .ok head →
    StoredAt s l position.seq built.signedEvent) .free)
    ((clean_append hK store _ _ _).mono (fun _ _ => id) fun r m s h => h.mono fun hknown =>
      ⟨hknown.1, fun head hhead => ?_⟩)) (fun head => ?_) fun e m s h => ?_
  · cases r with
    | error e => rcases e with _ | _ <;> simp at hhead
    | ok head => exact hknown.2 head rfl _ (List.mem_singleton_self _)
  · refine .pure fun m s h => h.mono fun hknown => ⟨hknown.1, fun landed hlanded => ?_⟩
    obtain rfl := Except.ok.inj hlanded
    exact hknown.2 head rfl
  · exact h.mono fun hknown => ⟨hknown.1, fun _ hok => by simp at hok⟩

/-- A wallet's append under its lock lands where it says. -/
theorem clean_walletAppend (setup : Setup) (call : WalletCall C) (hledger : call.ledger = l) :
    (writerDiscipline l).Triple (Clean l (fun _ => True) .free) (walletAppend setup call)
      fun r => Clean l (fun s => ∀ landed, r = .ok landed →
        StoredAt s l landed.seq landed.bytes) .free := by
  subst hledger
  have htrue : Lasting call.ledger fun _ : LedgerStorage C => True := fun _ _ _ _ => trivial
  have hlasts : ∀ r : Outcome (WalletError C) AppendedEvent, Lasting call.ledger
      fun s : LedgerStorage C => ∀ landed, r = .ok landed →
        StoredAt s call.ledger landed.seq landed.bytes :=
    fun r s t h hs landed hlanded => h _ _ (hs landed hlanded)
  refine lockAppend_bind htrue (.andFinally (R := fun r => Clean call.ledger (fun s => ∀ landed,
    r = .ok landed → StoredAt s call.ledger landed.seq landed.bytes) .free) ?_ fun r =>
      unlock (hlasts r) (.unlockAppend call.ledger) trivial fun _ => rfl)
  refine .bind (R := fun r => Clean call.ledger (fun s => ∀ landed, r = .ok landed →
    StoredAt s call.ledger landed.seq landed.bytes) .free)
    ((clean_appendEvent htrue _ _ call).mono (fun _ _ => id) fun r m s h =>
      h.mono fun hknown => hknown.2) (fun landed => ?_) fun e m s h => ?_
  · refine .bind (.attempt (R := fun _ => Clean call.ledger (fun s => ∀ landed',
      .ok landed = (.ok landed' : Outcome (WalletError C) AppendedEvent) →
        StoredAt s call.ledger landed'.seq landed'.bytes) .free)
      (clean_noteLedger (hlasts (.ok landed)) setup _)) (fun _ => ?_) fun e m s h => ?_
    · exact .pure fun m s h => h
    · exact Clean.mono h fun _ _ hok => by simp at hok
  · exact h

/-! ## Pushes -/

/-- A run without a violation is applied whole. -/
theorem applyRun_whole (events : List Bytes) : ∀ {s state : LedgerState C} {valid : Nat},
    applyRun s events = .ok (state, valid, none) → valid = events.length := by
  induction events with
  | nil =>
    intro s state valid h
    simp only [applyRun, Except.ok.injEq, Prod.mk.injEq] at h
    exact h.2.1.symm
  | cons event events ih =>
    intro s state valid h
    rw [applyRun] at h
    split at h
    · obtain ⟨⟨state', valid', violation⟩, hrest, hok⟩ := Outcome.bind_eq_ok.mp h
      simp only [Except.ok.injEq, Prod.mk.injEq] at hok
      obtain ⟨rfl, rfl, rfl⟩ := hok
      rw [ih hrest, List.length_cons]
    · simp at h
    · simp at h

/-- Every event of a run is numbered by its place in it. -/
theorem mem_newEvents (events : List Bytes) : ∀ {start : Nat} {batch : List NewEvent},
    newEvents C start events = .ok batch → ∀ (i : Nat) event, events[i]? = some event →
      ∃ id, (⟨start + i, id, event⟩ : NewEvent) ∈ batch := by
  induction events with
  | nil => simp
  | cons first events ih =>
    intro start batch h i event hi
    obtain ⟨id, -, h⟩ := Outcome.bind_eq_ok.mp h
    obtain ⟨rest, hrest, hok⟩ := Outcome.bind_eq_ok.mp h
    obtain rfl := Except.ok.inj hok
    cases i with
    | zero =>
      obtain rfl : first = event := by simpa using hi
      exact ⟨id, List.mem_cons_self⟩
    | succ i =>
      obtain ⟨id', hmem⟩ := ih hrest i event (by simpa using hi)
      rw [Nat.add_assoc, Nat.add_comm 1 i] at hmem
      exact ⟨id', List.mem_cons_of_mem _ hmem⟩

/-- How far a run agrees with the stored events, as the overlap check answers it. -/
structure Agreed (s : LedgerStorage C) (l : LedgerId) (headSeq first : Nat) (events : List Bytes)
    (fresh : Nat) : Prop where
  stored : ∀ i < fresh, ∀ event, events[i]? = some event → StoredAt s l (first + i) event
  within : ∀ i < fresh, first + i ≤ headSeq
  ends : events.length ≤ fresh ∨ headSeq < first + fresh

/-- An overlap that agrees still does where the ledger retains its events. -/
theorem Agreed.retains {s t : LedgerStorage C} {headSeq first fresh : Nat} {events : List Bytes}
    (h : Agreed s l headSeq first events fresh) (hretains : Retains l s t) :
    Agreed t l headSeq first events fresh :=
  ⟨fun i hi event hevent => hretains _ _ (h.stored i hi event hevent), h.within, h.ends⟩

/-- The overlap check reads the events it agrees with. -/
theorem clean_overlap (seen : Seen C) (store : LedgerStore C) {headSeq first : Nat}
    {events : List Bytes} (rest : List Bytes) : ∀ offset, events.drop offset = rest →
      (writerDiscipline l).Triple
        (Clean l (fun s => (∀ i < offset, ∀ event, events[i]? = some event →
          StoredAt s l (first + i) event) ∧ ∀ i < offset, first + i ≤ headSeq) seen)
        (onLedger l (overlap store headSeq first offset rest))
        fun r => Clean l (fun s => ∀ fresh, r = .ok (.agrees fresh) →
          Agreed s l headSeq first events fresh) seen := by
  induction rest with
  | nil =>
    intro offset hdrop
    refine .pure fun m s h => h.mono fun hknown fresh hfresh => ?_
    obtain rfl := Overlap.agrees.inj (Except.ok.inj hfresh)
    exact ⟨hknown.1, hknown.2, .inl (List.drop_eq_nil_iff.mp hdrop)⟩
  | cons event rest ih =>
    intro offset hdrop
    have hevent : events[offset]? = some event := by
      rw [← List.head?_drop, hdrop]
      rfl
    have hlasts : Lasting l fun s : LedgerStorage C => (∀ i < offset, ∀ event,
        events[i]? = some event → StoredAt s l (first + i) event) ∧
        ∀ i < offset, first + i ≤ headSeq :=
      fun s t h hs => ⟨fun i hi event hevent => h _ _ (hs.1 i hi event hevent), hs.2⟩
    rw [overlap]
    by_cases hpast : first + offset > headSeq
    · rw [if_pos hpast]
      refine .pure fun m s h => h.mono fun hknown fresh hfresh => ?_
      obtain rfl := Overlap.agrees.inj (Except.ok.inj hfresh)
      exact ⟨hknown.1, hknown.2, .inr hpast⟩
    · rw [if_neg hpast, onLedger_bind]
      refine .bind (clean_readEvent hlasts seen store (first + offset)) (fun stored => ?_)
        fun e m s h => h.mono fun _ _ hok => by simp at hok
      by_cases hne : stored ≠ event
      · rw [if_pos hne]
        exact .pure fun m s h => h.mono fun _ _ hok => by simp at hok
      · rw [if_neg hne]
        rw [not_not] at hne
        subst hne
        refine (ih (offset + 1) ?_).mono (fun m s h => h.mono fun hknown => ⟨?_, ?_⟩)
          fun _ _ _ => id
        · rw [← List.drop_drop, hdrop, List.drop_one, List.tail_cons]
        · intro i hi event hi'
          by_cases hlt : i < offset
          · exact hknown.1.1 i hlt event hi'
          · obtain rfl : i = offset := by omega
            obtain rfl := Option.some.inj (hevent.symm.trans hi')
            exact hknown.2 _ rfl
        · intro i hi
          by_cases hlt : i < offset
          · exact hknown.1.2 i hlt
          · omega

/-- A run of events is stored from a sequence on. -/
def AllStored (l : LedgerId) (first : Nat) (events : List Bytes) (s : LedgerStorage C) : Prop :=
  ∀ (i : Nat) event, events[i]? = some event → StoredAt s l (first + i) event

theorem AllStored.lasting (l : LedgerId) (first : Nat) (events : List Bytes) :
    Lasting l (AllStored l first events : LedgerStorage C → Prop) :=
  fun _ _ h hs i event hi => h _ _ (hs i event hi)

/-- What a push that succeeds promises. -/
def Upon (r : Outcome StoreError PushOutcome) (P : LedgerStorage C → Prop)
    (s : LedgerStorage C) : Prop := ∀ outcome, r = .ok outcome → P s

/-- A push that fails promises nothing. -/
theorem Clean.failed {K P : LedgerStorage C → Prop} {m : Mode Bool} {s : LedgerStorage C}
    (h : Clean l K .locked m s) (e : Fault StoreError) :
    Clean l (Upon (.error e) P) .locked m s := h.mono fun _ _ hok => by simp at hok

/-- Noting the source takes plain steps. -/
theorem noteSource_plain (call : PushCall C) (held : Bool) :
    (noteSource call held).Performs (StoreOp.Plain l) := by
  refine .ite (.pure _) (.mapReject (performs_onLedger (P := FileOp.Spares) ?_ fun _ h _ => h) _)
  refine .bind (.ask trivial) fun noted => ?_
  cases noted with
  | some noted => exact .pure _
  | none => exact .bind (.ask trivial) fun _ => .bind (.ask trivial) fun _ => .pure _

/-- A run that is stored is stored behind what the index counts. -/
theorem clean_storeRun (hK : Lasting l K) (setup : Setup) (call : PushCall C)
    (hledger : call.ledger = l) (index : Index C) (state : LedgerState C) (events : List Bytes) :
    (writerDiscipline l).Triple (Clean l K (.index index)) (storeRun setup call state events)
      fun r => Clean l (fun s => K s ∧ ∀ outcome, r = .ok outcome →
        AllStored l ((index.ledgers.get? l).elim 0 Entry.eventCount) events s) .locked := by
  subst hledger
  have hfailed : ∀ {m s} (e : Fault StoreError), Clean call.ledger K (.index index) m s →
      Clean call.ledger (fun s => K s ∧ ∀ outcome, (.error e : Outcome _ PushOutcome) = .ok outcome →
        AllStored call.ledger ((index.ledgers.get? call.ledger).elim 0 Entry.eventCount) events s)
        .locked m s :=
    fun e h => h.lock.mono fun hknown => ⟨hknown, fun _ hok => by simp at hok⟩
  refine readIndex_again hK (.ite (fun hnil => ?_) fun _ => ?_)
  · refine .pure fun m s h => h.lock.mono fun hknown => ⟨hknown, fun _ _ i event hi => ?_⟩
    rw [hnil] at hi
    simp at hi
  refine .lift_bind (fun _ _ => ?_) fun e _ m s h => hfailed e h
  refine .lift_bind (fun batch hbatch => ?_) fun e _ m s h => hfailed e h
  refine .bind (clean_of_plain hK _ (noteSource_plain call _)) (fun noted => ?_)
    fun e m s h => hfailed e h
  have hstored : Lasting call.ledger fun s : LedgerStorage C => K s ∧
      AllStored call.ledger ((index.ledgers.get? call.ledger).elim 0 Entry.eventCount) events s :=
    fun s t h hs => ⟨hK s t h hs.1, AllStored.lasting _ _ _ s t h hs.2⟩
  refine .bind (.mapReject (R := fun r => Clean call.ledger (fun s => K s ∧ ∀ head, r = .ok head →
      AllStored call.ledger ((index.ledgers.get? call.ledger).elim 0 Entry.eventCount) events s)
      (.index index)) ((clean_append hK _ _ _ batch).mono (fun _ _ => id) fun r m s h => h.mono
        fun hknown => ⟨hknown.1, fun head hhead i event hi => ?_⟩)) (fun written => ?_)
    fun e m s h => hfailed e (h.mono fun hknown => hknown.1)
  · cases r with
    | error e => rcases e with _ | _ <;> simp at hhead
    | ok head =>
      obtain ⟨id, hmem⟩ := mem_newEvents events hbatch i event hi
      exact hknown.2 head rfl _ hmem
  · refine .lift_bind (fun head _ => ?_) fun e _ m s h => hfailed e (h.mono fun hknown => hknown.1)
    refine .mono (P := Clean call.ledger (fun s => K s ∧ AllStored call.ledger
      ((index.ledgers.get? call.ledger).elim 0 Entry.eventCount) events s) (.index index)) ?_
      (fun m s h => h.mono fun hknown => ⟨hknown.1, hknown.2 _ rfl⟩) fun _ _ _ => id
    refine writeIndex_bind hstored (.bind (clean_of_plain hstored .locked (recheckFor_plain ..))
      (fun _ => ?_) fun e m s h => h.mono fun hknown => ⟨hknown.1, fun _ _ => hknown.2⟩)
    exact .pure fun m s h => h.mono fun hknown => ⟨hknown.1, fun _ _ => hknown.2⟩

theorem admitPush_plain (setup : Setup) (ledger : LedgerId) (pre : Option (LedgerState C))
    (post : LedgerState C) : (admitPush setup ledger pre post).Performs (StoreOp.Plain l) :=
  .bind (.ask trivial) fun _ => .bind (.ask trivial) fun _ => .lift _

/-- What a push answers when it succeeds, all of what it was offered applied. -/
theorem answer_eq_ok {atSeq : Nat} {violation : Option (Reason C)} {stored outcome : PushOutcome}
    (h : answer atSeq violation stored = .ok outcome) : violation = none := by
  cases violation with
  | none => rfl
  | some reason => simp [answer] at h

/-- A run added to a held ledger behind what agrees is stored whole, if the push succeeds. -/
theorem clean_extend (setup : Setup) (call : PushCall C) (hledger : call.ledger = l)
    {index : Index C} {entry : Entry C} (hentry : index.ledgers.get? l = some entry)
    {first fresh : Nat} (hfirst : first ≤ entry.headSeq + 1)
    (hfresh : call.events.drop fresh ≠ []) (stored : LedgerState C) :
    (writerDiscipline l).Triple
      (Clean l (fun s => Agreed s l entry.headSeq first call.events fresh) (.index index))
      (extend setup call first fresh stored)
      fun r => Clean l (Upon r (AllStored l first call.events)) .locked := by
  have hlasts : Lasting l fun s : LedgerStorage C =>
      Agreed s l entry.headSeq first call.events fresh := fun s t h hs => hs.retains h
  refine .lift_bind (fun applied happlied => ?_) fun e _ m s h => h.lock.failed e
  obtain ⟨state, valid, violation⟩ := applied
  refine .bind (clean_of_plain hlasts _ (admitPush_plain setup call.ledger _ _)) (fun _ => ?_)
    fun e m s h => h.lock.failed e
  refine .bind (clean_storeRun hlasts setup call hledger index state _) (fun outcome => ?_)
    fun e m s h => h.failed e
  refine .lift fun m s h => h.mono fun hknown result hresult i event hi => ?_
  have hwhole := applyRun_whole _ (answer_eq_ok hresult ▸ happlied)
  obtain ⟨hagreed, hstored⟩ := hknown
  have hlong : fresh < call.events.length := by
    by_contra hle
    exact hfresh (List.drop_eq_nil_iff.mpr (not_lt.mp hle))
  by_cases hlt : i < fresh
  · exact hagreed.stored i hlt event hi
  · -- The fresh events start right behind the head.
    have hstart : entry.headSeq + 1 = first + fresh := by
      have hends := hagreed.ends
      by_cases hzero : fresh = 0
      · omega
      · have := hagreed.within (fresh - 1) (by omega)
        omega
    have hat := hstored outcome rfl (i - fresh) event (by
      rw [List.getElem?_take, if_pos (by rw [hwhole, List.length_drop]; have :=
        (List.getElem?_eq_some_iff.mp hi).1; omega), List.getElem?_drop]
      rwa [Nat.add_sub_cancel' (not_lt.mp hlt)])
    rw [hentry, Option.elim_some, Entry.eventCount, hstart] at hat
    rwa [show first + fresh + (i - fresh) = first + i by omega] at hat

/-- Folding up to an event is tidy. -/
theorem tidy_foldedTo (store : LedgerStore C) (rebuilt seq : Nat) :
    Tidy l (foldedTo store rebuilt seq) :=
  .bind (tidy_readFrom store rebuilt 0 (some seq)) fun _ => .of_spares
    (.bind (.lift _) fun _ => .pure _)

theorem recordFork_spares (seq : Nat) (conflicting : EventId) (record : Bytes) :
    (LedgerStore.recordFork seq conflicting record : OnFiles C Unit).Performs FileOp.Spares :=
  .ask trivial

/-- A divergence is recorded at most, and never answered. -/
theorem clean_recordDivergence (setup : Setup) (call : PushCall C) (hledger : call.ledger = l)
    (index : Index C) (seq : Nat) (kept conflicting : Bytes) (first : Nat) :
    (writerDiscipline l).Triple (Clean l (fun _ => True) (.index index))
      (recordDivergence setup call seq kept conflicting) fun r =>
        Clean l (Upon r (AllStored l first call.events)) .locked := by
  subst hledger
  have htrue : Lasting call.ledger fun _ : LedgerStorage C => True := fun _ _ _ _ => trivial
  refine .bind (.mapReject (R := fun _ => Clean call.ledger (fun _ => True) (.index index))
    (tidy_foldedTo _ _ _ _ htrue _)) (fun shared => ?_) fun e m s h => h.lock.failed e
  refine .lift_bind (fun fork _ => ?_) fun e _ m s h => h.lock.failed e
  refine readIndex_again htrue (.lift_bind (fun entry _ => ?_) fun e _ m s h => h.lock.failed e)
  refine .bind (R := fun _ => Clean call.ledger (fun _ => True) .locked) (.ite (fun _ => ?_)
    fun _ => .pure fun m s h => h.lock) (fun _ => .lift fun m s h => h.failed _)
    fun e m s h => h.failed e
  refine .bind (.mapReject (R := fun _ => Clean call.ledger (fun _ => True) (.index index))
    (Tidy.of_spares (recordFork_spares ..) _ htrue _)) (fun _ => ?_) fun e m s h => h.lock
  exact writeIndex_bind htrue (.pure fun m s h => h) (f := fun _ => pure ())

/-- An overlapping push under the index lock keeps the ledger clean. -/
theorem clean_splice (setup : Setup) (call : PushCall C) (hledger : call.ledger = l)
    (index : Index C) (first : Nat) :
    (writerDiscipline l).Triple (Clean l (fun _ => True) (.index index))
      (splice setup call first) fun r =>
        Clean l (Upon r (AllStored l first call.events)) .locked := by
  subst hledger
  have htrue : Lasting call.ledger fun _ : LedgerStorage C => True := fun _ _ _ _ => trivial
  refine readIndex_again htrue (.lift_bind (fun entry hentry => ?_) fun e _ m s h => h.lock.failed e)
  rw [Outcome.expect_eq_ok] at hentry
  refine .lift_bind (fun _ hgap => ?_) fun e _ m s h => h.lock.failed e
  rw [Outcome.rejectIf_eq_ok, not_lt] at hgap
  refine .bind (.mapReject (R := fun r => Clean call.ledger (fun s => ∀ fresh,
      r = .ok (.agrees fresh) → Agreed s call.ledger entry.headSeq first call.events fresh)
      (.index index)) ((clean_overlap _ _ _ 0 rfl).mono
        (fun m s h => h.mono fun _ => ⟨by simp, by simp⟩) fun r m s h => h.mono
          fun hknown fresh hfresh => ?_)) (fun compared => ?_) fun e m s h => h.lock.failed e
  · cases r with
    | error e => rcases e with _ | _ <;> simp at hfresh
    | ok o => exact hknown fresh (congrArg Except.ok (Except.ok.inj hfresh))
  cases compared with
  | differs seq stored event =>
    exact (clean_recordDivergence setup call rfl index seq stored event first).mono
      (fun m s h => h.mono fun _ => trivial) fun _ _ _ => id
  | agrees fresh =>
    refine .mono (P := Clean call.ledger (fun s => Agreed s call.ledger entry.headSeq first
      call.events fresh) (.index index)) (.ite (fun hnil => ?_) fun hfresh => ?_)
      (fun m s h => h.mono fun hknown => hknown fresh rfl) fun _ _ _ => id
    · refine .pure fun m s h => h.lock.mono fun hagreed _ _ i event hi => ?_
      have hlong := List.drop_eq_nil_iff.mp hnil
      exact hagreed.stored i (by have := (List.getElem?_eq_some_iff.mp hi).1; omega) event hi
    · exact clean_extend setup call rfl hentry hgap hfresh entry.state

/-- A first push under the index lock keeps the ledger clean. -/
theorem clean_ingest (setup : Setup) (call : PushCall C) (hledger : call.ledger = l)
    (index : Index C) (hheld : index.ledgers.get? l = none) (first : Nat) :
    (writerDiscipline l).Triple (Clean l (fun _ => True) (.index index))
      (ingest setup call first) fun r =>
        Clean l (Upon r (AllStored l first call.events)) .locked := by
  have htrue : Lasting l fun _ : LedgerStorage C => True := fun _ _ _ _ => trivial
  refine .lift_bind (fun _ hzero => ?_) fun e _ m s h => h.lock.failed e
  rw [Outcome.rejectIf_eq_ok, not_not] at hzero
  subst hzero
  refine .lift_bind (fun applied happlied => ?_) fun e _ m s h => h.lock.failed e
  obtain ⟨state, valid, violation⟩ := applied
  refine .ite (fun _ => ?_) fun _ => ?_
  · exact .lift_bind (fun _ _ => .lift fun m s h => h.lock.failed _) fun e _ m s h =>
      h.lock.failed e
  refine .lift_bind (fun _ _ => ?_) fun e _ m s h => h.lock.failed e
  refine .bind (clean_of_plain htrue _ (admitPush_plain setup call.ledger _ _)) (fun _ => ?_)
    fun e m s h => h.lock.failed e
  refine .bind (clean_storeRun htrue setup call hledger index state _) (fun outcome => ?_)
    fun e m s h => h.failed e
  refine .lift fun m s h => h.mono fun hknown result hresult => ?_
  have hwhole := applyRun_whole _ (answer_eq_ok hresult ▸ happlied)
  have hstored := hknown.2 outcome rfl
  rw [hheld, hwhole, List.take_length] at hstored
  exact hstored

/-- What a push promises once the sequence it starts at has been read. -/
theorem Clean.committed {call : PushCall C} (hledger : call.ledger = l) {first : Nat}
    (hfirst : call.events.head?.bind signedEventSeq = some first)
    {r : Outcome StoreError PushOutcome} {m : Mode Bool} {s : LedgerStorage C}
    (h : Clean l (Upon r (AllStored l first call.events)) .locked m s) :
    Clean l ((Report.pushed call r).Committed ·) .locked m s := by
  subst hledger
  refine h.mono fun hknown => ?_
  cases r with
  | error e => trivial
  | ok outcome =>
    intro first' hfirst'
    obtain rfl := Option.some.inj (hfirst.symm.trans hfirst')
    exact hknown outcome rfl

/-- A push under the index lock commits what it reports. -/
theorem clean_pushLocked (setup : Setup) (call : PushCall C) (hledger : call.ledger = l) :
    (writerDiscipline l).Triple (Clean l (fun _ => True) .locked) (pushLocked setup call)
      fun r => Clean l ((Report.pushed call r).Committed ·) .locked := by
  have htrue : Lasting l fun _ : LedgerStorage C => True := fun _ _ _ _ => trivial
  refine readIndex_bind htrue fun index => ?_
  dsimp only
  cases hevents : call.events with
  | nil =>
    have hnone : ∀ (r : Outcome StoreError PushOutcome) (s : LedgerStorage C),
        (Report.pushed call r).Committed s := by
      intro r s
      cases r with
      | error e => trivial
      | ok outcome =>
        intro first hfirst
        simp [hevents] at hfirst
    cases index.ledgers.get? call.ledger with
    | some entry => exact .pure fun m s h => h.lock.mono fun _ => hnone _ s
    | none =>
      refine (clean_of_plain htrue (.index index) ?_).mono (fun _ _ => id) fun r m s h =>
        h.lock.mono fun _ => hnone r s
      exact .bind (.ask trivial) fun _ => .lift _
  | cons event rest =>
    refine .lift_bind (fun first hseq => ?_) fun e _ m s h => h.lock.mono fun _ => trivial
    have hfirst : call.events.head?.bind signedEventSeq = some first := by
      rw [hevents]
      exact Outcome.orReject_eq_ok.mp hseq
    refine .lift_bind (fun _ _ => ?_) fun e _ m s h => h.lock.mono fun _ => trivial
    refine .mono (.ite (fun _ => clean_splice setup call hledger index first) fun hheld => ?_)
      (fun _ _ => id) fun r m s h => h.committed hledger hfirst
    refine clean_ingest setup call hledger index ?_ first
    rw [← hledger]
    simpa using hheld

/-- A push that succeeds has its events stored. -/
theorem clean_push (setup : Setup) (call : PushCall C) (hledger : call.ledger = l) :
    (writerDiscipline l).Triple (Clean l (fun _ => True) .free) (push setup call)
      fun r => Clean l ((Report.pushed call r).Committed ·) .free := by
  refine lockIndex_bind (fun _ _ _ _ => trivial) (.andFinally
    (clean_pushLocked setup call hledger) fun r => unlock (fun s t h hs => ?_) .unlockIndex trivial
      fun _ => rfl)
  exact hs.retains hledger h

/-! ## Every schedule -/

/-- A writer may return wherever its state is clean. -/
theorem Clean.rests {seen : Seen C} {m : Mode Bool} {s : LedgerStorage C}
    (h : Clean l K seen m s) :
    (writerDiscipline l).guarantee m (writerSharing l (C := C)).resting s s :=
  ⟨.refl s, fun _ => ⟨rfl, rfl⟩, fun _ => rfl, fun hwork _ => h.settled hwork⟩

/-- What a writer's report promises of its ledger. -/
def Promises (l : LedgerId) (report : Report C) (s : LedgerStorage C) : Prop :=
  report.ledger = l ∧ report.Committed s

/-- Every writer of a ledger keeps to the discipline. -/
theorem Writer.meets (setup : Setup) {call : Writer C} (hledger : call.ledger = l) :
    (writerDiscipline l).Triple (Clean l (fun _ => True) .free) (call.program setup)
      ((writerDiscipline l).Ends (Promises l)) := by
  cases call with
  | push call =>
    refine .conclude ((clean_push setup call hledger).mono (fun _ _ => id) fun r m s h =>
      ⟨h.rests, fun report hreport => ?_⟩)
    obtain rfl := Except.ok.inj hreport
    exact ⟨hledger, h.known⟩
  | append call =>
    refine .conclude ((clean_walletAppend setup call hledger).mono (fun _ _ => id) fun r m s h =>
      ⟨h.rests, fun report hreport => ?_⟩)
    obtain rfl := Except.ok.inj hreport
    refine ⟨hledger, ?_⟩
    cases r with
    | error e => trivial
    | ok landed =>
      change StoredAt s call.ledger _ _
      rw [show call.ledger = l from hledger]
      exact h.known landed rfl

/-- Writers that have not started keep to the discipline. -/
theorem kept_writers {s : LedgerStorage C} {calls : List (Writer C)}
    (hledger : ∀ call ∈ calls, call.ledger = l) (hs : HeadNamesLast (s.filesOf l)) :
    (writerDiscipline l).Kept (Promises l) (writers l s calls) := by
  have hmode : ∀ m ∈ (writers l s calls).modes, m = (writerSharing l (C := C)).resting := by
    intro m hm
    obtain ⟨thread, hthread, rfl⟩ := List.mem_map.mp hm
    obtain ⟨call, -, rfl⟩ := List.mem_map.mp hthread
    rfl
  refine ⟨⟨fun i j m m' hi hj hm => ?_, fun i j m m' hi hj hm => ?_, fun _ => hs⟩, ?_⟩
  · rw [hmode m (List.mem_of_getElem? hi)] at hm
    simp [sharing] at hm
  · rw [hmode m (List.mem_of_getElem? hi)] at hm
    simp [sharing, Mode.Indexed] at hm
  · intro thread hthread
    obtain ⟨call, hcall, rfl⟩ := List.mem_map.mp hthread
    refine ⟨_, Clean.stable (fun _ _ _ _ => trivial) .free _, ⟨trivial, trivial, ?_⟩,
      Writer.meets s.setup (hledger call hcall) _⟩
    simp [sharing]

/-- In every order of the operations of wallet appends and pushes on a ledger in which no
writer begins while another is at work on its events, no event file is overwritten with other
bytes, what a writer has stored when it returns stays stored, and the head names the last
event once every writer has returned. -/
theorem appends_beside_pushes {s : LedgerStorage C} {calls : List (Writer C)}
    (hledger : ∀ call ∈ calls, call.ledger = l) (hs : HeadNamesLast (s.filesOf l))
    (before after : List Nat)
    (hone : Pool.Along (writerSharing l) (Pool.Apart (writerSharing l) (OneAtWork l))
      (writers l s calls) (before ++ after)) :
    let middle := (writers l s calls).run (writerSharing l) before
    let last := (writers l s calls).run (writerSharing l) (before ++ after)
    Retains l middle.state last.state ∧
    (∀ thread ∈ middle.threads, ∀ report, thread.program = .done (.ok report) →
      report.Committed last.state) ∧
    ((∀ thread ∈ last.threads, ∃ report, Pool.Returned (writerSharing l) thread report) →
      HeadNamesLast (last.state.filesOf l)) := by
  intro middle last
  have hstable : ∀ report : Report C, (writerDiscipline l).Stable (writerSharing l (C := C)).resting
      (Promises l report) := fun report s t hrely h => ⟨h.1, h.2.retains h.1 hrely.retains⟩
  have hrun := @Discipline.Kept.run _ _ _ _ _ _ _ (writerDiscipline (C := C) l) (Promises l) hstable
    (Retains l) Retains.refl (fun _ _ _ => Retains.trans) fun _ _ _ _ h => h.retains
  obtain ⟨hbefore, hafter⟩ := Pool.along_append before hone
  obtain ⟨hmiddle, -⟩ := hrun before (kept_writers hledger hs) hbefore
  obtain ⟨hlast, hretains⟩ := hrun after hmiddle hafter
  rw [← Pool.run_append] at hlast hretains
  refine ⟨hretains, fun thread hthread report hdone => ?_, fun hreturned => ?_⟩
  · have hpromise := (hmiddle.keeps thread hthread).answer hdone
    exact hpromise.2.retains hpromise.1 hretains
  · refine hlast.invariant.settled fun m hm => ?_
    obtain ⟨thread, hthread, rfl⟩ := List.mem_map.mp hm
    obtain ⟨report, -, hmode⟩ := hreturned thread hthread
    rw [hmode]
    rfl

/-! ## A sample append beside a push -/

/-- A home that signs for the sample ledger and holds its inception. -/
def sampleShared : LedgerStorage Crypto.sample :=
  (sampleHome.push (sampleCall (sampleLedger.take 1))).2

/-- The owner of the sample ledger empties its witness set, and a peer offers the first two
events of the ledger. -/
def sampleWriters : List (Writer Crypto.sample) :=
  [.append ⟨sampleLedgerId, sampleLedgerId, some (SecretKey.sample 1),
      fun signer position timestampMs => buildWitnessSet signer position [] timestampMs,
      ⟨1, 2, 5000, 4, ⟨5, 6⟩⟩⟩,
    .push (sampleCall (sampleLedger.take 2))]

/-- Whether a thread has returned success. -/
def succeeded (thread : Thread (StoreOp C) StoreOp.Reply (Mode Bool) (Report C)) : Bool :=
  match thread.program with
  | .done (.ok (.pushed _ (.ok _))) => true
  | .done (.ok (.appended _ (.ok _))) => true
  | _ => false

/-- The wallet checks that no event file is in its way, the whole push falls there, and the
wallet goes on. -/
def sampleBeside : List Nat := List.replicate 6 0 ++ List.replicate 20 1

/-- The shared sample's head names its last event. -/
theorem headNamesLast_sampleShared : HeadNamesLast (sampleShared.filesOf sampleLedgerId) := by
  have hevents : (sampleShared.filesOf sampleLedgerId).events =
      SortedMap.empty.insert 0 (sampleLedger.headD []) := by decide +kernel
  have hhead : (sampleShared.filesOf sampleLedgerId).headFile =
      some ⟨0, Mabel.eventIdOf Crypto.sample (sampleLedger.headD []), 4⟩ := by decide +kernel
  have hdecode : (SignedEvent.decode (sampleLedger.headD [])).isSome = true := by decide +kernel
  obtain ⟨signed, hsigned⟩ := Option.isSome_iff_exists.mp hdecode
  refine ⟨[sampleLedger.headD []], fun seq => ?_, ?_⟩
  · rw [hevents, SortedMap.get?_insert]
    cases seq with
    | zero => rfl
    | succ seq => rfl
  · rw [hhead]
    refine ⟨rfl, _, signed, rfl, hsigned, ?_⟩
    dsimp only
    rw [Mabel.eventIdOf, bodyOf, hsigned]
    rfl

/-- Beside one another both writers return success, and the event the push stored has been
overwritten. -/
theorem append_overwrites_push :
    sampleShared.home.canSignFor sampleLedgerId = true ∧
    HeadNamesLast (sampleShared.filesOf sampleLedgerId) ∧
    let middle := (writers sampleLedgerId sampleShared sampleWriters).run
      (writerSharing sampleLedgerId) sampleBeside
    let last := middle.run (writerSharing sampleLedgerId) (List.replicate 20 0)
    last.threads.all succeeded = true ∧
    ∃ event, sampleLedger[1]? = some event ∧ StoredAt middle.state sampleLedgerId 1 event ∧
      ¬ StoredAt last.state sampleLedgerId 1 event := by
  refine ⟨by decide +kernel, headNamesLast_sampleShared, by decide +kernel,
    sampleLedger.getD 1 [], by decide +kernel, ?_, ?_⟩
  · change _ = _
    decide +kernel
  · change ¬ _ = _
    decide +kernel

/-- One after the other, the two writers lose nothing. -/
theorem appends_beside_pushes_sampleShared :
    Pool.Along (writerSharing sampleLedgerId)
      (Pool.Apart (writerSharing sampleLedgerId) (OneAtWork sampleLedgerId))
      (writers sampleLedgerId sampleShared sampleWriters)
      (List.replicate 30 0 ++ List.replicate 20 1) ∧
    Retains sampleLedgerId
      ((writers sampleLedgerId sampleShared sampleWriters).run (writerSharing sampleLedgerId)
        (List.replicate 30 0)).state
      ((writers sampleLedgerId sampleShared sampleWriters).run (writerSharing sampleLedgerId)
        (List.replicate 30 0 ++ List.replicate 20 1)).state := by
  have hone : Pool.Along (writerSharing sampleLedgerId)
      (Pool.Apart (writerSharing sampleLedgerId) (OneAtWork sampleLedgerId))
      (writers sampleLedgerId sampleShared sampleWriters)
      (List.replicate 30 0 ++ List.replicate 20 1) := by decide +kernel
  refine ⟨hone, (appends_beside_pushes ?_ headNamesLast_sampleShared _ _ hone).1⟩
  decide +kernel

end Mabel.Node
