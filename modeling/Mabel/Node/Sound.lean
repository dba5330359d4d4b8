import Mabel.Ledger.Correctness.Chain
import Mabel.Node.Files
import Mabel.Node.Push

/-!
# A sound store and what storing a run does to it

In a sound store the index agrees with the files: every held ledger is a run of the fold,
its entry names where the run ends and counts its bytes, and a ledger the index does not
know has no events. Storing a verified run on a sound store writes exactly that run and
fails only at a cap.
-/

namespace Mabel.Node

open Wire Proto Net Machine Program

variable {C : Crypto}

/-! ## Soundness -/

/-- An index entry agrees with a ledger's files, whose events are a log. -/
structure Held (caps : StorageCaps) (files : LedgerFiles C) (ledger : LedgerId) (entry : Entry C)
    (log : List Bytes) : Prop where
  /-- The event files are the log. -/
  holds : files.Holds log
  /-- The log folds to the entry's state. -/
  run : FoldRun log entry.state
  ledger : entry.state.ledger = some ledger
  count : log.length = entry.eventCount
  head : ∃ timestampMs, entry.state.head = some ⟨entry.headSeq, entry.headEvent, timestampMs⟩
  /-- The head cache is the entry's. -/
  cached : files.headFile = some ⟨entry.headSeq, entry.headEvent, entry.updatedMs⟩
  bytes : entry.bytes = (log.map List.length).sum
  countCap : entry.eventCount ≤ caps.eventsPerLedger
  bytesCap : entry.bytes ≤ caps.bytesPerLedger

/-- The index agrees with the files, and the caps hold. -/
structure Sound (s : LedgerStorage C) : Prop where
  held : ∀ l entry, s.index.ledgers.get? l = some entry →
    ∃ log, Held s.setup.caps (s.filesOf l) l entry log
  /-- A ledger the index does not know has no events. -/
  absent : ∀ l, s.index.ledgers.get? l = none →
    (s.filesOf l).Holds [] ∧ (s.filesOf l).headFile = none
  used : s.index.storageUsed = s.index.ledgers.total Entry.bytes
  ledgers : s.index.ledgers.entries.length ≤ s.setup.caps.ledgers
  capacity : s.index.storageUsed ≤ s.setup.caps.storageCapacity

namespace LedgerStorage

/-- The state the index keeps of a ledger, empty when it keeps none. -/
def stateOf (s : LedgerStorage C) (ledger : LedgerId) : LedgerState C :=
  (s.index.ledgers.get? ledger).elim LedgerState.default Entry.state

/-- How many events the index counts for a ledger. -/
def countOf (s : LedgerStorage C) (ledger : LedgerId) : Nat :=
  (s.index.ledgers.get? ledger).elim 0 Entry.eventCount

/-- The stored events of a ledger. -/
def logOf (s : LedgerStorage C) (ledger : LedgerId) : List Bytes := (s.filesOf ledger).stored

end LedgerStorage

namespace Sound

variable {s : LedgerStorage C}

/-- In a sound store every ledger's files are its stored events, none where it is not held,
and they fold to the state the index keeps. -/
theorem holds (h : Sound s) (l : LedgerId) : (s.filesOf l).Holds (s.logOf l) := by
  cases hl : s.index.ledgers.get? l with
  | none =>
    have := (h.absent l hl).1
    rw [LedgerStorage.logOf, this.stored]
    exact this
  | some entry =>
    obtain ⟨log, hheld⟩ := h.held l entry hl
    rw [LedgerStorage.logOf, hheld.holds.stored]
    exact hheld.holds

/-- An indexed ledger's files hold its log. -/
theorem heldLog (h : Sound s) {l : LedgerId} {entry : Entry C}
    (hl : s.index.ledgers.get? l = some entry) :
    Held s.setup.caps (s.filesOf l) l entry (s.logOf l) := by
  obtain ⟨log, hheld⟩ := h.held l entry hl
  obtain rfl : log = s.logOf l := hheld.holds.unique (h.holds l)
  exact hheld

theorem absentLog (h : Sound s) {l : LedgerId} (hl : s.index.ledgers.get? l = none) :
    s.logOf l = [] := (h.holds l).unique (h.absent l hl).1

/-- A ledger's state is the fold of its log. -/
theorem foldRun (h : Sound s) (l : LedgerId) : FoldRun (s.logOf l) (s.stateOf l) := by
  cases hl : s.index.ledgers.get? l with
  | none =>
    rw [h.absentLog hl, LedgerStorage.stateOf, hl]
    exact .nil
  | some entry =>
    rw [LedgerStorage.stateOf, hl]
    exact (h.heldLog hl).run

/-- A log is as long as its count. -/
theorem length_logOf (h : Sound s) (l : LedgerId) : (s.logOf l).length = s.countOf l := by
  cases hl : s.index.ledgers.get? l with
  | none =>
    rw [h.absentLog hl, LedgerStorage.countOf, hl]
    rfl
  | some entry =>
    rw [LedgerStorage.countOf, hl]
    exact (h.heldLog hl).count

/-- The bytes the index counts for a ledger are those of its stored events. -/
theorem bytes_logOf (h : Sound s) (l : LedgerId) :
    (s.index.ledgers.get? l).elim 0 Entry.bytes = ((s.logOf l).map List.length).sum := by
  cases hl : s.index.ledgers.get? l with
  | none =>
    rw [h.absentLog hl]
    rfl
  | some entry => exact (h.heldLog hl).bytes

/-- The head program finds the cached head, and writes nothing. -/
theorem run_head (h : Sound s) (l : LedgerId) (store : LedgerStore C) (now : Nat)
    {files : LedgerFiles C} (hfile : files.headFile = (s.filesOf l).headFile)
    (hevents : files.events = (s.filesOf l).events) :
    ∃ cached, run FileOp.exec (store.head now) files = (.ok cached, files) ∧
      (cached.elim 0 fun head => head.seq + 1) = s.countOf l := by
  cases hl : s.index.ledgers.get? l with
  | none =>
    obtain ⟨hnone, hhead⟩ := h.absent l hl
    refine ⟨none, run_head_empty (hfile.trans hhead) (hnone.of_events hevents) now, ?_⟩
    rw [LedgerStorage.countOf, hl]
    rfl
  | some entry =>
    refine ⟨some _, run_head_cached (hfile.trans (h.heldLog hl).cached) now, ?_⟩
    rw [LedgerStorage.countOf, hl]
    rfl

end Sound

/-! ## Verified runs -/

/-- The second reader numbers the events of a run under the fold's ids. -/
theorem newEvents_of_run {events : List Bytes} : ∀ {base state : LedgerState C} (start : Nat),
    RunFrom (Accepts LedgerState.apply) base events state →
    newEvents C start events = .ok (numbered C start events) := by
  induction events with
  | nil => exact fun _ _ => rfl
  | cons event events ih =>
    intro base state start hrun
    obtain ⟨next, haccept, hrest⟩ := hrun.cases_cons
    obtain ⟨st⟩ := apply_iff.mp haccept
    rw [newEvents, signedEventId_step st, ih (start + 1) hrest]
    rfl

/-- Events of a run may be appended behind the files of a log. -/
theorem offered_of_run {files : LedgerFiles C} {log : List Bytes} (hfiles : files.Holds log)
    {events : List Bytes} : ∀ {base state : LedgerState C} {start : Nat}, log.length ≤ start →
    RunFrom (Accepts LedgerState.apply) base events state →
    Offered files start (numbered C start events) := by
  induction events with
  | nil => exact fun _ _ => trivial
  | cons event events ih =>
    intro base state start hlen hrun
    obtain ⟨next, haccept, hrest⟩ := hrun.cases_cons
    obtain ⟨st⟩ := apply_iff.mp haccept
    refine ⟨rfl, ⟨st.signed, st.opened.decode, ?_⟩, ?_, ih (by omega) hrest⟩
    · change eventId C st.signed.body = Mabel.eventIdOf C event
      rw [eventIdOf, bodyOf_opened st.opened]
    · intro held hget
      rw [hfiles start, List.getElem?_eq_none hlen] at hget
      simp at hget

@[simp] theorem length_numbered (start : Nat) (events : List Bytes) :
    (numbered C start events).length = events.length := by
  induction events generalizing start with
  | nil => rfl
  | cons event events ih => simp [numbered, ih]

/-- A numbered event has the number of its place. -/
theorem getElem?_numbered (events : List Bytes) : ∀ (start i : Nat),
    (numbered C start events)[i]? =
      (events[i]?).map fun event => ⟨start + i, Mabel.eventIdOf C event, event⟩ := by
  induction events with
  | nil => simp [numbered]
  | cons event events ih =>
    intro start i
    cases i with
    | zero => rfl
    | succ i =>
      rw [numbered, List.getElem?_cons_succ, ih, List.getElem?_cons_succ]
      simp [Nat.add_comm, Nat.add_left_comm]

/-- The last event of a numbered run. -/
theorem getLast_numbered (start : Nat) (events : List Bytes) (h : numbered C start events ≠ []) :
    (numbered C start events).getLast h =
      ⟨start + (events.length - 1), Mabel.eventIdOf C (events.getLastD []), events.getLastD []⟩ := by
  have hne : events ≠ [] := by
    rintro rfl
    exact h rfl
  have hlast : (numbered C start events)[events.length - 1]? =
      some ⟨start + (events.length - 1), Mabel.eventIdOf C (events.getLast hne),
        events.getLast hne⟩ := by
    rw [getElem?_numbered, ← List.getLast?_eq_getElem?, List.getLast?_eq_some_getLast hne]
    rfl
  rw [← Option.some_inj, ← List.getLast?_eq_some_getLast h, List.getLast?_eq_getElem?,
    length_numbered, hlast, List.getLastD_eq_getLast?, List.getLast?_eq_some_getLast hne]
  rfl

/-- Written behind a log, a run extends it. -/
theorem LedgerFiles.Holds.write {files : LedgerFiles C} {log : List Bytes} (h : files.Holds log)
    (events : List Bytes) :
    (files.write (numbered C log.length events)).Holds (log ++ events) := by
  intro seq
  have hseqs : ∀ (i : Nat) event, (numbered C log.length events)[i]? = some event →
      event.seq = log.length + i := by
    intro i event hi
    rw [getElem?_numbered] at hi
    obtain ⟨_, _, rfl⟩ := Option.map_eq_some_iff.mp hi
    rfl
  rw [get?_write hseqs seq, length_numbered]
  by_cases hlow : seq < log.length
  · rw [if_neg (by omega), h seq, List.getElem?_append_left hlow]
  · rw [List.getElem?_append_right (by omega)]
    by_cases hhigh : seq < log.length + events.length
    · rw [if_pos (by omega), getElem?_numbered, Option.map_map]
      simp [Function.comp_def]
    · rw [if_neg (by omega), h seq, List.getElem?_eq_none (by omega),
        List.getElem?_eq_none (by omega)]

/-! ## Storing a run -/

namespace LedgerStorage

/-- The head of a ledger once a run has landed behind what is stored. -/
def headAfter (s : LedgerStorage C) (call : PushCall C) (events : List Bytes) : Head :=
  ⟨s.countOf call.ledger + (events.length - 1), Mabel.eventIdOf C (events.getLastD []),
    call.clock.written⟩

/-- What a push notes of where a ledger came from. -/
def notedBy (s : LedgerStorage C) (call : PushCall C) : LedgerMeta C :=
  if (s.index.ledgers.get? call.ledger).isSome then ⟨none, call.clock.firstSeen⟩
  else (s.filesOf call.ledger).metaFile.getD ⟨call.provenance.endpoint, call.clock.noted⟩

/-- The index once a run has landed. -/
def indexAfter (s : LedgerStorage C) (call : PushCall C) (state : LedgerState C)
    (events : List Bytes) : Index C :=
  s.index.record call.ledger state (s.headAfter call events) (events.map List.length).sum
    (s.notedBy call)

/-- The files of a ledger once a run has landed. -/
def filesAfter (s : LedgerStorage C) (call : PushCall C) (events : List Bytes) : LedgerFiles C :=
  { (s.filesOf call.ledger).write (numbered C (s.countOf call.ledger) events) with
    present := true
    headFile := some (s.headAfter call events)
    metaFile := if (s.index.ledgers.get? call.ledger).isSome then
      (s.filesOf call.ledger).metaFile else some (s.notedBy call) }

/-- The store once a run has landed. -/
def landed (s : LedgerStorage C) (call : PushCall C) (state : LedgerState C)
    (events : List Bytes) : LedgerStorage C :=
  { s.withFiles call.ledger (s.filesAfter call events) with
    index := s.indexAfter call state events
    advertised := recheckedFor s.setup.policy (s.indexAfter call state events) call.ledger
      s.advertised }

end LedgerStorage

/-- Noting where a ledger came from leaves its events, its head and its forks alone. -/
theorem run_noteSource (s : LedgerStorage C) (call : PushCall C) :
    ∃ files : LedgerFiles C,
      run StoreOp.exec (noteSource call (s.index.ledgers.get? call.ledger).isSome) s =
        (.ok (s.notedBy call), s.withFiles call.ledger files) ∧
      { files with present := true } = { s.filesOf call.ledger with
        present := true
        metaFile := if (s.index.ledgers.get? call.ledger).isSome then
          (s.filesOf call.ledger).metaFile else some (s.notedBy call) } := by
  unfold noteSource LedgerStorage.notedBy
  by_cases hheld : (s.index.ledgers.get? call.ledger).isSome = true
  · refine ⟨s.filesOf call.ledger, ?_, ?_⟩
    · rw [if_pos hheld, if_pos hheld, LedgerStorage.withFiles_filesOf]
      rfl
    · rw [if_pos hheld]
  · rw [if_neg hheld, if_neg hheld, if_neg hheld]
    cases hmeta : (s.filesOf call.ledger).metaFile with
    | some noted =>
      refine ⟨s.filesOf call.ledger, run_onFiles_ok ?_, ?_⟩
      · rw [LedgerStore.noteFirstSeen, File.run_readMeta_bind, hmeta]
        rfl
      · simp [hmeta]
    | none =>
      refine ⟨{ s.filesOf call.ledger with
        present := true
        metaFile := some ⟨call.provenance.endpoint, call.clock.noted⟩ }, run_onFiles_ok ?_, rfl⟩
      rw [LedgerStore.noteFirstSeen, File.run_readMeta_bind, hmeta]
      rfl

/-- A verified run with room lands whole. -/
theorem Sound.run_storeRun {s : LedgerStorage C} (h : Sound s) {call : PushCall C}
    {state : LedgerState C} {events : List Bytes} (hne : events ≠ [])
    (hrun : RunFrom (Accepts LedgerState.apply) (s.stateOf call.ledger) events state)
    (hroom : Room s.setup.caps s.index call.ledger events.length (events.map List.length).sum) :
    run StoreOp.exec (storeRun s.setup call state events) s =
      (.ok ⟨s.countOf call.ledger + (events.length - 1), events.length % 2 ^ 32⟩,
        s.landed call state events) := by
  obtain ⟨files, hnote, hfiles⟩ := run_noteSource s call
  have hheadFile : LedgerFiles.headFile { files with present := true } =
      (s.filesOf call.ledger).headFile := by rw [hfiles]
  have hevents : LedgerFiles.events { files with present := true } =
      (s.filesOf call.ledger).events := by rw [hfiles]
  obtain ⟨cached, hhead, hcount⟩ := h.run_head call.ledger (s.setup.ledger call.ledger)
    call.clock.rebuilt hheadFile hevents
  have hoffered : Offered { files with present := true } (cached.elim 0 fun head => head.seq + 1)
      (numbered C (s.countOf call.ledger) events) := by
    rw [hcount]
    exact offered_of_run ((h.holds call.ledger).of_events hevents)
      (h.length_logOf call.ledger).le hrun
  have happend : run FileOp.exec ((s.setup.ledger call.ledger : LedgerStore C).append
      call.clock.rebuilt call.clock.written (numbered C (s.countOf call.ledger) events)) files =
      (.ok (some (s.headAfter call events)), s.filesAfter call events) := by
    obtain ⟨event, rest, rfl⟩ := List.exists_cons_of_ne_nil hne
    rw [numbered] at hoffered ⊢
    rw [run_append _ hhead hoffered]
    have hlast := getLast_numbered (C := C) (s.countOf call.ledger) (event :: rest) (by simp [numbered])
    simp only [numbered] at hlast
    rw [hlast, hfiles]
    rfl
  rw [storeRun, Shared.run_readIndex_bind, if_neg hne,
    run_lift_ok_bind (checkCaps_eq_ok (u := ()).mpr hroom),
    run_lift_ok_bind (newEvents_of_run _ hrun), run_bind_of_ok hnote]
  have hfile := LedgerStorage.filesOf_withFiles s call.ledger call.ledger files
  rw [if_pos rfl] at hfile
  rw [← hfile, LedgerStorage.countOf] at happend
  rw [run_bind_of_ok (run_onFiles_ok happend), run_lift_ok_bind (Outcome.expect_some _ _),
    Shared.run_writeIndex_bind, run_bind_of_ok (run_recheckFor ..),
    LedgerStorage.withFiles_withFiles]
  rfl

/-! ## A landed run keeps the store sound -/

namespace LedgerStorage

variable (s : LedgerStorage C) (call : PushCall C) (state : LedgerState C) (events : List Bytes)

@[simp] theorem landed_setup : (s.landed call state events).setup = s.setup := rfl

@[simp] theorem landed_index : (s.landed call state events).index = s.indexAfter call state events :=
  rfl

@[simp] theorem filesOf_landed (l : LedgerId) : (s.landed call state events).filesOf l =
    if l = call.ledger then s.filesAfter call events else s.filesOf l :=
  filesOf_withFiles ..

/-- The entry of a ledger once a run has landed. -/
def entryAfter : Entry C :=
  match s.index.ledgers.get? call.ledger with
  | some entry => { entry with
      state := state
      headSeq := (s.headAfter call events).seq
      headEvent := (s.headAfter call events).eventId
      bytes := entry.bytes + (events.map List.length).sum
      updatedMs := call.clock.written }
  | none =>
    { state := state
      headSeq := (s.headAfter call events).seq
      headEvent := (s.headAfter call events).eventId
      bytes := (events.map List.length).sum
      firstSeenMs := (s.notedBy call).firstSeenMs
      updatedMs := call.clock.written
      sourceEndpoint := (s.notedBy call).sourceEndpoint
      forks := [] }

/-- The index after events landed is the one before with the entry replaced. -/
theorem indexAfter_eq : s.indexAfter call state events =
    { ledgers := s.index.ledgers.insert call.ledger (s.entryAfter call state events)
      storageUsed := s.index.storageUsed + (events.map List.length).sum } := by
  unfold indexAfter Index.record entryAfter
  cases s.index.ledgers.get? call.ledger with
  | none => simp [headAfter]
  | some entry => rfl

/-- The entry after events landed counts their bytes. -/
theorem bytes_entryAfter : (s.entryAfter call state events).bytes =
    (s.index.ledgers.get? call.ledger).elim 0 Entry.bytes + (events.map List.length).sum := by
  unfold entryAfter
  cases s.index.ledgers.get? call.ledger with
  | none => simp
  | some entry => rfl

@[simp] theorem state_entryAfter : (s.entryAfter call state events).state = state := by
  unfold entryAfter
  cases s.index.ledgers.get? call.ledger <;> rfl

/-- A landed run leaves the forks alone. -/
theorem forks_entryAfter : (s.entryAfter call state events).forks =
    (s.index.ledgers.get? call.ledger).elim [] Entry.forks := by
  unfold entryAfter
  cases s.index.ledgers.get? call.ledger <;> rfl

/-- The entry names where the run ends, as the head cache does. -/
theorem head_entryAfter : (⟨(s.entryAfter call state events).headSeq,
    (s.entryAfter call state events).headEvent, (s.entryAfter call state events).updatedMs⟩ : Head) =
      s.headAfter call events := by
  unfold entryAfter
  cases s.index.ledgers.get? call.ledger <;> rfl

end LedgerStorage

section Landed

variable {s : LedgerStorage C} {call : PushCall C} {state : LedgerState C} {events : List Bytes}

/-- What is stored of the pushed ledger once a run has landed. -/
theorem Sound.heldAfter (h : Sound s) (hne : events ≠ [])
    (hrun : RunFrom (Accepts LedgerState.apply) (s.stateOf call.ledger) events state)
    (hroom : Room s.setup.caps s.index call.ledger events.length (events.map List.length).sum)
    (hledger : state.ledger = some call.ledger) :
    Held s.setup.caps (s.filesAfter call events) call.ledger (s.entryAfter call state events)
      (s.logOf call.ledger ++ events) := by
  have hlen := h.length_logOf call.ledger
  have hpos : 0 < events.length := List.length_pos_of_ne_nil hne
  have hfold : FoldRun (s.logOf call.ledger ++ events) state := (h.foldRun call.ledger).append hrun
  have hhead := s.head_entryAfter call state events
  have hseq : (s.entryAfter call state events).headSeq =
      s.countOf call.ledger + (events.length - 1) := congrArg Head.seq hhead
  have hevent : (s.entryAfter call state events).headEvent =
      Mabel.eventIdOf C (events.getLastD []) := congrArg Head.eventId hhead
  have hbytes := h.bytes_logOf call.ledger
  constructor
  · have := (h.holds call.ledger).write events
    rw [hlen] at this
    exact this
  · rw [LedgerStorage.state_entryAfter]
    exact hfold
  · rw [LedgerStorage.state_entryAfter]
    exact hledger
  · rw [List.length_append, hlen, Entry.eventCount, hseq]
    omega
  · obtain ⟨timestampMs, hlast⟩ := hfold.head_eq (by simp [hne])
    refine ⟨timestampMs, ?_⟩
    have hlen' : s.countOf call.ledger + events.length - 1 =
        s.countOf call.ledger + (events.length - 1) := by omega
    rw [LedgerStorage.state_entryAfter, hlast, hseq, hevent, List.length_append, hlen, hlen',
      List.getLastD_eq_getLast?, List.getLast?_append_of_ne_nil _ hne,
      ← List.getLastD_eq_getLast?]
  · rw [hhead]
    rfl
  · rw [LedgerStorage.bytes_entryAfter, hbytes, List.map_append, List.sum_append]
  · have := hroom.count
    rw [Entry.eventCount, hseq]
    rw [LedgerStorage.countOf]
    omega
  · rw [LedgerStorage.bytes_entryAfter]
    exact hroom.size

/-- What is stored once a run has landed. -/
theorem Sound.logOf_landed (h : Sound s) (call : PushCall C) (state : LedgerState C)
    (events : List Bytes) (l : LedgerId) : (s.landed call state events).logOf l =
      if l = call.ledger then s.logOf l ++ events else s.logOf l := by
  rw [LedgerStorage.logOf, LedgerStorage.filesOf_landed]
  by_cases hl : l = call.ledger
  · have hwrite := (h.holds call.ledger).write events
    rw [h.length_logOf] at hwrite
    rw [if_pos hl, if_pos hl, hl]
    exact hwrite.stored
  · rw [if_neg hl, if_neg hl]
    rfl

/-- The entries after events landed. -/
theorem LedgerStorage.get?_landed (l : LedgerId) :
    (s.landed call state events).index.ledgers.get? l =
      if l = call.ledger then some (s.entryAfter call state events)
      else s.index.ledgers.get? l := by
  rw [LedgerStorage.landed_index, LedgerStorage.indexAfter_eq, SortedMap.get?_insert]
  by_cases hsame : l = call.ledger
  · rw [if_pos hsame, if_pos hsame]
  · rw [if_neg hsame, if_neg hsame]

/-- A landed run keeps the store sound. -/
theorem Sound.landed (h : Sound s) (hne : events ≠ [])
    (hrun : RunFrom (Accepts LedgerState.apply) (s.stateOf call.ledger) events state)
    (hroom : Room s.setup.caps s.index call.ledger events.length (events.map List.length).sum)
    (hledger : state.ledger = some call.ledger) : Sound (s.landed call state events) := by
  constructor
  · intro l entry hl
    rw [LedgerStorage.get?_landed] at hl
    rw [LedgerStorage.filesOf_landed]
    by_cases hsame : l = call.ledger
    · subst hsame
      rw [if_pos rfl] at hl ⊢
      obtain rfl := Option.some.inj hl
      exact ⟨_, h.heldAfter hne hrun hroom hledger⟩
    · rw [if_neg hsame] at hl ⊢
      exact h.held l entry hl
  · intro l hl
    rw [LedgerStorage.get?_landed] at hl
    rw [LedgerStorage.filesOf_landed]
    by_cases hsame : l = call.ledger
    · simp [hsame] at hl
    · rw [if_neg hsame] at hl ⊢
      exact h.absent l hl
  · have htotal := SortedMap.total_insert Entry.bytes s.index.ledgers call.ledger
      (s.entryAfter call state events)
    rw [LedgerStorage.bytes_entryAfter] at htotal
    rw [LedgerStorage.landed_index, LedgerStorage.indexAfter_eq]
    have := h.used
    dsimp only
    omega
  · rw [LedgerStorage.landed_index, LedgerStorage.indexAfter_eq]
    dsimp only
    cases hl : s.index.ledgers.get? call.ledger with
    | none =>
      rw [SortedMap.length_insert_of_none _ hl]
      exact hroom.ledgers hl
    | some entry =>
      rw [SortedMap.length_insert_of_some _ hl]
      exact h.ledgers
  · rw [LedgerStorage.landed_index, LedgerStorage.indexAfter_eq]
    exact hroom.capacity

end Landed

end Mabel.Node
