import Mabel.Node.Correctness.FirstSeen
import Mabel.Node.Directory

/-!
# Crashes inside an append

From an empty directory on, appends of any batches are stopped at any operation, the head
cache is lost and reads put it back. What is served is always a run of events as they were
offered, it only grows, and what is left of a batch can be appended where the crash left it.
-/

namespace Mabel.Node

open Wire Proto Program

variable {C : Crypto}

/-! ## What happens to a directory -/

/-- What happens to a ledger directory. -/
inductive Happening where
  /-- An append that is stopped after a number of operations. -/
  | append (rebuilt now : Nat) (batch : List NewEvent) (operations : Nat)
  | read (rebuilt : Nat)
  /-- `head.json` is deleted. -/
  | loseHead

namespace LedgerStore

variable (store : LedgerStore C)

/-- The directory after one happening. -/
def happen (files : LedgerFiles C) : Happening → LedgerFiles C
  | .append rebuilt now batch operations =>
    cut FileOp.exec operations (store.append rebuilt now batch) files
  | .read rebuilt => (run FileOp.exec (store.readAll rebuilt) files).2
  | .loseHead => (FileOp.removeHead.exec files).2

/-- The directory after a sequence of happenings. -/
def happens (happenings : List Happening) : LedgerFiles C :=
  happenings.foldl store.happen LedgerFiles.none

/-- Reading everything answers a run of events. -/
def Serves (files : LedgerFiles C) (log : List Bytes) : Prop :=
  ∀ rebuilt, (run FileOp.exec (store.readAll rebuilt) files).1 = .ok (storedEvents log)

end LedgerStore

/-- An event was offered at a sequence. -/
def OfferedAt (happenings : List Happening) (seq : Nat) (bytes : Bytes) : Prop :=
  ∃ rebuilt now batch operations, Happening.append rebuilt now batch operations ∈ happenings ∧
    ∃ event ∈ batch, event.seq = seq ∧ event.bytes = bytes

/-- What was offered stays offered when more happens. -/
theorem OfferedAt.of_subset {before after : List Happening} {seq : Nat} {bytes : Bytes}
    (h : OfferedAt before seq bytes) (hsubset : before ⊆ after) : OfferedAt after seq bytes := by
  obtain ⟨rebuilt, now, batch, operations, hmem, hevent⟩ := h
  exact ⟨rebuilt, now, batch, operations, hsubset hmem, hevent⟩

/-- A directory serves the part of its log that the head covers. -/
theorem Directory.serves (store : LedgerStore C) {files : LedgerFiles C} {log : List Bytes}
    {served : Nat} (h : Directory files log served) : store.Serves files (log.take served) := by
  intro rebuilt
  obtain ⟨files', hrun, -⟩ := h.run_readAll store rebuilt
  rw [hrun]

/-- A log is known by its stored events. -/
theorem storedEvents_injective {log log' : List Bytes} (h : storedEvents log = storedEvents log') :
    log = log' := by
  have := congrArg (List.map StoredEvent.bytes) h
  simpa [storedEvents, Function.comp_def] using this

/-- What is served is one run. -/
theorem LedgerStore.Serves.unique {store : LedgerStore C} {files : LedgerFiles C}
    {log log' : List Bytes} (h : store.Serves files log) (h' : store.Serves files log') :
    log = log' := storedEvents_injective (Except.ok.inj ((h 0).symm.trans (h' 0)))

/-! ## One happening -/

/-- How a happening changes a directory: the log grows, and so does what is served of it. -/
structure Grows (log : List Bytes) (served : Nat) (happening : Happening) (files : LedgerFiles C)
    (log' : List Bytes) (served' : Nat) : Prop where
  directory : Directory files log' served'
  extends_log : log <+: log'
  served_le : served ≤ served'
  origin : ∀ seq bytes, log'[seq]? = some bytes →
    log[seq]? = some bytes ∨ OfferedAt [happening] seq bytes

/-- Nothing grew. -/
theorem Directory.unchanged {files : LedgerFiles C} {log : List Bytes} {served : Nat}
    (h : Directory files log served) (happening : Happening) :
    Grows log served happening files log served :=
  ⟨h, List.prefix_rfl, le_rfl, fun _ _ hseq => .inl hseq⟩

/-- Whatever happens, the directory grows by what it may. -/
theorem Directory.happen (store : LedgerStore C) {files : LedgerFiles C} {log : List Bytes}
    {served : Nat} (h : Directory files log served) (happening : Happening) :
    ∃ log' served', Grows log served happening (store.happen files happening) log' served' := by
  cases happening with
  | append rebuilt now batch operations =>
    by_cases hfits : Fits C log served batch
    · obtain ⟨m, served', hle, -, hdirectory, hlow, -⟩ :=
        (h.throughout_append store hfits rebuilt now operations).reached
      refine ⟨_, served', hdirectory, ?_, hlow, ?_⟩
      · have htake := List.take_prefix_take_left (l := splicedLog log served (batchBytes batch)) hle
        rwa [take_splicedLog h.served_le hfits.agrees] at htake
      · intro seq bytes hseq
        rw [List.getElem?_take] at hseq
        split_ifs at hseq
        rcases hfits.origin h.served_le hseq with hlog | ⟨event, hmem, hevent, hbytes, -⟩
        · exact .inl hlog
        · exact .inr ⟨rebuilt, now, batch, operations, List.mem_singleton_self _, event, hmem,
            hevent, hbytes⟩
    · exact ⟨log, served,
        ((h.refused store hfits rebuilt now).2 operations).unchanged _⟩
  | read rebuilt =>
    obtain ⟨files', hrun, -, hdirectory, -⟩ := h.run_readAll store rebuilt
    refine ⟨log, served, Directory.unchanged ?_ _⟩
    rw [LedgerStore.happen, hrun]
    exact hdirectory
  | loseHead =>
    exact ⟨log, log.length, h.loseHead, List.prefix_rfl, h.served_le, fun _ _ hseq => .inl hseq⟩

/-! ## Sequences of happenings -/

/-- After any happenings from a directory on, its log has grown, and so has what is served. -/
theorem Directory.happens (store : LedgerStore C) (happenings : List Happening) :
    ∀ {files : LedgerFiles C} {log : List Bytes} {served : Nat}, Directory files log served →
      ∃ log' served', Directory (happenings.foldl store.happen files) log' served' ∧
        log <+: log' ∧ served ≤ served' ∧ ∀ seq bytes, log'[seq]? = some bytes →
          log[seq]? = some bytes ∨ OfferedAt happenings seq bytes := by
  induction happenings with
  | nil => exact fun h => ⟨_, _, h, List.prefix_rfl, le_rfl, fun _ _ hseq => .inl hseq⟩
  | cons happening happenings ih =>
    intro files log served h
    obtain ⟨log', served', hgrows⟩ := h.happen store happening
    obtain ⟨log'', served'', hdirectory, hextends, hle, horigin⟩ := ih hgrows.directory
    refine ⟨log'', served'', hdirectory, hgrows.extends_log.trans hextends,
      hgrows.served_le.trans hle, fun seq bytes hseq => ?_⟩
    rcases horigin seq bytes hseq with hlog | hoffered
    · rcases hgrows.origin seq bytes hlog with hlog | hoffered
      · exact .inl hlog
      · exact .inr (hoffered.of_subset (by simp))
    · exact .inr (hoffered.of_subset (List.subset_cons_self _ _))

/-- What one read answers, every read answers. -/
theorem LedgerStore.serves_of_read {store : LedgerStore C} {happenings : List Happening}
    {log : List Bytes} (h : (run FileOp.exec (store.readAll 0) (store.happens happenings)).1 =
      .ok (storedEvents log)) : store.Serves (store.happens happenings) log := by
  obtain ⟨whole, served, hdirectory, -⟩ :=
    (directory_none : Directory (LedgerFiles.none : LedgerFiles C) [] 0).happens store
      happenings
  have hserves : store.Serves (store.happens happenings) (whole.take served) := hdirectory.serves store
  rwa [storedEvents_injective (Except.ok.inj (h.symm.trans (hserves 0)))]

/-- Where a log grows and what is served of it grows, the served run grows. -/
theorem take_prefix_take {log log' : List Bytes} {served served' : Nat} (hlog : log <+: log')
    (hserved : served ≤ served') (hle : served ≤ log.length) :
    log.take served <+: log'.take served' := by
  obtain ⟨more, rfl⟩ := hlog
  rw [← @List.take_append_of_le_length _ _ more _ hle]
  exact List.take_prefix_take_left hserved

/-- An append that fails changes no event file. -/
theorem append_error_events {store : LedgerStore C} {files : LedgerFiles C} {rebuilt now : Nat}
    {batch : List NewEvent} {e : Fault StorageError}
    (h : (run FileOp.exec (store.append rebuilt now batch) files).1 = .error e) :
    (run FileOp.exec (store.append rebuilt now batch) files).2.events = files.events := by
  by_cases hne : batch = []
  · subst hne
    obtain ⟨cached, hframe⟩ := FileOp.Looks.frame (store.head_looks rebuilt) files
    rw [LedgerStore.append, hframe]
  · rcases append_cases store rebuilt now hne files with ⟨_, -, hsame⟩ | ⟨head, hok⟩
    · exact hsame
    · rw [h] at hok
      simp at hok

/-! ## Crash safety -/

/-- What is left of a stopped batch is appended, and the old run and the whole batch are
served. -/
def Resumes (store : LedgerStore C) (log : List Bytes) (batch : List NewEvent)
    (files : LedgerFiles C) : Prop :=
  ∃ served, store.Serves files served ∧ log.length ≤ served.length ∧
    ∀ rebuilt now, ∃ head files',
      run FileOp.exec (store.append rebuilt now (batch.drop (served.length - log.length))) files =
        (.ok head, files') ∧ store.Serves files' (log ++ batchBytes batch)

/-- An append after a cut finishes the splice. -/
theorem Directory.resumes {store : LedgerStore C} {files : LedgerFiles C} {log : List Bytes}
    {start served m : Nat} {batch : List NewEvent}
    (h : Directory files ((splicedLog log start (batchBytes batch)).take m) served)
    (hfits : Fits C log start batch) (hstart : start ≤ log.length) (hlow : start ≤ served)
    (hhigh : served ≤ start + batch.length) :
    Resumes store (log.take start) batch files := by
  have hlen : ((((splicedLog log start (batchBytes batch)).take m).take served)).length = served := by
    rw [List.length_take, min_eq_left h.served_le]
  have hlen' : (log.take start).length = start := by rw [List.length_take, min_eq_left hstart]
  refine ⟨_, h.serves store, ?_, fun rebuilt now => ?_⟩
  · rw [hlen, hlen']
    exact hlow
  · obtain ⟨head, files', log', hrun, hdirectory, hlog'⟩ :=
      h.resume store hfits hstart hlow hhigh rebuilt now
    rw [hlen, hlen']
    refine ⟨head, files', hrun, ?_⟩
    rw [← hlog']
    exact hdirectory.serves store

/-- An append is taken exactly where its batch fits. -/
theorem Directory.append_isOk_iff {store : LedgerStore C} {files : LedgerFiles C} {log : List Bytes}
    {served : Nat} {batch : List NewEvent} (h : Directory files log served) (rebuilt now : Nat) :
    (∃ head, (run FileOp.exec (store.append rebuilt now batch) files).1 = .ok head) ↔
      Fits C log served batch := by
  constructor
  · rintro ⟨head, hok⟩
    by_contra hnot
    obtain ⟨e, he⟩ := (h.refused store hnot rebuilt now).1
    exact absurd (hok.symm.trans he) (by simp)
  · intro hfits
    by_cases hne : batch = []
    · subst hne
      obtain ⟨cached, files', hhead⟩ := h.head store rebuilt
      exact ⟨cached, congrArg Prod.fst hhead.run⟩
    · obtain ⟨head, files', hrun, -⟩ := h.append store hfits hne rebuilt now
      exact ⟨some head, congrArg Prod.fst hrun⟩

/-- Append crash safety. From an empty directory on, after any appends stopped anywhere and
any losses of the head cache: reading answers a run of events each offered at its sequence;
later runs extend it; a failing append changes no event file; an append is taken exactly where
its batch fits the event files; and wherever an append of such a batch is stopped, the rest of
the batch is taken there and leaves the old run and the whole batch, also when the head cache is
lost then and no event file lies past the batch. -/
theorem append_crash_safe (store : LedgerStore C) (happenings : List Happening) :
    ∃ whole log, (store.happens happenings).Holds whole ∧ log <+: whole ∧
      store.Serves (store.happens happenings) log ∧
      (∀ seq bytes, log[seq]? = some bytes → OfferedAt happenings seq bytes) ∧
      (∀ later, ∃ more, store.Serves (store.happens (happenings ++ later)) (log ++ more)) ∧
      (∀ rebuilt now batch e,
        (run FileOp.exec (store.append rebuilt now batch) (store.happens happenings)).1 = .error e →
        (run FileOp.exec (store.append rebuilt now batch) (store.happens happenings)).2.events =
          (store.happens happenings).events) ∧
      (∀ rebuilt now batch, (∃ head, (run FileOp.exec (store.append rebuilt now batch)
          (store.happens happenings)).1 = .ok head) ↔ Fits C whole log.length batch) ∧
      ∀ batch, Fits C whole log.length batch → ∀ rebuilt now operations,
        Resumes store log batch
            (store.happen (store.happens happenings) (.append rebuilt now batch operations)) ∧
          (whole.length ≤ log.length + batch.length →
            Resumes store log batch (store.happen (store.happen (store.happens happenings)
              (.append rebuilt now batch operations)) .loseHead)) := by
  obtain ⟨log, served, h, -, -, horigin⟩ :=
    (directory_none : Directory (LedgerFiles.none : LedgerFiles C) [] 0).happens store
      happenings
  have hlen : (log.take served).length = served := by rw [List.length_take, min_eq_left h.served_le]
  refine ⟨log, log.take served, h.holds, List.take_prefix _ _, h.serves store, ?_, ?_,
    fun _ _ _ _ => append_error_events, ?_, ?_⟩
  · intro seq bytes hseq
    rw [List.getElem?_take] at hseq
    split_ifs at hseq
    exact (horigin seq bytes hseq).resolve_left (by simp)
  · intro later
    obtain ⟨log', served', h', hextends, hle, -⟩ := h.happens store later
    obtain ⟨more, hmore⟩ := take_prefix_take hextends hle h.served_le
    refine ⟨more, ?_⟩
    rw [hmore, LedgerStore.happens, List.foldl_append]
    exact h'.serves store
  · intro rebuilt now batch
    rw [hlen]
    exact h.append_isOk_iff rebuilt now
  · intro batch hfits rebuilt now operations
    rw [hlen] at hfits ⊢
    obtain ⟨m, served', -, hle, hdirectory, hlow, hhigh⟩ :=
      (h.throughout_append store hfits rebuilt now operations).reached
    refine ⟨hdirectory.resumes hfits h.served_le hlow hhigh, fun hshort => ?_⟩
    -- No event file past the batch: what is left of the log is a part of the batch.
    have hfull := length_splicedLog (batchBytes batch) h.served_le
    rw [length_batchBytes, max_eq_right hshort] at hfull
    refine hdirectory.loseHead.resumes hfits h.served_le ?_ ?_
    · exact hlow.trans hdirectory.served_le
    · rw [List.length_take]
      omega

def sampleStore : LedgerStore Crypto.sample := sampleSetup.ledger sampleLedgerId

/-- The inception of the sample ledger is appended. -/
def sampleHappenings : List Happening :=
  [.append 1 2 (numbered Crypto.sample 0 (sampleLedger.take 1)) 100]

/-- The next two events of the sample ledger. -/
def sampleBatch : List NewEvent := numbered Crypto.sample 1 ((sampleLedger.drop 1).take 2)

/-- An append of two events is stopped between their files, and the rest of it can be appended. -/
theorem append_crash_safe_sampleHappenings :
    let files := sampleStore.happen (sampleStore.happens sampleHappenings) (.append 1 2 sampleBatch 5)
    sampleStore.Serves (sampleStore.happens sampleHappenings) (sampleLedger.take 1) ∧
      files.events.keys = [0, 1] ∧ files.headFile.map Head.seq = some 0 ∧
      Resumes sampleStore (sampleLedger.take 1) sampleBatch files := by
  intro files
  obtain ⟨whole, log, -, -, hserves, -, -, -, htaken, hresumes⟩ :=
    append_crash_safe sampleStore sampleHappenings
  obtain ⟨hread, hok, hkeys, hhead⟩ : (run FileOp.exec (sampleStore.readAll 0)
        (sampleStore.happens sampleHappenings)).1 = .ok (storedEvents (sampleLedger.take 1)) ∧
      (run FileOp.exec (sampleStore.append 1 2 sampleBatch)
        (sampleStore.happens sampleHappenings)).1.isOk = true ∧
      files.events.keys = [0, 1] ∧ files.headFile.map Head.seq = some 0 := by
    decide +kernel
  have hserved : sampleStore.Serves (sampleStore.happens sampleHappenings) (sampleLedger.take 1) :=
    LedgerStore.serves_of_read hread
  obtain rfl := hserves.unique hserved
  have hfits : Fits Crypto.sample whole (sampleLedger.take 1).length sampleBatch := by
    refine (htaken 1 2 sampleBatch).mp ?_
    cases hrun : (run FileOp.exec (sampleStore.append 1 2 sampleBatch)
        (sampleStore.happens sampleHappenings)).1 with
    | ok head => exact ⟨head, rfl⟩
    | error e => simp [hrun, Except.isOk, Except.toBool] at hok
  exact ⟨hserves, hkeys, hhead, (hresumes sampleBatch hfits 1 2 5).1⟩

end Mabel.Node
