import Mabel.Node.Correctness.Crash
import Mabel.Node.Correctness.Discards

/-!
# What a directory stores of a ledger

A directory stores a log when reading it answers that log, whatever lies past it: event files
behind the head cache that a stopped append left, or files past a gap. Reading, telling the
index and appending are said of such directories here.
-/

namespace Mabel.Node

open Wire Proto Net Program

variable {C : Crypto} {files files' : LedgerFiles C} {log : List Bytes} (store : LedgerStore C)

/-! ## Runs of sequences -/

/-- In ascending sequences, a run ends right before the first one that is missing. -/
theorem contiguousFrom_eq {seqs : List Nat} {n : Nat} : ∀ {index : Nat} {last : Option Nat},
    seqs.Pairwise (· < ·) → (∀ seq ∈ seqs, index ≤ seq) → index ≤ n →
    (∀ seq, index ≤ seq → seq < n → seq ∈ seqs) → n ∉ seqs →
    contiguousFrom index last seqs = if n = index then last else some (n - 1) := by
  induction seqs with
  | nil =>
    intro index last _ _ hle hin _
    rw [if_pos (le_antisymm (not_lt.mp fun hlt => absurd (hin index le_rfl hlt) (by simp)) hle)]
    rfl
  | cons first seqs ih =>
    intro index last hsorted hfrom hle hin hnot
    rw [List.pairwise_cons] at hsorted
    rw [contiguousFrom]
    rcases Nat.eq_or_lt_of_le hle with rfl | hlt
    · have hfirst : first ≠ index := by
        rintro rfl
        exact hnot List.mem_cons_self
      rw [if_pos rfl, if_pos hfirst]
    · have hfirst : first = index := by
        have hmem := hin index le_rfl hlt
        rcases List.mem_cons.mp hmem with h | h
        · exact h.symm
        · exact absurd (hsorted.1 index h) (not_lt.mpr (hfrom first List.mem_cons_self))
      rw [if_neg (not_not.mpr hfirst), if_neg (by omega), ih hsorted.2 ?_ hlt ?_ ?_]
      · by_cases hend : n = index + 1
        · rw [if_pos hend, hfirst]
          congr 1
          omega
        · rw [if_neg hend]
      · intro seq hseq
        have := hsorted.1 seq hseq
        omega
      · intro seq hlow hhigh
        rcases List.mem_cons.mp (hin seq (by omega) hhigh) with h | h
        · omega
        · exact h
      · exact fun h => hnot (List.mem_cons_of_mem _ h)

/-- The run of event files from sequence 0 on ends right before one that is missing. -/
theorem exists_missing (events : SortedMap Nat Bytes) : ∃ n, events.get? n = none ∧
    (∀ k < n, events.get? k ≠ none) ∧
      contiguousLast events.keys = if n = 0 then none else some (n - 1) := by
  classical
  have hmissing : ∃ n, n ∉ events.keys := by
    refine ⟨events.keys.sum + 1, fun hmem => ?_⟩
    have := List.le_sum_of_mem hmem
    omega
  refine ⟨Nat.find hmissing, ?_, fun k hk hnone => ?_, ?_⟩
  · by_contra hsome
    obtain ⟨bytes, hbytes⟩ := Option.ne_none_iff_exists'.mp hsome
    exact Nat.find_spec hmissing (SortedMap.mem_keys.mpr ⟨bytes, hbytes⟩)
  · obtain ⟨bytes, hbytes⟩ := SortedMap.mem_keys.mp (not_not.mp (Nat.find_min hmissing hk))
    rw [hnone] at hbytes
    simp at hbytes
  · refine contiguousFrom_eq (List.pairwise_map.mpr events.sorted) (fun _ _ => Nat.zero_le _)
      (Nat.zero_le _) (fun seq _ hseq => ?_) (Nat.find_spec hmissing)
    exact not_not.mp (Nat.find_min hmissing hseq)

/-- Events offered to files are offered to files with the same events. -/
theorem Offered.congr {batch : List NewEvent}
    (hevents : files'.events = files.events) : ∀ {want : Nat}, Offered files want batch →
      Offered files' want batch := by
  induction batch with
  | nil => exact fun _ => trivial
  | cons event batch ih =>
    rintro want ⟨hseq, hhashes, hheld, hrest⟩
    exact ⟨hseq, hhashes, by rwa [hevents], ih hrest⟩

/-- An offered event hashes to its id. -/
theorem Offered.hashes {batch : List NewEvent} : ∀ {want : Nat}, Offered files want batch →
    ∀ {i : Nat} {event : NewEvent}, batch[i]? = some event → Hashes C event := by
  induction batch with
  | nil => simp
  | cons first batch ih =>
    rintro want ⟨-, hhashes, -, hrest⟩ i event hi
    cases i with
    | zero =>
      obtain rfl : first = event := by simpa using hi
      exact hhashes
    | succ i => exact ih hrest (by simpa using hi)

/-! ## Stored logs -/

/-- The event files of a directory begin with a log, and the head is cached at the end of it or,
where there is no cache, the next event file is missing. -/
structure Stores (files : LedgerFiles C) (log : List Bytes) : Prop where
  holds : ∀ seq < log.length, files.events.get? seq = log[seq]?
  decodes : ∀ bytes ∈ log, (SignedEvent.decode bytes).isSome = true
  cached : ∀ head, files.headFile = some head → head.seq + 1 = log.length
  rebuilt : files.headFile = none → files.events.get? log.length = none

namespace Stores

/-- Files with the same events and head store the same log. -/
theorem congr (h : Stores files log) (hevents : files'.events = files.events)
    (hhead : files'.headFile = files.headFile) : Stores files' log :=
  ⟨fun seq hseq => by rw [hevents]; exact h.holds seq hseq, h.decodes,
    fun head hfile => h.cached head (hhead ▸ hfile),
    fun hfile => by rw [hevents]; exact h.rebuilt (hhead ▸ hfile)⟩

/-- A directory whose head is cached at the end of the log. -/
theorem of_cached {head : Head} (holds : ∀ seq < log.length, files.events.get? seq = log[seq]?)
    (decodes : ∀ bytes ∈ log, (SignedEvent.decode bytes).isSome = true)
    (hhead : files.headFile = some head) (hseq : head.seq + 1 = log.length) : Stores files log := by
  refine ⟨holds, decodes, fun head' hhead' => ?_, fun hnone => ?_⟩
  · obtain rfl := Option.some.inj (hhead.symm.trans hhead')
    exact hseq
  · rw [hhead] at hnone
    simp at hnone

/-- A number within the log is an event's. -/
theorem mem_keys (h : Stores files log) {seq : Nat} (hseq : seq < log.length) :
    seq ∈ files.events.keys := by
  refine SortedMap.mem_keys.mpr ⟨log[seq], ?_⟩
  rw [h.holds seq hseq, List.getElem?_eq_getElem hseq]

/-- The last event before a gap is the log's last. -/
theorem contiguousLast_eq (h : Stores files log) (hhead : files.headFile = none) :
    contiguousLast files.events.keys = if log.length = 0 then none else some (log.length - 1) := by
  refine contiguousFrom_eq ?_ (fun _ _ => Nat.zero_le _) (Nat.zero_le _) ?_ ?_
  · exact List.pairwise_map.mpr files.events.sorted
  · exact fun seq _ hseq => h.mem_keys hseq
  · intro hmem
    obtain ⟨bytes, hbytes⟩ := SortedMap.mem_keys.mp hmem
    rw [h.rebuilt hhead] at hbytes
    simp at hbytes

/-- What looking for the head of a stored log finds and leaves. -/
structure Found (p : OnFiles C (Option Head)) (files : LedgerFiles C) (log : List Bytes)
    (cached : Option Head) (files' : LedgerFiles C) : Prop where
  run : Program.run FileOp.exec p files = (.ok cached, files')
  count : (cached.elim 0 fun head => head.seq + 1) = log.length
  events : files'.events = files.events
  headFile : files'.headFile = cached
  stores : Stores files' log
  through : p.Throughout FileOp.exec files fun g => Stores g log

/-- Rebuilding finds the head of the log. -/
theorem rebuildHead (h : Stores files log) (hhead : files.headFile = none) (now : Nat) :
    ∃ cached files', Found (store.rebuildHead now) files log cached files' := by
  have hlast := h.contiguousLast_eq hhead
  by_cases hempty : log.length = 0
  · rw [if_pos hempty] at hlast
    refine ⟨none, files, ?_, hempty.symm, rfl, hhead, h, ?_⟩
    · rw [LedgerStore.rebuildHead, File.run_listEvents_bind, hlast]
      rfl
    · unfold LedgerStore.rebuildHead
      refine .ask_bind h ?_
      simp only [FileOp.exec, hlast]
      exact .done h
  · rw [if_neg hempty] at hlast
    have hlt : log.length - 1 < log.length := by omega
    obtain ⟨signed, hsigned⟩ := Option.isSome_iff_exists.mp
      (h.decodes log[log.length - 1] (List.getElem_mem hlt))
    have hread : run FileOp.exec (store.readEvent (log.length - 1)) files =
        (.ok log[log.length - 1], files) := by
      rw [LedgerStore.readEvent, File.run_readEvent_bind, h.holds _ hlt,
        List.getElem?_eq_getElem hlt]
      rfl
    have hid : store.eventIdOf (log.length - 1) log[log.length - 1] =
        .ok (eventId C signed.body) := eventIdOf_eq_ok.mpr ⟨signed, hsigned, rfl⟩
    let last : Head := ⟨log.length - 1, eventId C signed.body, now⟩
    have hcount : last.seq + 1 = log.length := Nat.sub_add_cancel (by omega)
    have hstores : Stores { files with headFile := some last } log :=
      .of_cached h.holds h.decodes rfl hcount
    refine ⟨some last, { files with headFile := some last }, ?_, hcount, rfl, rfl, hstores, ?_⟩
    · rw [LedgerStore.rebuildHead, File.run_listEvents_bind, hlast]
      dsimp only
      rw [run_bind_of_ok hread, run_lift_ok_bind hid, File.run_writeHead_bind]
      rfl
    · unfold LedgerStore.rebuildHead
      refine .ask_bind h ?_
      simp only [FileOp.exec, hlast]
      refine .after hread (.perform h (.lift_bind h fun _ _ => .done h)) (.lift_bind h fun id hid' => ?_)
      obtain rfl := Except.ok.inj (hid.symm.trans hid')
      exact .perform h (.done hstores)

/-- Looking for the head of a stored log finds its end, and leaves the log stored. -/
theorem head (h : Stores files log) (now : Nat) :
    ∃ cached files', Found (store.head now) files log cached files' := by
  cases hhead : files.headFile with
  | some head =>
    refine ⟨some head, files, run_head_cached hhead now, h.cached head hhead, rfl, hhead, h, ?_⟩
    unfold LedgerStore.head
    refine .ask_bind h ?_
    simp only [FileOp.exec, hhead]
    exact .done h
  | none =>
    obtain ⟨cached, files', hfound⟩ := h.rebuildHead store hhead now
    refine ⟨cached, files', ?_, hfound.count, hfound.events, hfound.headFile, hfound.stores, ?_⟩
    · rw [LedgerStore.head, File.run_readHead_bind, hhead]
      exact hfound.run
    · unfold LedgerStore.head
      refine .ask_bind h ?_
      simp only [FileOp.exec, hhead]
      exact hfound.through

/-- Reading answers a stored log, and leaves it stored. -/
theorem run_readAll (h : Stores files log) (rebuilt : Nat) : ∃ files',
    run FileOp.exec (store.readAll rebuilt) files = (.ok (storedEvents log), files') ∧
      files'.events = files.events ∧ Stores files' log ∧
      (store.readAll rebuilt).Throughout FileOp.exec files fun g => Stores g log := by
  obtain ⟨cached, files', hfound⟩ := h.head store rebuilt
  refine ⟨files', ?_, hfound.events, hfound.stores, .after hfound.run hfound.through ?_⟩
  · rw [LedgerStore.readAll, LedgerStore.readFrom, run_bind_of_ok hfound.run]
    have hcount := hfound.count
    cases cached with
    | none =>
      obtain rfl : log = [] := List.length_eq_zero_iff.mp hcount.symm
      rfl
    | some head =>
      rw [Option.elim_some] at hcount
      change run FileOp.exec (store.readCount 0 (head.seq + 1 - 0)) files' = _
      rw [run_readCount hfound.stores.holds _ 0 (by omega), Nat.sub_zero, hcount, List.drop_zero,
        List.take_length]
      rfl
  · cases cached with
    | none => exact .done hfound.stores
    | some head =>
      refine (store.readCount_performs (P := fun op => ∃ seq, op = .readEvent seq)
        (fun seq => ⟨seq, rfl⟩) _ _).throughout ?_ _ hfound.stores
      rintro _ ⟨seq, rfl⟩ g hg
      exact hg

/-- Files that store a log serve it. -/
theorem serves (h : Stores files log) : store.Serves files log := by
  intro rebuilt
  obtain ⟨files', hrun, -⟩ := h.run_readAll store rebuilt
  rw [hrun]

variable {store} in
/-- A log that is answered and decodes is stored. -/
theorem of_serves (h : store.Serves files log)
    (hdecodes : ∀ bytes ∈ log, (SignedEvent.decode bytes).isSome = true) : Stores files log := by
  rcases hrun : run FileOp.exec (store.readAll 0) files with ⟨x, t⟩
  obtain rfl : x = .ok (storedEvents log) := by
    rw [← h 0, hrun]
  obtain ⟨cached, u, hhead, hread⟩ := run_bind_eq_ok.mp hrun
  obtain ⟨hfile, hevents, hnone⟩ := run_head_eq_ok hhead
  have hget : ∀ k bytes, log[k]? = some bytes → files.events.get? k = some bytes := by
    intro k bytes hk
    have hstored : (storedEvents log)[k]? = some ⟨k, bytes⟩ := by
      simp [storedEvents, hk]
    cases cached with
    | none =>
      obtain ⟨hstored', -⟩ := Prod.mk.inj hread
      rw [← Except.ok.inj hstored'] at hstored
      simp at hstored
    | some head =>
      have := ((run_readCount_eq_ok.mp hread).2.event k _ hstored).2
      rwa [Nat.zero_add, hevents] at this
  have hlength : (cached.elim 0 fun head => head.seq + 1) = log.length := by
    cases cached with
    | none =>
      obtain ⟨hstored, -⟩ := Prod.mk.inj hread
      have := congrArg List.length (Except.ok.inj hstored)
      simpa [storedEvents] using this
    | some head =>
      have hread' : run FileOp.exec (store.readCount 0 (head.seq + 1 - 0)) u =
        (.ok (storedEvents log), t) := hread
      have := (run_readCount_eq_ok.mp hread').2.length
      simpa [storedEvents] using this.symm
  refine ⟨fun seq hseq => ?_, hdecodes, fun head hcache => ?_, fun hcache => ?_⟩
  · rw [List.getElem?_eq_getElem hseq]
    exact hget seq _ (List.getElem?_eq_getElem hseq)
  · rw [run_head_cached hcache 0] at hhead
    obtain ⟨hcached, -⟩ := Prod.mk.inj hhead
    rw [← hlength, ← Except.ok.inj hcached, Option.elim_some]
  · -- The rebuilt head lies right before a missing event file.
    obtain ⟨n, hget, -, hn⟩ := exists_missing files.events
    have hlast : cached.map Head.seq = contiguousLast files.events.keys := by
      rw [LedgerStore.head, File.run_readHead_bind, hcache] at hhead
      exact (run_rebuildHead_eq_ok hcache hhead).2.2
    rw [hn] at hlast
    have hlen : n = log.length := by
      rw [← hlength]
      cases cached with
      | none =>
        rw [Option.elim_none]
        by_contra hne
        rw [if_neg hne] at hlast
        simp at hlast
      | some head =>
        by_cases hzero : n = 0
        · rw [if_pos hzero] at hlast
          simp at hlast
        · rw [if_neg hzero] at hlast
          have := Option.some.inj hlast
          rw [Option.elim_some]
          omega
    rw [← hlen]
    exact hget

/-! ## Loading -/

/-- Loading answers a stored chain that verifies. -/
theorem run_load {loaded : LoadedLedger C} (h : Stores files loaded.events)
    (hverifies : loaded.Verifies store.ledger) (now : Nat) : ∃ files',
      run FileOp.exec (load store now) files = (.ok loaded, files') ∧
        files'.events = files.events ∧ Stores files' loaded.events := by
  obtain ⟨files', hread, hevents, hstores, -⟩ := h.run_readAll store now
  have hbytes : (storedEvents loaded.events).map StoredEvent.bytes = loaded.events := by
    simp [storedEvents, Function.comp_def]
  refine ⟨files', ?_, hevents, hstores⟩
  rw [load, run_bind_of_ok (run_mapReject_eq_ok.mpr hread), hbytes,
    run_lift_ok_bind (hverifies.fold_eq (WalletError C)), run_lift_ok_bind (a := ())]
  · rfl
  · rw [Outcome.rejectIf, if_neg hverifies.ne_nil]

/-- Reading a directory into an index entry leaves a stored log stored, wherever it stops. -/
theorem throughout_loadEntry (h : Stores files log) (clock : LoadClock) :
    (loadEntry store clock).Throughout FileOp.exec files fun g => Stores g log := by
  obtain ⟨files', hread, -, hstores, hthrough⟩ := h.run_readAll store clock.rebuilt
  refine .after hread hthrough ?_
  have hlooks : ∀ op : FileOp C, (∀ g, (op.exec g).2 = g) → ∀ g, Stores g log →
      Stores (op.exec g).2 log := fun op hop g hg => by rw [hop g]; exact hg
  refine Performs.throughout (P := fun op => ∀ g, (op.exec g).2 = g) ?_ hlooks _ hstores
  refine .ite (.pure _) (.bind (.lift _) fun served => .ite (.pure _) ?_)
  refine .bind (.ask fun _ => rfl) fun _ => .bind (.ask fun _ => rfl) fun _ =>
    .bind (.ask fun _ => rfl) fun listed => .bind ?_ fun _ => .pure _
  induction listed with
  | nil => exact .pure _
  | cons name listed ih =>
    exact .bind (.ask fun _ => rfl) fun _ => .bind (.lift _) fun _ => .bind ih fun _ => .pure _

/-- Reading a stored run into an index entry answers. -/
theorem run_loadEntry {state : LedgerState C} (h : Stores files log) (hrun : FoldRun log state)
    (clock : LoadClock) : ∃ entry files',
      run FileOp.exec (loadEntry store clock) files = (.ok entry, files') := by
  obtain ⟨files', hread, -⟩ := h.run_readAll store clock.rebuilt
  obtain ⟨x, hx, hload⟩ := loadEntry_of_readAll store files' (storedEvents log)
    (run_readAll_eq_ok hread).2.1
  have hbytes : (storedEvents log).map StoredEvent.bytes = log := by
    simp [storedEvents, Function.comp_def]
  obtain ⟨served, hserve, -⟩ := @serve_run C (storedEvents log) Served.none state
    (hbytes.symm ▸ hrun)
  cases x with
  | error e => exact absurd (hserve.symm.trans (hx e rfl)) (by simp)
  | ok entry => exact ⟨entry, files', hload clock files hread⟩

end Stores

/-- The files of a ledger in a home store a log. -/
abbrev StoresOf (ledger : LedgerId) (log : List Bytes) (s : LedgerStorage C) : Prop :=
  Stores (s.filesOf ledger) log

theorem storesOf_withFiles {s : LedgerStorage C} {ledger : LedgerId} :
    StoresOf ledger log (s.withFiles ledger files) ↔ Stores files log := by
  rw [StoresOf, LedgerStorage.filesOf_withFiles, if_pos rfl]

/-- Telling the index leaves a stored log stored, wherever it stops. -/
theorem StoresOf.throughout_note {ε : Type} {s : LedgerStorage C} {ledger : LedgerId}
    (h : StoresOf ledger log s) (setup : Setup) (clock : LoadClock) :
    (note setup ledger clock : OnNode C ε Unit).Throughout StoreOp.exec s (StoresOf ledger log) := by
  have hentry : (onLedger ledger (loadEntry (setup.ledger ledger) clock)).Throughout StoreOp.exec s
      (StoresOf ledger log) :=
    throughout_onLedger.mpr ((h.throughout_loadEntry _ clock).mono fun g hg =>
      storesOf_withFiles.mpr hg)
  have hnote : ((noteLedger setup ledger clock).attempt : OnNode C ε (Option Unit)).Throughout
      StoreOp.exec s (StoresOf ledger log) := by
    refine .attempt (hentry.bind fun entry t ht => ?_)
    have hafter := hentry.final
    rw [ht] at hafter
    refine Performs.throughout (P := fun op => ∀ s, ((op.exec s).2.filesOf ledger) =
      s.filesOf ledger) ?_ (fun op hop s hs => by rw [StoresOf, hop s]; exact hs) _ hafter
    refine .bind (.ask fun _ => rfl) fun _ => .andFinally ?_ fun _ => rfl
    refine .bind (.ask fun _ => rfl) fun index => .bind (.ask fun _ => rfl) fun _ => ?_
    exact .ite (.bind (.ask fun _ => rfl) fun _ => .pure _) (.pure _)
  refine hnote.bind fun _ t ht => .done ?_
  have hafter := hnote.final
  rwa [ht] at hafter

/-- Telling the index of a stored run answers. -/
theorem StoresOf.run_note {ε : Type} {s : LedgerStorage C} {ledger : LedgerId}
    {state : LedgerState C} (h : StoresOf ledger log s) (hrun : FoldRun log state) (setup : Setup)
    (clock : LoadClock) : ∃ t, run StoreOp.exec (note setup ledger clock : OnNode C ε Unit) s =
      (.ok (), t) ∧ StoresOf ledger log t := by
  have hafter := (@throughout_note C log ε s ledger h setup clock).final
  suffices hok : (run StoreOp.exec (note setup ledger clock : OnNode C ε Unit) s).1 = .ok () by
    exact ⟨_, Prod.ext hok rfl, hafter⟩
  obtain ⟨entry, files', hload⟩ := h.run_loadEntry (setup.ledger ledger) hrun clock
  have hentry : run StoreOp.exec (onLedger ledger (loadEntry (setup.ledger ledger) clock)) s =
      (.ok entry, s.withFiles ledger files') := by
    rw [run_onLedger, hload]
  have hnoted : (run StoreOp.exec (noteLedger setup ledger clock) s).1 = .ok () := by
    rw [noteLedger, run_bind_of_ok hentry, Shared.run_lockIndex_bind, run_andFinally, noteEntry,
      Shared.run_readIndex_bind]
    dsimp only
    rw [Shared.run_writeIndex_bind, run_recheckFor]
  have hattempt : run StoreOp.exec ((noteLedger setup ledger clock).attempt :
      OnNode C ε (Option Unit)) s =
      (.ok (some ()), (run StoreOp.exec (noteLedger setup ledger clock) s).2) := by
    rw [run_attempt, hnoted]
    rfl
  rw [note, run_bind_of_ok hattempt]
  rfl

/-! ## Appending -/

namespace Stores

/-- A batch that may be appended extends a stored log. -/
theorem run_append {batch : List NewEvent} (h : Stores files log)
    (hoffered : Offered files log.length batch) (rebuilt now : Nat) : ∃ head files',
      run FileOp.exec (store.append rebuilt now batch) files = (.ok head, files') ∧
        Stores files' (log ++ batchBytes batch) := by
  cases batch with
  | nil =>
    obtain ⟨cached, files', hfound⟩ := h.head store rebuilt
    refine ⟨cached, files', hfound.run, ?_⟩
    rw [batchBytes, List.map_nil, List.append_nil]
    exact hfound.stores
  | cons first rest =>
    have hpresent : Stores { files with present := true } log := h.congr rfl rfl
    obtain ⟨cached, files', hfound⟩ := hpresent.head store rebuilt
    have hevents : files'.events = files.events := hfound.events
    have hoffered' : Offered files' (cached.elim 0 fun head => head.seq + 1) (first :: rest) := by
      rw [hfound.count]
      exact hoffered.congr hevents
    have hseqs := hoffered.seqs
    have hlast : ((first :: rest).getLast (by simp)).seq = log.length + rest.length := by
      refine hseqs rest.length _ ?_
      rw [List.getLast_eq_getElem]
      exact List.getElem?_eq_getElem _
    refine ⟨_, _, Node.run_append now hfound.run hoffered', of_cached (fun seq hseq => ?_) ?_ rfl ?_⟩
    · rw [List.length_append, length_batchBytes] at hseq
      dsimp only
      rw [get?_write hseqs seq, hfound.events]
      by_cases hlow : log.length ≤ seq
      · rw [if_pos ⟨hlow, hseq⟩, List.getElem?_append_right hlow, batchBytes, List.getElem?_map]
      · rw [if_neg fun hin => hlow hin.1, List.getElem?_append_left (by omega)]
        exact h.holds seq (by omega)
    · intro bytes hmem
      rcases List.mem_append.mp hmem with hold | hnew
      · exact h.decodes bytes hold
      · obtain ⟨event, hevent, rfl⟩ := List.mem_map.mp hnew
        obtain ⟨i, hi⟩ := List.mem_iff_getElem?.mp hevent
        obtain ⟨signed, hsigned, -⟩ := hoffered.hashes hi
        rw [hsigned]
        rfl
    · rw [List.length_append, length_batchBytes, List.length_cons]
      dsimp only
      omega

/-- A batch that may not be appended is refused, and the log stays stored. -/
theorem append_refused {batch : List NewEvent} (h : Stores files log)
    (hoffered : ¬ Offered files log.length batch) (rebuilt now : Nat) : ∃ e files',
      run FileOp.exec (store.append rebuilt now batch) files = (.error e, files') ∧
        Stores files' log := by
  cases batch with
  | nil => exact absurd trivial hoffered
  | cons first rest =>
    have hpresent : Stores { files with present := true } log := h.congr rfl rfl
    obtain ⟨cached, files', hfound⟩ := hpresent.head store rebuilt
    have hevents : files.events = files'.events := hfound.events.symm
    obtain ⟨x, hchecks, hiff⟩ := run_checkEvents store files' (first :: rest)
      (cached.elim 0 fun head => head.seq + 1)
    rw [hfound.count] at hiff
    cases x with
    | ok u => exact absurd ((hiff.mp rfl).congr hevents) hoffered
    | error e =>
      refine ⟨e, files', run_bind_of_error ?_, hfound.stores⟩
      rw [LedgerStore.writeEvents, File.run_createDir_bind, run_bind_of_ok hfound.run]
      exact run_bind_of_error hchecks

end Stores

end Mabel.Node
