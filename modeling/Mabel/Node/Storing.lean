import Mabel.Core.Divergence
import Mabel.Node.Stored

/-!
# Storing and dropping over a stored log

A served run is compared with the stored log as far as both go and appended from where the log
ends; a truncation leaves the beginning of the log. What the two do, alone and as operations of
a wallet, is said here once.
-/

namespace Mabel.Node

open Wire Proto Net Program

variable {C : Crypto} {files files' : LedgerFiles C} {log : List Bytes} (store : LedgerStore C)

/-! ## Storing what was served -/

/-- Events that decode are numbered on. -/
theorem servedBatch_eq (events : List Bytes) : ∀ seq,
    (∀ bytes ∈ events, (SignedEvent.decode bytes).isSome = true) →
    servedBatch C seq events = .ok (numbered C seq events) := by
  induction events with
  | nil => exact fun _ _ => rfl
  | cons bytes events ih =>
    intro seq hdecodes
    obtain ⟨signed, hsigned⟩ := Option.isSome_iff_exists.mp (hdecodes bytes List.mem_cons_self)
    have hid : decodedId C bytes = some (Mabel.eventIdOf C bytes) := by
      rw [decodedId, Mabel.eventIdOf, bodyOf, hsigned]
      rfl
    rw [servedBatch, hid, Outcome.orReject_some, Outcome.ok_bind,
      ih (seq + 1) fun event hmem => hdecodes event (List.mem_cons_of_mem _ hmem)]
    rfl

/-- Events that decode may be appended where no other event lies in their place. -/
theorem offered_numbered (events : List Bytes) : ∀ start,
    (∀ bytes ∈ events, (SignedEvent.decode bytes).isSome = true) →
    (Offered files start (numbered C start events) ↔ ∀ i bytes held, events[i]? = some bytes →
      files.events.get? (start + i) = some held → held = bytes) := by
  induction events with
  | nil => exact fun start _ => iff_of_true trivial fun i bytes held hi => by simp at hi
  | cons bytes events ih =>
    intro start hdecodes
    obtain ⟨signed, hsigned⟩ := Option.isSome_iff_exists.mp (hdecodes bytes List.mem_cons_self)
    have hhashes : Hashes C ⟨start, Mabel.eventIdOf C bytes, bytes⟩ := by
      refine ⟨signed, hsigned, ?_⟩
      rw [Mabel.eventIdOf, bodyOf, hsigned]
      rfl
    rw [numbered, Offered, ih (start + 1) fun event hmem => hdecodes event
      (List.mem_cons_of_mem _ hmem)]
    constructor
    · rintro ⟨-, -, hfirst, hrest⟩ i event held hi hget
      cases i with
      | zero =>
        obtain rfl : bytes = event := by simpa using hi
        exact hfirst held hget
      | succ i => exact hrest i event held (by simpa using hi) (by rwa [Nat.add_right_comm])
    · intro h
      refine ⟨rfl, hhashes, fun held hget => h 0 bytes held rfl hget, fun i event held hi hget => ?_⟩
      exact h (i + 1) event held (by simpa using hi) (by rwa [Nat.add_right_comm] at hget)

/-- A numbered batch has the bytes it was made of. -/
theorem batchBytes_numbered (start : Nat) (events : List Bytes) :
    batchBytes (numbered C start events) = events := by
  apply List.ext_getElem?
  intro i
  rw [batchBytes, List.getElem?_map, getElem?_numbered, Option.map_map]
  exact Option.map_id'

/-- A served run is compared with the files up to the first one that differs. -/
theorem run_compareStored (events : List Bytes) : ∀ seq,
    (∀ i < events.length, files.events.get? (seq + i) ≠ none) →
    ∃ x, run FileOp.exec (compareStored store seq events) files = (x, files) ∧
      ((x = .ok () ∧ ∀ i bytes, events[i]? = some bytes →
          files.events.get? (seq + i) = some bytes) ∨
        ∃ k, x = Outcome.reject (.divergentLocalCopy store.ledger k) ∧
          ¬ ∀ i bytes, events[i]? = some bytes → files.events.get? (seq + i) = some bytes) := by
  induction events with
  | nil => exact fun seq _ => ⟨.ok (), rfl, .inl ⟨rfl, fun i bytes hi => by simp at hi⟩⟩
  | cons bytes events ih =>
    intro seq hheld
    obtain ⟨stored, hstored⟩ := Option.ne_none_iff_exists'.mp (hheld 0 (by simp))
    rw [Nat.add_zero] at hstored
    have hread : run FileOp.exec ((store.readEvent seq).mapReject (CoreError.storage (C := C)))
        files = (.ok stored, files) := by
      rw [run_mapReject, LedgerStore.readEvent, File.run_readEvent_bind, hstored]
      rfl
    rw [compareStored, run_bind_of_ok hread]
    by_cases hsame : stored = bytes
    · have hcheck : Outcome.rejectIf (stored ≠ bytes)
          (CoreError.divergentLocalCopy (C := C) store.ledger seq) = .ok () := by
        rw [Outcome.rejectIf, if_neg (not_not.mpr hsame)]
      obtain ⟨x, hrun, hcases⟩ := ih (seq + 1) fun i hi => by
        rw [Nat.add_right_comm]
        exact hheld (i + 1) (by simpa using hi)
      have hall : (∀ i event, (bytes :: events)[i]? = some event →
          files.events.get? (seq + i) = some event) ↔ ∀ i event, events[i]? = some event →
          files.events.get? (seq + 1 + i) = some event := by
        constructor
        · intro h i event hi
          rw [Nat.add_right_comm]
          exact h (i + 1) event (by simpa using hi)
        · intro h i event hi
          cases i with
          | zero =>
            obtain rfl : bytes = event := by simpa using hi
            rw [Nat.add_zero, hstored, hsame]
          | succ i =>
            rw [← Nat.add_assoc, Nat.add_right_comm]
            exact h i event (by simpa using hi)
      rw [run_lift_ok_bind hcheck, hall]
      exact ⟨x, hrun, hcases⟩
    · have hcheck : Outcome.rejectIf (stored ≠ bytes)
          (CoreError.divergentLocalCopy (C := C) store.ledger seq) =
            Outcome.reject (.divergentLocalCopy store.ledger seq) := by
        rw [Outcome.rejectIf, if_pos hsame]
      refine ⟨_, run_lift_error_bind hcheck, .inr ⟨seq, rfl, fun h => hsame ?_⟩⟩
      have := h 0 bytes rfl
      rw [Nat.add_zero, hstored] at this
      exact Option.some.inj this

namespace Stores

/-- A served run is compared with a stored log as far as both go. -/
theorem run_compare (h : Stores files log) (events : List Bytes) : ∃ x,
    run FileOp.exec (compareStored store 0 (events.take log.length)) files = (x, files) ∧
      ((x = .ok () ∧ Comparable log events) ∨
        ∃ k, x = Outcome.reject (.divergentLocalCopy store.ledger k) ∧ ¬ Comparable log events) := by
  have hcomparable : Comparable log events ↔ ∀ i bytes, (events.take log.length)[i]? = some bytes →
      files.events.get? (0 + i) = some bytes := by
    rw [comparable_iff]
    constructor
    · intro hall i bytes hi
      rw [List.getElem?_take] at hi
      split_ifs at hi with hlt
      rw [Nat.zero_add, h.holds i hlt, List.getElem?_eq_getElem hlt]
      exact congrArg some (hall i _ _ (List.getElem?_eq_getElem hlt) hi)
    · intro hall i held bytes hheld hi
      have hlt := (List.getElem?_eq_some_iff.mp hheld).1
      have := hall i bytes (by rw [List.getElem?_take, if_pos hlt]; exact hi)
      rw [Nat.zero_add, h.holds i hlt, hheld] at this
      exact Option.some.inj this
  rw [hcomparable]
  refine run_compareStored store _ 0 fun i hi => ?_
  rw [List.length_take] at hi
  rw [Nat.zero_add, h.holds i (by omega), List.getElem?_eq_getElem (by omega)]
  simp

/-- Noting where a ledger came from leaves a stored log stored. -/
theorem run_noteFirstSeen (h : Stores files log) (source : Option (EndpointId C)) (now : Nat) :
    ∃ noted files', run FileOp.exec (LedgerStore.noteFirstSeen source now) files =
      (.ok noted, files') ∧ Stores files' log := by
  rw [LedgerStore.noteFirstSeen, File.run_readMeta_bind]
  cases hmeta : files.metaFile with
  | some noted => exact ⟨noted, files, rfl, h⟩
  | none => exact ⟨_, _, rfl, h.congr rfl rfl⟩

variable {call : StoreCall C}

/-- A served run that parts from the stored log is refused. -/
theorem storeFiles_divergent (h : Stores files log) (hnot : ¬ Comparable log call.events) :
    ∃ k files', run FileOp.exec (storeFiles store call) files =
      (Outcome.reject (.divergentLocalCopy store.ledger k), files') ∧ Stores files' log := by
  obtain ⟨cached, files', hfound⟩ := h.head store call.clock.read
  obtain ⟨x, hcompare, hcases⟩ := hfound.stores.run_compare store call.events
  obtain ⟨k, rfl, -⟩ := hcases.resolve_left fun hok => hnot hok.2
  refine ⟨k, files', ?_, hfound.stores⟩
  rw [storeFiles, run_bind_of_ok (run_mapReject_eq_ok.mpr hfound.run)]
  dsimp only
  rw [hfound.count]
  exact run_bind_of_error hcompare

/-- Any other served run is appended from where the stored log ends. -/
theorem run_storeFiles (h : Stores files log) (hcomparable : Comparable log call.events)
    (hdecodes : ∀ bytes ∈ call.events, (SignedEvent.decode bytes).isSome = true) :
    let batch := numbered C log.length (call.events.drop log.length)
    (Offered files log.length batch → ∃ files',
      run FileOp.exec (storeFiles store call) files =
        (.ok (call.events.length - log.length), files') ∧
        Stores files' (log ++ call.events.drop log.length)) ∧
    (¬ Offered files log.length batch → ∃ e files',
      run FileOp.exec (storeFiles store call) files =
        (Outcome.mapReject CoreError.storage (.error e), files') ∧ Stores files' log) := by
  obtain ⟨cached, t, hfound⟩ := h.head store call.clock.read
  obtain ⟨x, hcompare, hcases⟩ := hfound.stores.run_compare store call.events
  obtain ⟨rfl, -⟩ := hcases.resolve_right fun ⟨k, hk⟩ => hk.2 hcomparable
  have hbatch := servedBatch_eq (C := C) (call.events.drop log.length) log.length
    fun bytes hmem => hdecodes bytes (List.mem_of_mem_drop hmem)
  have hstart : run FileOp.exec (storeFiles store call) files =
      run FileOp.exec (do
        let _ ← (store.append call.clock.rebuilt call.clock.written
          (numbered C log.length (call.events.drop log.length))).mapReject CoreError.storage
        let _ ← (LedgerStore.noteFirstSeen call.source call.clock.firstSeen).mapReject
          CoreError.storage
        pure (numbered C log.length (call.events.drop log.length)).length : OnCopy C Nat) t := by
    rw [storeFiles, run_bind_of_ok (run_mapReject_eq_ok.mpr hfound.run)]
    dsimp only
    rw [hfound.count, run_bind_of_ok hcompare, run_lift_ok_bind hbatch]
  dsimp only
  constructor
  · intro hoffered
    obtain ⟨head, u, happend, hstores⟩ := hfound.stores.run_append store
      (hoffered.congr hfound.events) call.clock.rebuilt call.clock.written
    obtain ⟨noted, files', hnote, hstores'⟩ := hstores.run_noteFirstSeen call.source
      call.clock.firstSeen
    refine ⟨files', ?_, ?_⟩
    · rw [hstart, run_bind_of_ok (run_mapReject_eq_ok.mpr happend),
        run_bind_of_ok (run_mapReject_eq_ok.mpr hnote), length_numbered, List.length_drop]
      rfl
    · rwa [batchBytes_numbered] at hstores'
  · intro hoffered
    have hrefused : ¬ Offered t log.length (numbered C log.length (call.events.drop log.length)) :=
      fun hoff => hoffered (hoff.congr hfound.events.symm)
    obtain ⟨e, files', happend, hstores⟩ := hfound.stores.append_refused store hrefused
      call.clock.rebuilt call.clock.written
    refine ⟨e, files', ?_, hstores⟩
    rw [hstart]
    have hmapped : run FileOp.exec ((store.append call.clock.rebuilt call.clock.written
        (numbered C log.length (call.events.drop log.length))).mapReject
          (CoreError.storage (C := C))) t = (Outcome.mapReject CoreError.storage (.error e), files') := by
      rw [run_mapReject, happend]
    rcases e with error | site
    · exact run_bind_of_error hmapped
    · exact run_bind_of_error hmapped

end Stores

/-! ## Truncating -/

/-- Some of the event files past a sequence are gone. -/
structure Thinned (keep : Nat) (files files' : LedgerFiles C) : Prop where
  headFile : files'.headFile = files.headFile
  kept : ∀ k ≤ keep, files'.events.get? k = files.events.get? k
  rest : ∀ k, files'.events.get? k = files.events.get? k ∨ files'.events.get? k = none

/-- Every state removal passes keeps the events it should. -/
theorem throughout_removePast (keep : Nat) (seqs : List Nat) : ∀ {files' : LedgerFiles C},
    Thinned keep files files' →
    (removePast keep seqs).Throughout FileOp.exec files' (Thinned keep files) := by
  induction seqs with
  | nil => exact fun h => .done h
  | cons seq seqs ih =>
    intro files' h
    rw [removePast]
    by_cases hseq : seq > keep
    · rw [if_pos hseq]
      refine .perform h (ih ⟨h.headFile, fun k hk => ?_, fun k => ?_⟩)
      · change (files'.events.remove seq).get? k = _
        rw [SortedMap.get?_remove, if_neg (by omega)]
        exact h.kept k hk
      · change (files'.events.remove seq).get? k = _ ∨ (files'.events.remove seq).get? k = _
        rw [SortedMap.get?_remove]
        split_ifs
        · exact .inr rfl
        · exact h.rest k
    · rw [if_neg hseq]
      exact ih h

/-- A directory stores the beginning of a log, with everything up to a sequence. -/
def StoresThrough (keep : Nat) (log : List Bytes) (files : LedgerFiles C) : Prop :=
  ∃ served, Stores files served ∧ served <+: log ∧ log.take (keep + 1) <+: served

namespace Stores

variable {keep : Nat}

/-- Once every file past a sequence and the head cache are gone, what is stored ends there. -/
theorem cut (h : Stores files log) (hcut : CutAfter keep files files')
    (hhead : files'.headFile = none)
    (hpast : log.length ≤ keep → files.events.get? log.length = none) :
    Stores files' (log.take (keep + 1)) := by
  refine ⟨fun seq hseq => ?_, fun bytes hmem => h.decodes bytes (List.mem_of_mem_take hmem),
    fun head hfile => ?_, fun _ => ?_⟩
  · rw [List.length_take] at hseq
    rw [hcut seq, if_pos (by omega), h.holds seq (by omega), List.getElem?_take, if_pos (by omega)]
  · rw [hhead] at hfile
    simp at hfile
  · rw [List.length_take, hcut]
    by_cases hlow : log.length ≤ keep
    · rw [min_eq_right (by omega), if_pos hlow]
      exact hpast hlow
    · rw [min_eq_left (by omega), if_neg (by omega)]

theorem through_cut (keep : Nat) (h : Stores files (log.take (keep + 1))) :
    StoresThrough keep log files := ⟨_, h, List.take_prefix _ _, List.prefix_rfl⟩

/-- A truncation leaves the log up to its sequence, and no file past it. -/
theorem run_truncateFiles (h : Stores files log) (now : Nat)
    (hpast : log.length ≤ keep → files.events.get? log.length = none) : ∃ files',
      run FileOp.exec (truncateFiles store keep now) files = (.ok (), files') ∧
        CutAfter keep files files' ∧ Stores files' (log.take (keep + 1)) := by
  have hremove := removePast_cuts keep files
  rcases hrun : run FileOp.exec (removePast keep files.events.keys) files with ⟨x, t⟩
  rw [Ensures, hrun] at hremove
  obtain ⟨rfl, hcut⟩ : x = .ok () ∧ CutAfter keep files t := hremove
  have hstores : Stores { t with headFile := none } (log.take (keep + 1)) := h.cut hcut rfl hpast
  obtain ⟨cached, files', hfound⟩ := hstores.rebuildHead store rfl now
  have hcuts := truncateFiles_cuts store keep now files
  suffices hran : run FileOp.exec (truncateFiles store keep now) files = (.ok (), files') by
    rw [Ensures, hran] at hcuts
    exact ⟨files', hran, hcuts, hfound.stores⟩
  change run FileOp.exec (removePast keep files.events.keys >>= _) files = _
  rw [run_bind_of_ok hrun]
  change run FileOp.exec ((store.rebuildHead now).mapReject CoreError.storage >>= fun _ => pure ())
    { t with headFile := none } = _
  rw [run_bind_of_ok (run_mapReject_eq_ok.mpr hfound.run)]
  rfl

/-- While files past a sequence go, a directory without a head cache, or with one that does not
lie past the sequence, stores the beginning of its log. -/
theorem thinned (h : Stores files log) (hthin : Thinned keep files files')
    (hhead : files.headFile = none ∨ log.length ≤ keep + 1) : StoresThrough keep log files' := by
  have hend : files.headFile = none → files'.events.get? log.length = none := by
    intro hnone
    rcases hthin.rest log.length with hsame | hgone
    · rw [hsame]
      exact h.rebuilt hnone
    · exact hgone
  by_cases hshort : log.length ≤ keep + 1
  · refine ⟨log, ⟨fun seq hseq => ?_, h.decodes, ?_, ?_⟩, List.prefix_rfl, List.take_prefix _ _⟩
    · rw [hthin.kept seq (by omega)]
      exact h.holds seq hseq
    · rw [hthin.headFile]
      exact h.cached
    · rw [hthin.headFile]
      exact hend
  have hnone := hhead.resolve_right hshort
  obtain ⟨n, hmissing, hbelow, -⟩ := exists_missing files'.events
  have hle : n ≤ log.length := by
    by_contra hlt
    exact hbelow log.length (by omega) (hend hnone)
  have hlen : (log.take n).length = n := by rw [List.length_take, min_eq_left hle]
  have hkeep : keep + 1 ≤ n := by
    by_contra hlt
    have hget := hthin.kept n (by omega)
    rw [hmissing, h.holds n (by omega), List.getElem?_eq_getElem (by omega)] at hget
    simp at hget
  refine ⟨log.take n, ⟨fun seq hseq => ?_, fun bytes hmem => h.decodes bytes
    (List.mem_of_mem_take hmem), fun head hfile => ?_, fun _ => ?_⟩, List.take_prefix _ _,
    List.take_prefix_take_left hkeep⟩
  · rw [hlen] at hseq
    rw [(hthin.rest seq).resolve_right (hbelow seq hseq), h.holds seq (by omega),
      List.getElem?_take, if_pos hseq]
  · rw [hthin.headFile, hnone] at hfile
    simp at hfile
  · rw [hlen]
    exact hmissing

/-- Stopped anywhere, such a truncation leaves the beginning of the log stored. -/
theorem throughout_truncateFiles (h : Stores files log) (now : Nat)
    (hhead : files.headFile = none ∨ log.length ≤ keep + 1)
    (hpast : log.length ≤ keep → files.events.get? log.length = none) :
    (truncateFiles store keep now).Throughout FileOp.exec files (StoresThrough keep log) := by
  have hthin : Thinned keep files files := ⟨rfl, fun _ _ => rfl, fun _ => .inl rfl⟩
  have hthinned := throughout_removePast keep files.events.keys hthin
  refine .perform (h.thinned hthin hhead) ?_
  change Throughout _ (removePast keep files.events.keys >>= _) files _
  refine Throughout.bind (hthinned.mono fun g hg => h.thinned hg hhead) fun _ t ht => ?_
  have hremove := removePast_cuts keep files
  have hfinal := hthinned.final
  rw [Ensures, ht] at hremove
  rw [ht] at hfinal
  have hstores : Stores { t with headFile := none } (log.take (keep + 1)) :=
    h.cut hremove.2 rfl hpast
  obtain ⟨cached, files', hfound⟩ := hstores.rebuildHead store rfl now
  refine .perform (h.thinned hfinal hhead) ?_
  change Throughout _ ((store.rebuildHead now).mapReject CoreError.storage >>= fun _ => pure ())
    { t with headFile := none } _
  refine Throughout.bind (.mapReject (hfound.through.mono fun g => through_cut keep) _)
    fun _ u hu => .done ?_
  have hran := run_mapReject_eq_ok.mp hu
  obtain ⟨-, rfl⟩ := Prod.mk.inj (hfound.run.symm.trans hran)
  exact through_cut keep hfound.stores

end Stores

/-! ## Whole operations -/

section Operations

variable {setup : Setup} {lock : LedgerId} {s : LedgerStorage C} {state : LedgerState C}

theorem checkLock_self (ledger : LedgerId) :
    (checkLock ledger ledger : Outcome (CoreError C) Unit) = .ok () := by
  rw [checkLock, Outcome.rejectIf, if_neg (not_not.mpr rfl)]

/-- Another ledger's lock is refused. -/
theorem checkLock_of_ne {ledger : LedgerId} (h : lock ≠ ledger) :
    (checkLock lock ledger : Outcome (CoreError C) Unit) =
      Outcome.reject (.wrongAppendLock lock ledger) := by
  rw [checkLock, Outcome.rejectIf, if_pos h]

/-- With the lock of another ledger nothing is stored. -/
theorem storeEvents_unlocked {call : StoreCall C} (h : lock ≠ call.ledger) :
    run StoreOp.exec (storeEvents setup lock call) s =
      (Outcome.reject (.wrongAppendLock lock call.ledger), s) := by
  rw [storeEvents, run_lift_error_bind (checkLock_of_ne h)]
  rfl

namespace StoresOf

/-- A served run that parts from the stored log is refused. -/
theorem storeEvents_divergent {call : StoreCall C} (h : StoresOf call.ledger log s)
    (hnot : ¬ Comparable log call.events) : ∃ k t,
      run StoreOp.exec (storeEvents setup call.ledger call) s =
        (Outcome.reject (.divergentLocalCopy call.ledger k), t) ∧ StoresOf call.ledger log t := by
  obtain ⟨k, files', hrun, hstores⟩ := Stores.storeFiles_divergent (setup.ledger call.ledger) h hnot
  refine ⟨k, s.withFiles call.ledger files', ?_, storesOf_withFiles.mpr hstores⟩
  rw [storeEvents, run_lift_ok_bind (checkLock_self _)]
  refine run_bind_of_error ?_
  rw [run_onLedger, hrun]
  rfl

/-- Any other served run is stored, unless a file behind the log is in its way. -/
theorem run_storeEvents {call : StoreCall C} (h : StoresOf call.ledger log s)
    (hcomparable : Comparable log call.events)
    (hdecodes : ∀ bytes ∈ call.events, (SignedEvent.decode bytes).isSome = true)
    (hrun : FoldRun (log ++ call.events.drop log.length) state) :
    let batch := numbered C log.length (call.events.drop log.length)
    (Offered (s.filesOf call.ledger) log.length batch → ∃ t,
      run StoreOp.exec (storeEvents setup call.ledger call) s =
        (.ok (call.events.length - log.length), t) ∧
        StoresOf call.ledger (log ++ call.events.drop log.length) t) ∧
    (¬ Offered (s.filesOf call.ledger) log.length batch → ∃ e t,
      run StoreOp.exec (storeEvents setup call.ledger call) s =
        (Outcome.mapReject CoreError.storage (.error e), t) ∧ StoresOf call.ledger log t) := by
  obtain ⟨hfits, hrefused⟩ := Stores.run_storeFiles (setup.ledger call.ledger) h hcomparable hdecodes
  dsimp only
  constructor
  · intro hoffered
    obtain ⟨files', hfiles, hstores⟩ := hfits hoffered
    have hwrite : run StoreOp.exec (onLedger call.ledger (storeFiles (setup.ledger call.ledger)
        call)) s = (.ok (call.events.length - log.length), s.withFiles call.ledger files') := by
      rw [run_onLedger, hfiles]
    obtain ⟨t, hnote, hafter⟩ := @run_note C _ (CoreError C) _ _ _ (storesOf_withFiles.mpr hstores)
      hrun setup call.clock.noted
    refine ⟨t, ?_, hafter⟩
    rw [storeEvents, run_lift_ok_bind (checkLock_self _), run_bind_of_ok hwrite,
      run_bind_of_ok hnote]
    rfl
  · intro hoffered
    obtain ⟨e, files', hfiles, hstores⟩ := hrefused hoffered
    refine ⟨e, s.withFiles call.ledger files', ?_, storesOf_withFiles.mpr hstores⟩
    have hwrite : run StoreOp.exec (onLedger call.ledger (storeFiles (setup.ledger call.ledger)
        call)) s = (Outcome.mapReject CoreError.storage (.error e), s.withFiles call.ledger files') := by
      rw [run_onLedger, hfiles]
    rw [storeEvents, run_lift_ok_bind (checkLock_self _)]
    rcases e with error | site
    · exact run_bind_of_error hwrite
    · exact run_bind_of_error hwrite

/-- A truncation inside the stored log leaves its beginning, and no file past it. -/
theorem run_truncate {call : TruncateCall} (h : StoresOf call.ledger log s) (hrun : FoldRun log state)
    (hkeep : call.keepThrough < log.length) : ∃ t,
      run StoreOp.exec (truncate setup call.ledger call) s = (.ok (), t) ∧
        StoresOf call.ledger (log.take (call.keepThrough + 1)) t ∧
        ∀ k, call.keepThrough < k → (t.filesOf call.ledger).events.get? k = none := by
  obtain ⟨files', hfiles, hcut, hstores⟩ := Stores.run_truncateFiles (setup.ledger call.ledger) h
    call.rebuilt fun hle => absurd hle (Nat.not_le.mpr hkeep)
  have hwrite : run StoreOp.exec (onLedger call.ledger (truncateFiles (setup.ledger call.ledger)
      call.keepThrough call.rebuilt)) s = (.ok (), s.withFiles call.ledger files') := by
    rw [run_onLedger, hfiles]
  rw [← List.take_append_drop (call.keepThrough + 1) log] at hrun
  obtain ⟨u, hkept, -⟩ := hrun.split
  obtain ⟨t, hnote, hafter⟩ := @run_note C _ (CoreError C) _ _ _ (storesOf_withFiles.mpr hstores)
    hkept setup call.noted
  refine ⟨t, ?_, hafter, fun k hk => ?_⟩
  · rw [truncate, run_lift_ok_bind (checkLock_self _), run_bind_of_ok hwrite, hnote]
  · have hevents := events_of_sparesAll (@note_spares C (CoreError C) setup call.ledger call.noted)
      (s.withFiles call.ledger files') call.ledger
    rw [hnote, LedgerStorage.filesOf_withFiles, if_pos rfl] at hevents
    rw [hevents, hcut k, if_neg (by omega)]

end StoresOf

end Operations

end Mabel.Node
