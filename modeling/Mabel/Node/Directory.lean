import Mabel.Node.Files

/-!
# A ledger directory between and inside appends

The event files of a directory are a log. The head cache names a sequence of it, and what
lies past that sequence is left over from an append that was stopped; without the cache the
whole log is served. Every operation of an append keeps it so.
-/

namespace Mabel.Node

open Wire Proto Program

variable {C : Crypto} {files : LedgerFiles C} {store : LedgerStore C}

/-! ## Directories -/

/-- The events of a log as they are read back. -/
def storedEvents (log : List Bytes) : List StoredEvent := log.zipIdx.map fun e => ⟨e.2, e.1⟩

/-- The event files are a log, and the first events of it are served. -/
structure Directory (files : LedgerFiles C) (log : List Bytes) (served : Nat) : Prop where
  holds : files.Holds log
  decodes : ∀ bytes ∈ log, (SignedEvent.decode bytes).isSome = true
  served_le : served ≤ log.length
  cached : ∀ head, files.headFile = some head → head.seq + 1 = served
  rebuilt : files.headFile = none → served = log.length

theorem directory_none : Directory (LedgerFiles.none : LedgerFiles C) [] 0 :=
  ⟨LedgerFiles.holds_none, by simp, le_rfl, fun _ h => by simp [LedgerFiles.none] at h,
    fun _ => rfl⟩

/-- The directory marker does not matter. -/
theorem Directory.present {log : List Bytes} {served : Nat} (h : Directory files log served)
    (present : Bool) : Directory { files with present := present } log served :=
  ⟨h.holds, h.decodes, h.served_le, h.cached, h.rebuilt⟩

/-! ## Reading -/

/-- Numbers without a gap are contiguous to their last. -/
theorem contiguousFrom_range (count : Nat) : ∀ (start : Nat) (last : Option Nat),
    contiguousFrom start last (List.range' start count) =
      if count = 0 then last else some (start + count - 1) := by
  induction count with
  | zero => exact fun _ _ => rfl
  | succ count ih =>
    intro start last
    rw [List.range'_succ, contiguousFrom, if_neg (by simp), ih, if_neg (Nat.succ_ne_zero count)]
    by_cases hcount : count = 0
    · rw [if_pos hcount, hcount]
      rfl
    · rw [if_neg hcount, show start + 1 + count - 1 = start + (count + 1) - 1 by omega]

theorem contiguousLast_range (count : Nat) :
    contiguousLast (List.range count) = if count = 0 then none else some (count - 1) := by
  rw [contiguousLast, List.range_eq_range', contiguousFrom_range, Nat.zero_add]

/-- What looking for the head finds and leaves. -/
structure Headed (p : OnFiles C (Option Head)) (files : LedgerFiles C) (log : List Bytes)
    (served : Nat) (cached : Option Head) (files' : LedgerFiles C) : Prop where
  run : Program.run FileOp.exec p files = (.ok cached, files')
  count : (cached.elim 0 fun head => head.seq + 1) = served
  events : files'.events = files.events
  directory : Directory files' log served
  /-- The cache is missing only where there is nothing to cache. -/
  empty : files'.headFile = none → log = []
  through : p.Throughout FileOp.exec files fun g => Directory g log served

variable (store) in
/-- Without a cache the whole log is served, and the cache is put back. -/
theorem Directory.rebuildHead {log : List Bytes} {served : Nat} (h : Directory files log served)
    (hhead : files.headFile = none) (now : Nat) :
    ∃ cached files', Headed (store.rebuildHead now) files log served cached files' := by
  have hserved := h.rebuilt hhead
  have hlast := contiguousLast_range log.length
  rw [← h.holds.keys] at hlast
  by_cases hlog : log.length = 0
  · rw [if_pos hlog] at hlast
    refine ⟨none, files, ?_, ?_, rfl, h, fun _ => List.length_eq_zero_iff.mp hlog, ?_⟩
    · rw [LedgerStore.rebuildHead, File.run_listEvents_bind, hlast]
      rfl
    · rw [hserved, hlog]
      rfl
    · unfold LedgerStore.rebuildHead
      refine .ask_bind h ?_
      simp only [FileOp.exec, hlast]
      exact .done h
  · rw [if_neg hlog] at hlast
    have hlt : log.length - 1 < log.length := by omega
    have hbytes := List.getElem?_eq_getElem hlt
    obtain ⟨signed, hdecode⟩ := Option.isSome_iff_exists.mp
      (h.decodes _ (List.getElem_mem hlt))
    have hid : store.eventIdOf (log.length - 1) log[log.length - 1] =
        .ok (eventId C signed.body) := eventIdOf_eq_ok.mpr ⟨signed, hdecode, rfl⟩
    have hafter : Directory { files with
        headFile := some ⟨log.length - 1, eventId C signed.body, now⟩ } log served := by
      refine ⟨h.holds, h.decodes, h.served_le, ?_, by simp⟩
      rintro head hsome
      obtain rfl := Option.some.inj hsome
      dsimp only
      omega
    refine ⟨some ⟨log.length - 1, eventId C signed.body, now⟩,
      { files with headFile := some ⟨log.length - 1, eventId C signed.body, now⟩ }, ?_, ?_,
      rfl, hafter, by simp, ?_⟩
    · rw [LedgerStore.rebuildHead, File.run_listEvents_bind, hlast]
      dsimp only
      rw [run_bind_of_ok (run_readEvent h.holds hbytes), run_lift_ok_bind hid,
        File.run_writeHead_bind]
      rfl
    · dsimp only [Option.elim_some]
      omega
    · unfold LedgerStore.rebuildHead
      refine .ask_bind h ?_
      simp only [FileOp.exec, hlast]
      refine .after (run_readEvent h.holds hbytes) (.perform h (.done h)) ?_
      refine .lift_bind h fun id hok => ?_
      obtain rfl := Except.ok.inj (hid.symm.trans hok)
      exact .perform h (.done hafter)

variable (store) in
/-- The head program answers what is served and leaves the directory as it was, its cache put
back where it was missing. -/
theorem Directory.head {log : List Bytes} {served : Nat} (h : Directory files log served)
    (now : Nat) : ∃ cached files', Headed (store.head now) files log served cached files' := by
  cases hhead : files.headFile with
  | some head =>
    refine ⟨some head, files, run_head_cached hhead now, h.cached head hhead, rfl, h,
      by simp [hhead], ?_⟩
    unfold LedgerStore.head
    refine .ask_bind h ?_
    simp only [FileOp.exec, hhead]
    exact .done h
  | none =>
    obtain ⟨cached, files', hrebuild⟩ := h.rebuildHead store hhead now
    refine ⟨cached, files', { hrebuild with run := ?_, through := ?_ }⟩
    · rw [LedgerStore.head, File.run_readHead_bind, hhead]
      exact hrebuild.run
    · unfold LedgerStore.head
      refine .ask_bind h ?_
      simp only [FileOp.exec, hhead]
      exact hrebuild.through

variable (store) in
/-- Reading everything answers what is served, and the directory stays as it was. -/
theorem Directory.run_readAll {log : List Bytes} {served : Nat} (h : Directory files log served)
    (rebuilt : Nat) : ∃ files', run FileOp.exec (store.readAll rebuilt) files =
      (.ok (storedEvents (log.take served)), files') ∧ files'.events = files.events ∧
      Directory files' log served ∧ (store.readAll rebuilt).Throughout FileOp.exec files
        fun g => Directory g log served := by
  obtain ⟨cached, files', hhead⟩ := h.head store rebuilt
  refine ⟨files', ?_, hhead.events, hhead.directory, .after hhead.run hhead.through ?_⟩
  · rw [LedgerStore.readAll, LedgerStore.readFrom, run_bind_of_ok hhead.run]
    have hcount := hhead.count
    cases cached with
    | none =>
      rw [← hcount]
      rfl
    | some head =>
      dsimp only [Option.elim_some, Option.elim_none] at hcount ⊢
      rw [Nat.sub_zero, hcount]
      exact run_readCount (fun seq _ => hhead.directory.holds seq) served 0 (by simpa using h.served_le)
  · cases cached with
    | none => exact .done hhead.directory
    | some head =>
      refine (store.readCount_performs (P := fun op => ∃ seq, op = .readEvent seq)
        (fun seq => ⟨seq, rfl⟩) _ _).throughout ?_ _ hhead.directory
      rintro _ ⟨seq, rfl⟩ g hg
      exact hg

/-! ## Splicing a batch into a log -/

/-- A log with a batch put in its place from a sequence on. -/
def splicedLog (log : List Bytes) (start : Nat) (events : List Bytes) : List Bytes :=
  if start + events.length ≤ log.length then log else log.take start ++ events

/-- A batch agrees with a log where both have an event. -/
def Agrees (log : List Bytes) (start : Nat) (events : List Bytes) : Prop :=
  ∀ (i : Nat) held event, log[start + i]? = some held → events[i]? = some event → held = event

section Splice

variable {log events : List Bytes} {start : Nat}

/-- A spliced log is as long as the longer of its parts. -/
theorem length_splicedLog (events : List Bytes) (hstart : start ≤ log.length) :
    (splicedLog log start events).length = max log.length (start + events.length) := by
  rw [splicedLog]
  by_cases h : start + events.length ≤ log.length
  · rw [if_pos h]
    omega
  · rw [if_neg h, List.length_append, List.length_take]
    omega

/-- The batch is found where it was put, and the log around it. -/
theorem getElem?_splicedLog (hstart : start ≤ log.length) (hagrees : Agrees log start events)
    (k : Nat) : (splicedLog log start events)[k]? =
      if start ≤ k ∧ k < start + events.length then events[k - start]? else log[k]? := by
  rw [splicedLog]
  by_cases h : start + events.length ≤ log.length
  · rw [if_pos h]
    by_cases hin : start ≤ k ∧ k < start + events.length
    · have hlog := List.getElem?_eq_getElem (show start + (k - start) < log.length by omega)
      have hevent := List.getElem?_eq_getElem (show k - start < events.length by omega)
      rw [if_pos hin, hevent, ← hagrees _ _ _ hlog hevent, ← hlog, Nat.add_sub_cancel' hin.1]
    · rw [if_neg hin]
  · rw [if_neg h]
    by_cases hlow : k < start
    · rw [if_neg (by omega), List.getElem?_append_left (by rw [List.length_take]; omega),
        List.getElem?_take, if_pos hlow]
    · rw [List.getElem?_append_right (by rw [List.length_take]; omega), List.length_take,
        min_eq_left hstart]
      by_cases hhigh : k < start + events.length
      · rw [if_pos ⟨not_lt.mp hlow, hhigh⟩]
      · rw [if_neg (by omega), List.getElem?_eq_none (by omega), List.getElem?_eq_none (by omega)]

/-- The log is a first part of what it is spliced to. -/
theorem take_splicedLog (hstart : start ≤ log.length) (hagrees : Agrees log start events) :
    (splicedLog log start events).take log.length = log := by
  apply List.ext_getElem?
  intro k
  rw [List.getElem?_take]
  by_cases hk : k < log.length
  · rw [if_pos hk, getElem?_splicedLog hstart hagrees]
    by_cases hin : start ≤ k ∧ k < start + events.length
    · have hlog := List.getElem?_eq_getElem (show start + (k - start) < log.length by omega)
      have hevent := List.getElem?_eq_getElem (show k - start < events.length by omega)
      rw [if_pos hin, hevent, ← hagrees _ _ _ hlog hevent, ← hlog, Nat.add_sub_cancel' hin.1]
    · rw [if_neg hin]
  · rw [if_neg hk, List.getElem?_eq_none (not_lt.mp hk)]

/-- Served to its end, the batch follows what was served. -/
theorem take_end_splicedLog (hstart : start ≤ log.length) (hagrees : Agrees log start events) :
    (splicedLog log start events).take (start + events.length) = log.take start ++ events := by
  apply List.ext_getElem?
  intro k
  rw [List.getElem?_take, getElem?_splicedLog hstart hagrees]
  by_cases hlow : k < start
  · rw [if_pos (by omega), if_neg (by omega),
      List.getElem?_append_left (by rw [List.length_take]; omega), List.getElem?_take, if_pos hlow]
  · rw [List.getElem?_append_right (by rw [List.length_take]; omega), List.length_take,
      min_eq_left hstart]
    by_cases hhigh : k < start + events.length
    · rw [if_pos hhigh, if_pos ⟨not_lt.mp hlow, hhigh⟩]
    · rw [if_neg hhigh, List.getElem?_eq_none (by omega)]

end Splice

/-! ## Writing event files -/

/-- One more event of a log is written where it belongs. -/
theorem LedgerFiles.Holds.insert {full : List Bytes} {m seq : Nat} {bytes : Bytes}
    (h : files.Holds (full.take m)) (hseq : seq ≤ m) (hbytes : full[seq]? = some bytes) :
    ({ files with events := files.events.insert seq bytes } : LedgerFiles C).Holds
      (full.take (max m (seq + 1))) := by
  intro k
  have hk := h k
  rw [List.getElem?_take] at hk ⊢
  dsimp only
  rw [SortedMap.get?_insert]
  by_cases hsame : k = seq
  · rw [if_pos hsame, if_pos (by omega), hsame, hbytes]
  · rw [if_neg hsame, hk]
    by_cases hlow : k < m
    · rw [if_pos hlow, if_pos (by omega)]
    · rw [if_neg hlow, if_neg (by omega)]

/-- A batch may be appended where a log is served up to a sequence. -/
def Fits (C : Crypto) (log : List Bytes) (start : Nat) (batch : List NewEvent) : Prop :=
  ∀ (i : Nat) event, batch[i]? = some event → event.seq = start + i ∧ Hashes C event ∧
    ∀ held, log[start + i]? = some held → held = event.bytes

/-- The bytes of a batch. -/
def batchBytes (batch : List NewEvent) : List Bytes := batch.map NewEvent.bytes

@[simp] theorem length_batchBytes (batch : List NewEvent) :
    (batchBytes batch).length = batch.length := List.length_map _

/-- The checks of an append pass on the batches that fit. -/
theorem offered_iff {log : List Bytes} (h : files.Holds log) (batch : List NewEvent) :
    ∀ start, Offered files start batch ↔ Fits C log start batch := by
  induction batch with
  | nil => exact fun start => iff_of_true trivial fun i event hi => by simp at hi
  | cons first rest ih =>
    intro start
    rw [Offered, ih (start + 1), h start]
    constructor
    · rintro ⟨hseq, hhashes, hheld, hrest⟩ i event hi
      cases i with
      | zero =>
        obtain rfl : first = event := by simpa using hi
        exact ⟨hseq, hhashes, hheld⟩
      | succ i =>
        have := hrest i event (by simpa using hi)
        rw [Nat.add_assoc, Nat.add_comm 1] at this
        exact this
    · intro hfits
      obtain ⟨hseq, hhashes, hheld⟩ := hfits 0 first rfl
      refine ⟨hseq, hhashes, hheld, fun i event hi => ?_⟩
      rw [Nat.add_assoc, Nat.add_comm 1]
      exact hfits (i + 1) event (by simpa using hi)

namespace Fits

variable {log : List Bytes} {start : Nat} {batch : List NewEvent}

/-- A batch that fits agrees with the log. -/
theorem agrees (h : Fits C log start batch) : Agrees log start (batchBytes batch) := by
  intro i held event hlog hevent
  rw [batchBytes, List.getElem?_map, Option.map_eq_some_iff] at hevent
  obtain ⟨e, he, rfl⟩ := hevent
  exact (h i e he).2.2 held hlog

/-- The events of a batch are where they are spliced in. -/
theorem placed (h : Fits C log start batch) (hstart : start ≤ log.length) {i : Nat}
    {event : NewEvent} (hi : batch[i]? = some event) :
    (splicedLog log start (batchBytes batch))[start + i]? = some event.bytes := by
  have hlt := (List.getElem?_eq_some_iff.mp hi).1
  rw [getElem?_splicedLog hstart h.agrees, if_pos (by rw [length_batchBytes]; omega),
    Nat.add_sub_cancel_left, batchBytes, List.getElem?_map, hi]
  rfl

/-- An event of the spliced log is of the log or of the batch. -/
theorem origin (h : Fits C log start batch) (hstart : start ≤ log.length) {k : Nat}
    {bytes : Bytes} (hk : (splicedLog log start (batchBytes batch))[k]? = some bytes) :
    log[k]? = some bytes ∨ ∃ event ∈ batch, event.seq = k ∧ event.bytes = bytes ∧
      Hashes C event := by
  rw [getElem?_splicedLog hstart h.agrees] at hk
  by_cases hin : start ≤ k ∧ k < start + (batchBytes batch).length
  · rw [if_pos hin, batchBytes, List.getElem?_map, Option.map_eq_some_iff] at hk
    obtain ⟨event, hevent, rfl⟩ := hk
    obtain ⟨hseq, hhashes, -⟩ := h _ event hevent
    refine .inr ⟨event, List.mem_of_getElem? hevent, ?_, rfl, hhashes⟩
    omega
  · rw [if_neg hin] at hk
    exact .inl hk

end Fits

/-- While event files are written, the directory holds more and more of the spliced log. -/
theorem throughout_writeFiles {full : List Bytes} (events : List NewEvent) :
    ∀ {files : LedgerFiles C} {m start : Nat}, files.Holds (full.take m) → start ≤ m →
      m ≤ full.length → (∀ (i : Nat) event, events[i]? = some event →
        event.seq = start + i ∧ full[start + i]? = some event.bytes) →
      (LedgerStore.writeFiles events).Throughout FileOp.exec files fun g =>
        ∃ m', m ≤ m' ∧ m' ≤ full.length ∧ g.Holds (full.take m') ∧ g.headFile = files.headFile := by
  induction events with
  | nil => exact fun h _ hm _ => .done ⟨_, le_rfl, hm, h, rfl⟩
  | cons event events ih =>
    intro files m start h hstart hm hevents
    obtain ⟨hseq, hbytes⟩ := hevents 0 event rfl
    refine .perform ⟨m, le_rfl, hm, h, rfl⟩ ?_
    rw [hseq, Nat.add_zero] at *
    have hlt := (List.getElem?_eq_some_iff.mp hbytes).1
    refine (@ih _ _ (start + 1) (h.insert hstart hbytes) (by omega) (by omega) ?_).mono ?_
    · intro i e hi
      rw [show start + 1 + i = start + (i + 1) by omega]
      exact hevents (i + 1) e (by simpa using hi)
    · rintro g ⟨m', hle, hle', hholds, hhead⟩
      exact ⟨m', by omega, hle', hholds, hhead⟩

/-! ## Appending -/

/-- What a directory holds while a batch that fits is appended: the log and a part of the
batch, of which what was served before is served at least. -/
structure Partway (log : List Bytes) (start : Nat) (batch : List NewEvent) (g : LedgerFiles C) :
    Prop where
  reached : ∃ m served, log.length ≤ m ∧ m ≤ (splicedLog log start (batchBytes batch)).length ∧
    Directory g ((splicedLog log start (batchBytes batch)).take m) served ∧
    start ≤ served ∧ served ≤ start + batch.length

section Append

variable {log : List Bytes} {start : Nat} {batch : List NewEvent}

/-- Every event of the spliced log decodes. -/
theorem Fits.decodes (h : Fits C log start batch) (hdirectory : Directory files log start)
    {bytes : Bytes} (hmem : bytes ∈ splicedLog log start (batchBytes batch)) :
    (SignedEvent.decode bytes).isSome = true := by
  obtain ⟨k, hk⟩ := List.mem_iff_getElem?.mp hmem
  rcases h.origin hdirectory.served_le hk with hlog | ⟨event, -, -, rfl, signed, hdecode, -⟩
  · exact hdirectory.decodes bytes (List.mem_of_getElem? hlog)
  · rw [hdecode]
    rfl

/-- Before anything is written, a directory is partway. -/
theorem Directory.partway (h : Directory files log start) (hfits : Fits C log start batch) :
    Partway log start batch files := by
  refine ⟨log.length, start, le_rfl, ?_, ?_, le_rfl, Nat.le_add_right _ _⟩
  · rw [length_splicedLog _ h.served_le]
    exact le_max_left _ _
  · rw [take_splicedLog h.served_le hfits.agrees]
    exact h

/-- Where the head has been read and the checks have passed, the event files are written one
after another. -/
theorem Directory.throughout_writeFiles (h : Directory files log start)
    (hempty : files.headFile = none → log = []) (hfits : Fits C log start batch) :
    (LedgerStore.writeFiles batch).Throughout FileOp.exec files (Partway log start batch) := by
  have htake := take_splicedLog h.served_le hfits.agrees
  have hlen := length_splicedLog (batchBytes batch) h.served_le
  have hholds := h.holds
  rw [← htake] at hholds
  refine (Node.throughout_writeFiles batch hholds h.served_le (by omega) fun i event hi =>
    ⟨(hfits i event hi).1, hfits.placed h.served_le hi⟩).mono ?_
  rintro g ⟨m, hle, hle', hg, hhead⟩
  rw [length_batchBytes] at hlen
  cases hcached : files.headFile with
  | some head =>
    refine ⟨m, start, hle, hle', ⟨hg, ?_, ?_, ?_, ?_⟩, le_rfl, Nat.le_add_right _ _⟩
    · exact fun bytes hmem => hfits.decodes h (List.mem_of_mem_take hmem)
    · rw [List.length_take]
      have := h.served_le
      omega
    · intro head' hhead'
      rw [hhead] at hhead'
      exact h.cached head' hhead'
    · intro hnone
      rw [hhead, hcached] at hnone
      simp at hnone
  | none =>
    have hzero : log.length = 0 := by
      rw [hempty hcached]
      rfl
    have hstart := h.rebuilt hcached
    refine ⟨m, m, hle, hle', ⟨hg, ?_, ?_, ?_, ?_⟩, by omega, by omega⟩
    · exact fun bytes hmem => hfits.decodes h (List.mem_of_mem_take hmem)
    · rw [List.length_take]
      omega
    · intro head' hhead'
      rw [hhead, hcached] at hhead'
      simp at hhead'
    · intro _
      rw [List.length_take]
      omega

/-- The directory once a batch that fits has been appended. -/
theorem Directory.write (h : Directory files log start) (hfits : Fits C log start batch)
    (head : Head) (hhead : head.seq + 1 = start + batch.length) :
    Directory { files.write batch with headFile := some head }
      (splicedLog log start (batchBytes batch)) (start + batch.length) := by
  refine ⟨?_, fun bytes hmem => hfits.decodes h hmem, ?_, ?_, by simp⟩
  · intro seq
    have hseqs : ∀ (i : Nat) event, batch[i]? = some event → event.seq = start + i :=
      fun i event hi => (hfits i event hi).1
    refine (get?_write hseqs seq).trans ?_
    rw [getElem?_splicedLog h.served_le hfits.agrees, length_batchBytes, h.holds seq]
    rw [batchBytes, List.getElem?_map]
  · rw [length_splicedLog _ h.served_le, length_batchBytes]
    exact le_max_right _ _
  · rintro head' hsome
    obtain rfl := Option.some.inj hsome
    exact hhead

variable (store) in
/-- A batch that fits is appended, and the directory is partway until it is. -/
theorem Directory.append (h : Directory files log start) (hfits : Fits C log start batch)
    (hne : batch ≠ []) (rebuilt now : Nat) : ∃ head files',
      run FileOp.exec (store.append rebuilt now batch) files = (.ok (some head), files') ∧
      Directory files' (splicedLog log start (batchBytes batch)) (start + batch.length) ∧
      (store.append rebuilt now batch).Throughout FileOp.exec files (Partway log start batch) := by
  obtain ⟨first, rest, rfl⟩ := List.exists_cons_of_ne_nil hne
  obtain ⟨cached, files', hhead⟩ := (h.present true).head store rebuilt
  have hoffered : Offered files' (cached.elim 0 fun head => head.seq + 1) (first :: rest) := by
    rw [hhead.count]
    exact (offered_iff hhead.directory.holds _ _).mpr hfits
  have hlast : ((first :: rest).getLast (by simp)).seq + 1 = start + (first :: rest).length := by
    have := (hfits rest.length ((first :: rest).getLast (by simp)) ?_).1
    · rw [List.length_cons]
      omega
    · rw [List.getLast_eq_getElem]
      exact List.getElem?_eq_getElem _
  have hwritten := hhead.directory.write hfits ⟨((first :: rest).getLast (by simp)).seq,
    ((first :: rest).getLast (by simp)).eventId, now⟩ hlast
  have hrun := run_append now hhead.run hoffered
  refine ⟨_, _, hrun, hwritten, ?_⟩
  obtain ⟨x, hchecks, hiff⟩ := run_checkEvents store files' (first :: rest)
    (cached.elim 0 fun head => head.seq + 1)
  obtain rfl := hiff.mpr hoffered
  have hbefore : ∀ g, Directory g log start → Partway log start (first :: rest) g :=
    fun g hg => hg.partway hfits
  have hwrites := hhead.directory.throughout_writeFiles hhead.empty hfits
  have hevents : (store.writeEvents rebuilt now first rest).Throughout FileOp.exec files
      (Partway log start (first :: rest)) := by
    refine .after (a := ()) (t := { files with present := true }) rfl
      (.perform (hbefore _ h) (.done (hbefore _ (h.present true)))) ?_
    refine .after hhead.run (hhead.through.mono hbefore) ?_
    dsimp only
    refine .after hchecks ?_ ?_
    · refine (store.checkEvents_performs (P := fun op => ∃ seq, op = .readEvent seq)
        (fun seq => ⟨seq, rfl⟩) _ _).throughout ?_ _ (hbefore _ hhead.directory)
      rintro _ ⟨seq, rfl⟩ g hg
      exact hg
    · exact hwrites.bind fun _ t ht => .done (by
        have := hwrites.final
        rw [ht] at this
        exact this)
  refine hevents.bind fun head t ht => .perform ?_ (.done ?_)
  · have := hevents.final
    rw [ht] at this
    exact this
  · rw [LedgerStore.append, run_bind_of_ok ht] at hrun
    have hfinal : ({ t with headFile := some head } : LedgerFiles C) = _ := congrArg Prod.snd hrun
    change Partway log start (first :: rest) { t with headFile := some head }
    rw [hfinal]
    exact ⟨_, _, by rw [length_splicedLog _ h.served_le]; exact le_max_left _ _, le_rfl,
      by rw [List.take_length]; exact hwritten, Nat.le_add_right _ _, le_rfl⟩

variable (store) in
/-- Every file state an append passes is partway through the splice. -/
theorem Directory.throughout_append (h : Directory files log start)
    (hfits : Fits C log start batch) (rebuilt now : Nat) :
    (store.append rebuilt now batch).Throughout FileOp.exec files (Partway log start batch) := by
  by_cases hne : batch = []
  · subst hne
    obtain ⟨cached, files', hhead⟩ := h.head store rebuilt
    exact hhead.through.mono fun g hg => hg.partway hfits
  · obtain ⟨head, files', -, -, hthrough⟩ := h.append store hfits hne rebuilt now
    exact hthrough

/-- The head cache is lost. -/
theorem Directory.loseHead {served : Nat} (h : Directory files log served) :
    Directory { files with headFile := none } log log.length :=
  ⟨h.holds, h.decodes, le_rfl, by simp, fun _ => rfl⟩

variable (store) in
/-- A batch that does not fit is refused, and the directory stays as it was. -/
theorem Directory.refused (h : Directory files log start) (hfits : ¬ Fits C log start batch)
    (rebuilt now : Nat) :
    (∃ e, (run FileOp.exec (store.append rebuilt now batch) files).1 = .error e) ∧
      (store.append rebuilt now batch).Throughout FileOp.exec files
        fun g => Directory g log start := by
  obtain ⟨first, rest, rfl⟩ : ∃ first rest, batch = first :: rest := by
    apply List.exists_cons_of_ne_nil
    rintro rfl
    exact hfits fun i event hi => by simp at hi
  obtain ⟨cached, files', hhead⟩ := (h.present true).head store rebuilt
  obtain ⟨x, hchecks, hiff⟩ := run_checkEvents store files' (first :: rest)
    (cached.elim 0 fun head => head.seq + 1)
  rw [hhead.count, offered_iff hhead.directory.holds] at hiff
  cases x with
  | ok u => exact absurd (hiff.mp rfl) hfits
  | error e =>
    have hevents : run FileOp.exec (store.writeEvents rebuilt now first rest) files =
        (.error e, files') := by
      rw [LedgerStore.writeEvents, File.run_createDir_bind, run_bind_of_ok hhead.run]
      exact run_bind_of_error hchecks
    refine ⟨⟨e, congrArg Prod.fst (run_bind_of_error hevents)⟩, ?_⟩
    refine Throughout.bind ?_ fun head t ht => ?_
    · refine .after (a := ()) (t := { files with present := true }) rfl
        (.perform h (.done (h.present true))) ?_
      refine .after hhead.run hhead.through ?_
      dsimp only
      refine Throughout.bind ?_ fun _ t ht => ?_
      · refine (store.checkEvents_performs (P := fun op => ∃ seq, op = .readEvent seq)
          (fun seq => ⟨seq, rfl⟩) _ _).throughout ?_ _ hhead.directory
        rintro _ ⟨seq, rfl⟩ g hg
        exact hg
      · rw [hchecks] at ht
        simp at ht
    · rw [hevents] at ht
      simp at ht

variable (store) in
/-- What is left of a batch is appended where an append of it was stopped. -/
theorem Directory.resume {served m : Nat}
    (h : Directory files ((splicedLog log start (batchBytes batch)).take m) served)
    (hfits : Fits C log start batch) (hstart : start ≤ log.length) (hlow : start ≤ served)
    (hhigh : served ≤ start + batch.length) (rebuilt now : Nat) : ∃ head files' log',
      run FileOp.exec (store.append rebuilt now (batch.drop (served - start))) files =
        (.ok head, files') ∧ Directory files' log' (start + batch.length) ∧
      log'.take (start + batch.length) = log.take start ++ batchBytes batch := by
  have hend := take_end_splicedLog hstart hfits.agrees
  rw [length_batchBytes] at hend
  have hservedLe := h.served_le
  rw [List.length_take] at hservedLe
  by_cases hnil : batch.drop (served - start) = []
  · have hall : served = start + batch.length := by
      have := List.drop_eq_nil_iff.mp hnil
      omega
    rw [hnil]
    obtain ⟨cached, files', hhead⟩ := h.head store rebuilt
    refine ⟨cached, files', _, hhead.run, hall ▸ hhead.directory, ?_⟩
    rw [List.take_take, min_eq_left (by omega), hend]
  · have hrest : Fits C ((splicedLog log start (batchBytes batch)).take m) served
        (batch.drop (served - start)) := by
      intro i event hi
      rw [List.getElem?_drop] at hi
      obtain ⟨hseq, hhashes, -⟩ := hfits _ event hi
      refine ⟨by omega, hhashes, fun held hheld => ?_⟩
      have hplaced := hfits.placed hstart hi
      rw [show start + (served - start + i) = served + i by omega] at hplaced
      rw [List.getElem?_take] at hheld
      split_ifs at hheld
      exact Option.some.inj (hheld.symm.trans hplaced)
    obtain ⟨head, files', hrun, hdirectory, -⟩ := h.append store hrest hnil rebuilt now
    have hlen : served + (batch.drop (served - start)).length = start + batch.length := by
      rw [List.length_drop]
      omega
    rw [hlen] at hdirectory
    refine ⟨_, files', _, hrun, hdirectory, ?_⟩
    have htake := take_end_splicedLog h.served_le hrest.agrees
    rw [length_batchBytes, hlen, List.take_take, min_eq_left (by omega)] at htake
    -- What was served of the batch, and the rest of it.
    have hpart : (splicedLog log start (batchBytes batch)).take served =
        log.take start ++ (batchBytes batch).take (served - start) := by
      have := congrArg (List.take served) hend
      rw [List.take_take, min_eq_left hhigh, List.take_append, List.length_take,
        min_eq_left hstart, List.take_take, min_eq_right hlow] at this
      exact this
    rw [htake, hpart, batchBytes, batchBytes, List.map_drop, List.append_assoc,
      List.take_append_drop]

end Append

end Mabel.Node
