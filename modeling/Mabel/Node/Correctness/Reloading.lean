import Mabel.Ledger.Correctness.Links
import Mabel.Node.Correctness.Freshness
import Mabel.Node.Correctness.Outcomes
import Mabel.Node.Correctness.Verdicts
import Mabel.Node.Directory

/-!
# A restart changes nothing

Pushes keep every index entry together with the files it is rebuilt from: the events, the
head cache, the note of where the ledger came from and one file for each fork record. So a
reload after any pushes, and opening the home again, give back the store as it was.
-/

namespace Mabel.Node

open Wire Proto Net Machine Program

variable {C : Crypto}

/-! ## Fork records -/

/-- The numbers of a fork record fit a `u64`, and so do the lengths of its events. -/
structure Sized (record : ForkRecord C) : Prop where
  seq : record.seq ≤ u64Max
  observed : record.observedMs ≤ u64Max
  kept : record.kept.length ≤ u64Max
  conflicting : record.conflicting.length ≤ u64Max

/-- The fields of an encoded fork record. -/
def forkFields (record : ForkRecord C) : List Wire.Entry :=
  bytesField 1 record.ledger.toVec ++ uintField 2 record.seq ++ messageField 3 record.kept ++
    messageField 4 record.conflicting ++ uintField 5 record.observedMs ++
    (record.sourceEndpoint.elim [] fun endpoint => bytesField 6 endpoint.asBytes)

/-- A block of positive length is written as a message field is. -/
theorem bytesField_block {n : Nat} (number : Nat) (raw : Block n) (hn : 0 < n) :
    bytesField number raw.bytes = messageField number raw.bytes := by
  refine bytesField_of_ne fun hnil => ?_
  have hlen := raw.length_eq
  rw [hnil, List.length_nil] at hlen
  omega

theorem fits_field {number : Nat} {value : Value} (hpos : 0 < number) (hle : number ≤ 6)
    (h : value.Fits) : Wire.Fits (number, value) := ⟨hpos, by dsimp only; omega, h⟩

/-- The fields of a sized fork record fit the encoding. -/
theorem forkFields_fits {record : ForkRecord C} (h : Sized record) :
    ∀ e ∈ forkFields record, Wire.Fits e := by
  have hmax : u64Max < 2 ^ 64 := by decide
  obtain ⟨hseq, hobserved, hkept, hconflicting⟩ := h
  intro e he
  rw [forkFields, IdentityId.toVec, bytesField_block 1 _ (by decide)] at he
  simp only [messageField, uintField, List.mem_append, List.mem_singleton] at he
  rcases he with ((((rfl | he) | rfl) | rfl) | he) | he
  · have hlen := record.ledger.raw.length_eq
    exact fits_field (by decide) (by decide) (by simp only [Value.Fits, hlen]; decide)
  · split_ifs at he
    · simp at he
    · obtain rfl := List.mem_singleton.mp he
      exact fits_field (by decide) (by decide) (by simp only [Value.Fits]; omega)
  · exact fits_field (by decide) (by decide) (by simp only [Value.Fits]; omega)
  · exact fits_field (by decide) (by decide) (by simp only [Value.Fits]; omega)
  · split_ifs at he
    · simp at he
    · obtain rfl := List.mem_singleton.mp he
      exact fits_field (by decide) (by decide) (by simp only [Value.Fits]; omega)
  · cases hsource : record.sourceEndpoint with
    | none => simp [hsource] at he
    | some endpoint =>
      rw [hsource, Option.elim_some, PublicKey.asBytes, bytesField_block 6 _ (by decide),
        messageField, List.mem_singleton] at he
      have hlen := endpoint.raw.length_eq
      rw [he]
      exact fits_field (by decide) (by decide) (by simp only [Value.Fits, hlen]; decide)

/-- The source endpoint a record is read back with. -/
theorem sourceEndpoint_forkFields (record : ForkRecord C) :
    Net.bytes (forkFields record) 6 = record.sourceEndpoint.map PublicKey.asBytes := by
  cases hsource : record.sourceEndpoint with
  | none => exact bytes_of_select_nil (by simp [forkFields, hsource])
  | some endpoint =>
    refine bytes_of_select ?_
    rw [PublicKey.asBytes, ← bytesField_block 6 _ (by decide)]
    simp [forkFields, hsource, PublicKey.asBytes]

/-- A fork record is read back as it was written, with or without a source endpoint. -/
theorem decodeForkRecord_forkEntry {record : ForkRecord C} (h : Sized record) :
    decodeForkRecord (forkEntry record) = some record := by
  have hfields : Net.fields (forkEntry record) = some (forkFields record) :=
    fields_putEntries (forkFields_fits h)
  have hledger : Net.bytes (forkFields record) 1 = some record.ledger.toVec := by
    refine bytes_of_select ?_
    rw [IdentityId.toVec, ← bytesField_block 1 _ (by decide)]
    cases hsource : record.sourceEndpoint <;> simp [forkFields, hsource, IdentityId.toVec]
  have hseq : Net.uint (forkFields record) 2 = record.seq := by
    refine uint_of_select ?_
    cases hsource : record.sourceEndpoint <;> simp [forkFields, hsource]
  have hkept : Net.bytes (forkFields record) 3 = some record.kept := by
    refine bytes_of_select ?_
    cases hsource : record.sourceEndpoint <;> simp [forkFields, hsource]
  have hconflicting : Net.bytes (forkFields record) 4 = some record.conflicting := by
    refine bytes_of_select ?_
    cases hsource : record.sourceEndpoint <;> simp [forkFields, hsource]
  have hobserved : Net.uint (forkFields record) 5 = record.observedMs := by
    refine uint_of_select ?_
    cases hsource : record.sourceEndpoint <;> simp [forkFields, hsource]
  have hsource := sourceEndpoint_forkFields record
  obtain ⟨ledger, seq, kept, conflicting, observedMs, sourceEndpoint⟩ := record
  cases sourceEndpoint with
  | none =>
    rw [Option.map_none] at hsource
    simp only [decodeForkRecord, hfields, hsource, hledger, hseq, hkept, hconflicting, hobserved,
      Option.bind_eq_bind, Option.bind_some, IdentityId.fromSlice_toVec]
    rfl
  | some endpoint =>
    have hread : ((Block.ofBytes? idBytes endpoint.asBytes).bind (PublicKey.fromBytes C)).map some =
        some (some endpoint) := by
      rw [PublicKey.asBytes, Block.ofBytes?_bytes, Option.bind_some, PublicKey.fromBytes_raw]
      rfl
    rw [Option.map_some] at hsource
    simp only [decodeForkRecord, hfields, hsource, hread, hledger, hseq, hkept, hconflicting,
      hobserved, Option.bind_eq_bind, Option.bind_some, IdentityId.fromSlice_toVec]
    rfl

/-! ## The names of fork files -/

/-- The stem of a fork record's file name. -/
def forkStem (seq : Nat) (conflicting : EventId) : List Char :=
  (LedgerStore.seqName seq).toList ++ '-' :: conflicting.display.toList

/-- A number without its plus sign. -/
def stripPlus : List Char → List Char
  | '+' :: digits => digits
  | digits => digits

/-- Read a decimal `u64`. -/
def parseU64 (text : List Char) : Option Nat :=
  let digits := stripPlus text
  if digits = [] ∨ !digits.all Char.isDigit then none
  else if Nat.ofDigitChars 10 digits 0 ≤ u64Max then some (Nat.ofDigitChars 10 digits 0) else none

/-- Read a stem back, split at its first dash. -/
def parseForkStem (stem : List Char) : Option (Nat × EventId) :=
  match stem.span (· != '-') with
  | (_, []) => none
  | (seq, _ :: conflicting) => do
    let seq ← parseU64 seq
    let conflicting ← decodeId conflicting
    return (seq, ⟨conflicting⟩)

/-- A file name is the number in decimal, filled up with zeros. -/
theorem seqName_toList (seq : Nat) : (LedgerStore.seqName seq).toList =
    List.replicate (LedgerStore.seqDigits - (toString seq).length) '0' ++ Nat.toDigits 10 seq := by
  rw [LedgerStore.seqName, String.toList_append, String.toList_ofList]
  exact congrArg _ Nat.toList_repr

/-- A file name of an event has digits only. -/
theorem isDigit_seqName {seq : Nat} {c : Char} (h : c ∈ (LedgerStore.seqName seq).toList) :
    c.isDigit = true := by
  rw [seqName_toList, List.mem_append] at h
  rcases h with h | h
  · rw [(List.mem_replicate.mp h).2]
    decide
  · exact Nat.isDigit_of_mem_toDigits (by decide) (by decide) h

/-- A file name reads back as its number. -/
theorem parseU64_seqName {seq : Nat} (h : seq ≤ u64Max) :
    parseU64 (LedgerStore.seqName seq).toList = some seq := by
  have hdigits : ∀ c ∈ (LedgerStore.seqName seq).toList, c.isDigit = true :=
    fun c => isDigit_seqName
  have hvalue : Nat.ofDigitChars 10 (LedgerStore.seqName seq).toList 0 = seq := by
    rw [seqName_toList, Nat.ofDigitChars_append, Nat.ofDigitChars_replicate_zero, Nat.mul_zero,
      Nat.ofDigitChars_ten_toDigits]
  have hne : (LedgerStore.seqName seq).toList ≠ [] := by
    rw [seqName_toList]
    simp [Nat.toDigits_ne_nil]
  obtain ⟨first, rest, hcons⟩ := List.exists_cons_of_ne_nil hne
  have hplus : first ≠ '+' := by
    rintro rfl
    exact absurd (hdigits '+' (hcons ▸ List.mem_cons_self)) (by decide)
  have hstrip : stripPlus (LedgerStore.seqName seq).toList = (LedgerStore.seqName seq).toList := by
    rw [hcons, stripPlus]
    intro digits heq
    exact absurd (List.cons.inj heq).1 hplus
  rw [parseU64, hstrip, if_neg (by simpa [hne] using hdigits), hvalue, if_pos h]

/-- The name a fork record is filed under is read back as the parts it was made of. -/
theorem parseForkStem_forkStem {seq : Nat} (h : seq ≤ u64Max) (conflicting : EventId) :
    parseForkStem (forkStem seq conflicting) = some (seq, conflicting) := by
  have hspan : (forkStem seq conflicting).span (· != '-') =
      ((LedgerStore.seqName seq).toList, '-' :: conflicting.display.toList) := by
    have hdash : ∀ c ∈ (LedgerStore.seqName seq).toList, (c != '-') = true := by
      intro c hc
      have hdigit := isDigit_seqName hc
      rw [bne_iff_ne]
      rintro rfl
      exact absurd hdigit (by decide)
    rw [List.span_eq_takeWhile_dropWhile, forkStem, List.takeWhile_append_of_pos hdash,
      List.dropWhile_append_of_pos hdash]
    simp
  have hid : decodeId conflicting.display.toList = some conflicting.raw := by
    rw [decodeId_eq_some]
    change toAsciiLowercase (renderId conflicting.raw).toList = _
    rw [toAsciiLowercase, toList_renderId, List.map_map]
    exact List.map_congr_left fun c _ => Ascii.toLower_toLower c
  rw [parseForkStem, hspan]
  dsimp only
  rw [parseU64_seqName h, hid]
  rfl

/-! ## Loading what was stored -/

/-- The name and the bytes of a fork record's file. -/
def forkFile (record : ForkRecord C) : (Nat ×ₗ EventId) × Bytes :=
  (toLex (record.seq, Mabel.eventIdOf C record.conflicting), forkEntry record)

/-- A ledger's files outside its log are those its index entry is rebuilt from. -/
structure Archived (files : LedgerFiles C) (entry : Entry C) : Prop where
  present : files.present = true
  /-- Where the ledger came from is on file. -/
  noted : files.metaFile = some ⟨entry.sourceEndpoint, entry.firstSeenMs⟩
  sized : ∀ record ∈ entry.forks, Sized record
  named : ∀ record ∈ entry.forks,
    signedEventId C record.conflicting = some (Mabel.eventIdOf C record.conflicting)
  /-- The fork files are those of the records, in their order. -/
  filed : files.forks.entries = entry.forks.map forkFile

/-- The fork records are read back in their order. -/
theorem run_readForks_files {files : LedgerFiles C} (store : LedgerStore C)
    (records : List (ForkRecord C)) (hsized : ∀ record ∈ records, Sized record)
    (hfiled : ∀ record ∈ records, forkFile record ∈ files.forks.entries) :
    run FileOp.exec (readForks store ((records.map forkFile).map fun e => ofLex e.1)) files =
      (.ok records, files) := by
  induction records with
  | nil => rfl
  | cons record records ih =>
    have hget : files.forks.get? (forkFile record).1 = some (forkEntry record) :=
      SortedMap.get?_eq_some.mpr (hfiled record List.mem_cons_self)
    have hrest := ih (fun r hr => hsized r (List.mem_cons_of_mem _ hr))
      fun r hr => hfiled r (List.mem_cons_of_mem _ hr)
    rw [List.map_cons, List.map_cons]
    change run FileOp.exec (readForks store ((record.seq, Mabel.eventIdOf C record.conflicting) ::
      (records.map forkFile).map fun e => ofLex e.1)) files = _
    rw [readForks, File.run_readFork_bind]
    change run FileOp.exec (Program.lift (Outcome.orReject _
      (files.forks.get? (forkFile record).1)) >>= _) files = _
    rw [hget, run_lift_ok_bind (Outcome.orReject_some _ _), run_bind_of_ok hrest,
      decodeForkRecord_forkEntry (hsized record List.mem_cons_self)]
    rfl

/-- The fork records of an archived entry are in order. -/
theorem Archived.sorted {files : LedgerFiles C} {entry : Entry C} (h : Archived files entry) :
    entry.forks.Pairwise fun a b => forkOrder a ≤ forkOrder b := by
  have hkeys := files.forks.sorted
  rw [h.filed, List.pairwise_map] at hkeys
  refine hkeys.imp_of_mem fun {a b} ha hb hlt => ?_
  rw [forkOrder, forkOrder, h.named a ha, h.named b hb]
  rcases Prod.Lex.toLex_lt_toLex.mp hlt with hseq | ⟨hseq, hid⟩
  · exact Prod.Lex.toLex_le_toLex.mpr (.inl hseq)
  · exact Prod.Lex.toLex_le_toLex.mpr (.inr ⟨hseq, WithBot.coe_le_coe.mpr hid.le⟩)

/-- Loading the files of a ledger that is held and archived gives its entry. -/
theorem run_loadEntry_held {caps : StorageCaps} {files : LedgerFiles C} {l : LedgerId}
    {entry : Entry C} {log : List Bytes} (h : Held caps files l entry log)
    (harchived : Archived files entry) (store : LedgerStore C) (clock : LoadClock) :
    run FileOp.exec (loadEntry store clock) files = (.ok (some entry), files) := by
  have hcount : log.length = entry.headSeq + 1 := h.count
  have hne : log ≠ [] := List.ne_nil_of_length_eq_add_one hcount
  have hread : run FileOp.exec (store.readAll clock.rebuilt) files =
      (.ok (storedEvents log), files) := by
    rw [LedgerStore.readAll, LedgerStore.readFrom, run_bind_of_ok (run_head_cached h.cached _)]
    dsimp only [Option.elim_none]
    rw [run_readCount (fun seq _ => h.holds seq) _ 0 (by omega), List.drop_zero, List.take_of_length_le (by omega)]
    rfl
  have hbytes : (storedEvents log).map StoredEvent.bytes = log := by
    rw [storedEvents, List.map_map]
    exact List.zipIdx_map_fst 0 log
  have hstored : storedEvents log ≠ [] := by
    intro hnil
    rw [hnil] at hbytes
    exact hne hbytes.symm
  obtain ⟨served, hserve, hstate, htotal, hseq, hhead⟩ := @serve_run C (storedEvents log)
    Served.none entry.state (by rw [hbytes]; exact h.run)
  obtain ⟨timestampMs, hentry⟩ := h.head
  obtain ⟨seq, timestampMs', hserved⟩ := hhead hstored
  have hevent : served.headEvent = entry.headEvent :=
    (congrArg Mabel.Head.eventId (Option.some.inj (hentry.symm.trans hserved))).symm
  have hlast : served.headSeq = entry.headSeq := by
    rw [hseq, storedEvents, List.getLast?_map, List.getLast?_eq_getElem?, List.getElem?_zipIdx,
      List.length_zipIdx, hcount, Nat.add_sub_cancel, List.getElem?_eq_getElem (by omega)]
    simp
  have htotal' : served.bytes = entry.bytes := by
    rw [htotal, hbytes, h.bytes]
    exact Nat.zero_add _
  have hforks := run_readForks_files store entry.forks harchived.sized
    fun record hrecord => harchived.filed ▸ List.mem_map_of_mem hrecord
  rw [← harchived.filed] at hforks
  have hlisted : run FileOp.exec (readForks store (files.forks.keys.map ofLex)) files =
      (.ok entry.forks, files) := by
    rw [SortedMap.keys, List.map_map]
    exact hforks
  rw [loadEntry, run_bind_of_ok hread, if_neg hstored, run_lift_ok_bind hserve,
    if_neg (by rw [hstate, hentry]; simp), File.run_readMeta_bind, File.run_readHead_bind]
  dsimp only
  rw [File.run_listForks_bind, run_bind_of_ok hlisted, h.cached, harchived.noted,
    harchived.sorted.insertionSort_eq, hstate, hevent, hlast, htotal']
  rfl

/-! ## What a push keeps on file -/

instance : Std.Total fun a b : ForkRecord C => forkOrder a ≤ forkOrder b :=
  ⟨fun a b => le_total (forkOrder a) (forkOrder b)⟩

instance : IsTrans (ForkRecord C) fun a b => forkOrder a ≤ forkOrder b :=
  ⟨fun _ _ _ => le_trans⟩

/-- The order of two records is the order of their files. -/
theorem forkFile_lt {a b : ForkRecord C}
    (ha : signedEventId C a.conflicting = some (Mabel.eventIdOf C a.conflicting))
    (hb : signedEventId C b.conflicting = some (Mabel.eventIdOf C b.conflicting))
    (hle : forkOrder a ≤ forkOrder b) (hne : (forkFile a).1 ≠ (forkFile b).1) :
    (forkFile a).1 < (forkFile b).1 := by
  rw [forkOrder, forkOrder, ha, hb] at hle
  rcases Prod.Lex.toLex_le_toLex.mp hle with hseq | ⟨hseq, hid⟩
  · exact Prod.Lex.toLex_lt_toLex.mpr (.inl hseq)
  · refine lt_of_le_of_ne ?_ hne
    exact Prod.Lex.toLex_le_toLex.mpr (.inr ⟨hseq, WithBot.coe_le_coe.mp hid⟩)

/-- A recorded fork is filed in the place it takes among the records. -/
theorem Archived.record {files : LedgerFiles C} {entry : Entry C} (h : Archived files entry)
    {record : ForkRecord C} (hsized : Sized record)
    (hnamed : signedEventId C record.conflicting = some (Mabel.eventIdOf C record.conflicting))
    (hnew : ∀ held ∈ entry.forks, (forkFile held).1 ≠ (forkFile record).1) :
    Archived { files with forks := files.forks.insert (forkFile record).1 (forkEntry record) }
      { entry with forks := insertFork entry.forks record } := by
  have hperm := insertFork_perm entry.forks record
  have hnamedAll : ∀ r ∈ insertFork entry.forks record,
      signedEventId C r.conflicting = some (Mabel.eventIdOf C r.conflicting) := by
    intro r hr
    rcases List.mem_cons.mp (hperm.mem_iff.mp hr) with rfl | hr
    · exact hnamed
    · exact h.named r hr
  have hdistinct : (insertFork entry.forks record).Pairwise
      fun a b => (forkFile a).1 ≠ (forkFile b).1 := by
    rw [hperm.pairwise_iff fun {a b} hab => hab.symm, List.pairwise_cons]
    refine ⟨fun held hheld => (hnew held hheld).symm, ?_⟩
    have hkeys := files.forks.sorted
    rw [h.filed, List.pairwise_map] at hkeys
    exact hkeys.imp fun hlt => hlt.ne
  have hsorted : ((insertFork entry.forks record).map forkFile).Pairwise
      fun a b => a.1 < b.1 := by
    rw [List.pairwise_map]
    have hle := List.pairwise_insertionSort (fun a b : ForkRecord C => forkOrder a ≤ forkOrder b)
      (entry.forks ++ [record])
    refine (hle.and hdistinct).imp_of_mem fun {a b} ha hb hab => ?_
    exact forkFile_lt (hnamedAll a ha) (hnamedAll b hb) hab.1 hab.2
  refine ⟨h.present, h.noted, ?_, hnamedAll, ?_⟩
  · intro r hr
    rcases List.mem_cons.mp (hperm.mem_iff.mp hr) with rfl | hr
    · exact hsized
    · exact h.sized r hr
  · suffices hmap : files.forks.insert (forkFile record).1 (forkEntry record) =
        ⟨(insertFork entry.forks record).map forkFile, hsorted⟩ by
      exact congrArg SortedMap.entries hmap
    refine SortedMap.ext fun k => Option.ext fun bytes => ?_
    have hold : files.forks.get? k = some bytes ↔ ∃ r ∈ entry.forks, forkFile r = (k, bytes) := by
      rw [SortedMap.get?_eq_some, h.filed, List.mem_map]
    rw [SortedMap.get?_insert, SortedMap.get?_eq_some, (hperm.map forkFile).mem_iff, List.map_cons,
      List.mem_cons, List.mem_map]
    by_cases hk : k = (forkFile record).1
    · rw [if_pos hk]
      constructor
      · intro hbytes
        obtain rfl := Option.some.inj hbytes
        exact .inl (Prod.ext hk rfl)
      · rintro (heq | ⟨r, hr, heq⟩)
        · exact congrArg some (congrArg Prod.snd heq).symm
        · exact absurd ((congrArg Prod.fst heq).trans hk) (hnew r hr)
    · rw [if_neg hk, hold]
      refine ⟨.inr, ?_⟩
      rintro (heq | hr)
      · exact absurd (congrArg Prod.fst heq) hk
      · exact hr

/-- Every held ledger is archived, and one that is not held has no files. -/
structure Restorable (s : LedgerStorage C) : Prop where
  archived : ∀ l entry, s.index.ledgers.get? l = some entry → Archived (s.filesOf l) entry
  untouched : ∀ l, s.index.ledgers.get? l = none → s.filesOf l = LedgerFiles.none

section Restorable

variable {s t : LedgerStorage C} {call : PushCall C}

/-- What a fork record of a push holds fits its file. -/
theorem Differs.sized {first i : Nat} {kept conflicting : Bytes} {shared : LedgerState C}
    {fork : Fork} (hshared : FoldRun ((s.logOf call.ledger).take (first + i)) shared)
    (hdiffers : Differs s call first i kept conflicting)
    (hfork : Forks shared kept conflicting fork) (hobserved : call.clock.observed ≤ u64Max) :
    Sized (call.record (first + i) kept conflicting) := by
  obtain ⟨_, hkept⟩ := hfork.keptApplies
  obtain ⟨_, hconflicting⟩ := hfork.conflictingApplies
  obtain ⟨stKept⟩ := apply_iff.mp hkept
  obtain ⟨stConflicting⟩ := apply_iff.mp hconflicting
  have hmax : maxEventBytes ≤ u64Max := by decide
  have hlt := (List.getElem?_eq_some_iff.mp hdiffers.kept_eq).1
  have hseq : stKept.body.seq = first + i := by
    rw [stKept.seq, hshared.nextSeq, List.length_take_of_le hlt.le]
  refine ⟨?_, hobserved, stKept.opened.size.trans hmax, stConflicting.opened.size.trans hmax⟩
  change first + i ≤ u64Max
  rw [← hseq]
  exact stKept.opened.valid.seq

/-- A fork that is recorded is archived with the others. -/
theorem Restorable.forked (h : Restorable s) {entry : Entry C}
    (hentry : s.index.ledgers.get? call.ledger = some entry) {seq : Nat}
    {kept conflicting : Bytes} {id : EventId} {cap : UInt32}
    (hrecords : entry.records cap seq id = true)
    (hsized : Sized (call.record seq kept conflicting))
    (hid : id = Mabel.eventIdOf C conflicting)
    (hnamed : signedEventId C conflicting = some (Mabel.eventIdOf C conflicting)) :
    Restorable (s.forked (call.record seq kept conflicting) id) := by
  subst hid
  have hnew : ∀ held ∈ entry.forks,
      (forkFile held).1 ≠ (forkFile (call.record seq kept conflicting)).1 := by
    intro held hheld heq
    obtain ⟨hseq, hconflicting⟩ := Prod.mk.inj (congrArg ofLex heq)
    rw [Entry.records, Bool.and_eq_true, Bool.not_eq_true', List.any_eq_false] at hrecords
    refine hrecords.1 held hheld ?_
    rw [(h.archived _ entry hentry).named held hheld, hseq, hconflicting]
    simp [PushCall.record]
  have hfiles : ∀ l, (s.forked (call.record seq kept conflicting)
      (Mabel.eventIdOf C conflicting)).filesOf l = _ := fun l =>
    LedgerStorage.filesOf_withFiles s call.ledger l _
  constructor
  · intro l held hl
    rw [LedgerStorage.get?_forked, PushCall.record_ledger] at hl
    rw [hfiles]
    by_cases hsame : l = call.ledger
    · subst hsame
      rw [if_pos rfl, hentry] at hl
      obtain rfl := Option.some.inj hl
      rw [if_pos rfl]
      exact (h.archived _ entry hentry).record hsized hnamed hnew
    · rw [if_neg hsame] at hl ⊢
      exact h.archived l held hl
  · intro l hl
    rw [LedgerStorage.get?_forked, PushCall.record_ledger] at hl
    rw [hfiles]
    by_cases hsame : l = call.ledger
    · rw [if_pos hsame, hsame, hentry] at hl
      simp at hl
    · rw [if_neg hsame] at hl ⊢
      exact h.untouched l hl

/-- A run that lands is archived with what was there. -/
theorem Restorable.landed (h : Restorable s) (state : LedgerState C) (events : List Bytes) :
    Restorable (s.landed call state events) := by
  constructor
  · intro l entry hl
    rw [LedgerStorage.get?_landed] at hl
    rw [LedgerStorage.filesOf_landed]
    by_cases hsame : l = call.ledger
    · rw [if_pos hsame] at hl ⊢
      obtain rfl := Option.some.inj hl
      cases hheld : s.index.ledgers.get? call.ledger with
      | some entry =>
        have harchived := h.archived _ entry hheld
        refine ⟨rfl, ?_, ?_, ?_, ?_⟩
        · rw [LedgerStorage.filesAfter, LedgerStorage.entryAfter, hheld]
          exact harchived.noted
        · rw [LedgerStorage.forks_entryAfter, hheld]
          exact harchived.sized
        · rw [LedgerStorage.forks_entryAfter, hheld]
          exact harchived.named
        · rw [LedgerStorage.forks_entryAfter, hheld]
          exact harchived.filed
      | none =>
        have huntouched := h.untouched _ hheld
        refine ⟨rfl, ?_, ?_, ?_, ?_⟩
        · rw [LedgerStorage.filesAfter, LedgerStorage.entryAfter, hheld]
          rfl
        · rw [LedgerStorage.forks_entryAfter, hheld]
          simp
        · rw [LedgerStorage.forks_entryAfter, hheld]
          simp
        · rw [LedgerStorage.forks_entryAfter, hheld]
          change (s.filesOf call.ledger).forks.entries = _
          rw [huntouched]
          rfl
    · rw [if_neg hsame] at hl ⊢
      exact h.archived l entry hl
  · intro l hl
    rw [LedgerStorage.get?_landed] at hl
    rw [LedgerStorage.filesOf_landed]
    by_cases hsame : l = call.ledger
    · rw [if_pos hsame] at hl
      simp at hl
    · rw [if_neg hsame] at hl ⊢
      exact h.untouched l hl

/-- However a push ends, the store stays restorable. -/
theorem Restorable.pushed (hsound : Sound s) (h : Restorable s)
    {r : Outcome StoreError PushOutcome} (hobserved : call.clock.observed ≤ u64Max)
    (hpushed : Pushed s call r t) : Restorable t := by
  cases hpushed with
  | @fork first i kept conflicting shared fork entry msg hdiffers hshared hfork hentry =>
    obtain ⟨-, hid⟩ := hdiffers.evidence hsound hshared hfork hentry
    by_cases hrecords : entry.records s.setup.caps.forkRecords (first + i) fork.conflicting = true
    · rw [if_pos hrecords]
      refine h.forked hentry hrecords (hdiffers.sized hshared hfork hobserved)
        hfork.conflictingId ?_
      rw [hid, hfork.conflictingId]
    · rw [if_neg hrecords]
      exact h
  | stored => exact h.landed _ _
  | _ => exact h

end Restorable

/-! ## Reading everything again -/

/-- Directories that load to the entries of a map give an index with these entries. -/
theorem run_loadAll_of_entries {setup : Setup} {clock : LedgerId → LoadClock}
    {s : LedgerStorage C} {entries : SortedMap LedgerId (Entry C)} (ledgers : List LedgerId) :
    ∀ {index : Index C}, ledgers.Nodup → (∀ l ∈ ledgers, index.ledgers.get? l = none) →
      index.storageUsed = index.ledgers.total Entry.bytes →
      (∀ l ∈ ledgers, run FileOp.exec (loadEntry (setup.ledger l) (clock l)) (s.filesOf l) =
        (.ok (entries.get? l), s.filesOf l)) →
      ∃ index', run StoreOp.exec (loadAll setup clock index ledgers) s = (.ok index', s) ∧
        index'.storageUsed = index'.ledgers.total Entry.bytes ∧
        ∀ l, index'.ledgers.get? l =
          if l ∈ ledgers then entries.get? l else index.ledgers.get? l := by
  induction ledgers with
  | nil => exact fun {index} _ _ hused _ => ⟨index, rfl, hused, fun l => by simp⟩
  | cons first ledgers ih =>
    intro index hnodup hnone hused hloads
    obtain ⟨hfirst, hnodup⟩ := List.nodup_cons.mp hnodup
    have hfree := hnone first List.mem_cons_self
    have hload : run StoreOp.exec (onLedger first (loadEntry (setup.ledger first) (clock first))) s =
        (.ok (entries.get? first), s) := by
      rw [run_onLedger, hloads first List.mem_cons_self, LedgerStorage.withFiles_filesOf]
    have hget : ∀ l, ((entries.get? first).elim index (index.add first)).ledgers.get? l =
        if l = first then entries.get? first else index.ledgers.get? l := by
      intro l
      cases entries.get? first with
      | some entry => exact Index.get?_add ..
      | none =>
        by_cases hl : l = first
        · rw [if_pos hl, hl]
          exact hfree
        · rw [if_neg hl]
          rfl
    have hused' : ((entries.get? first).elim index (index.add first)).storageUsed =
        ((entries.get? first).elim index (index.add first)).ledgers.total Entry.bytes := by
      cases entries.get? first with
      | none => exact hused
      | some entry =>
        have htotal := SortedMap.total_insert Entry.bytes index.ledgers first entry
        rw [hfree, Option.elim_none] at htotal
        rw [Option.elim_some, Index.add]
        dsimp only
        omega
    have hrest : ∀ l ∈ ledgers,
        ((entries.get? first).elim index (index.add first)).ledgers.get? l = none := by
      intro l hl
      have hne : l ≠ first := fun heq => hfirst (heq ▸ hl)
      rw [hget, if_neg hne]
      exact hnone l (List.mem_cons_of_mem _ hl)
    obtain ⟨index', hrun, htotal, hentries⟩ := ih hnodup hrest hused'
      fun l hl => hloads l (List.mem_cons_of_mem _ hl)
    refine ⟨index', ?_, htotal, fun l => ?_⟩
    · rw [loadAll, run_bind_of_ok hload]
      exact hrun
    · rw [hentries, hget]
      by_cases hl : l = first
      · rw [if_pos hl, if_neg (hl ▸ hfirst), if_pos (hl ▸ List.mem_cons_self), hl]
      · simp [hl]

/-- Where every listed directory loads to its entry in an index and no other ledger has one, a
reload puts this index in place. -/
theorem run_reload_of_entries {setup : Setup} {clock : LedgerId → LoadClock}
    {s : LedgerStorage C} {index : Index C}
    (hused : index.storageUsed = index.ledgers.total Entry.bytes)
    (hloads : ∀ l ∈ s.home.ledgers, run FileOp.exec (loadEntry (setup.ledger l) (clock l))
      (s.filesOf l) = (.ok (index.ledgers.get? l), s.filesOf l))
    (hothers : ∀ l ∉ s.home.ledgers, index.ledgers.get? l = none) :
    run StoreOp.exec (reload setup clock) s = (.ok (), { s with
      index := index
      advertised := { s.advertised with
        entries := verdicts setup.policy index s.advertised.endpoint } }) := by
  obtain ⟨index', hrun, hused', hentries⟩ := @run_loadAll_of_entries C setup clock s index.ledgers
    s.home.ledgers Index.default s.home.nodup_ledgers (fun _ _ => rfl) rfl hloads
  have hindex : index' = index := by
    have hledgers : index'.ledgers = index.ledgers := by
      refine SortedMap.ext fun l => ?_
      rw [hentries]
      by_cases hl : l ∈ s.home.ledgers
      · rw [if_pos hl]
      · rw [if_neg hl, hothers l hl]
        rfl
    obtain ⟨ledgers, used⟩ := index'
    obtain ⟨ledgers', used'⟩ := index
    obtain rfl : ledgers = ledgers' := hledgers
    rw [show used = used' from hused'.trans hused.symm]
  subst hindex
  rw [reload, Shared.run_listLedgers_bind, run_bind_of_ok hrun]
  rfl

section Restart

variable {s : LedgerStorage C}

/-- In a sound and restorable store every directory loads to its entry. -/
theorem Restorable.loads (h : Restorable s) (hsound : Sound s) (l : LedgerId)
    (store : LedgerStore C) (clock : LoadClock) :
    run FileOp.exec (loadEntry store clock) (s.filesOf l) =
      (.ok (s.index.ledgers.get? l), s.filesOf l) := by
  cases hl : s.index.ledgers.get? l with
  | some entry => exact run_loadEntry_held (hsound.heldLog hl) (h.archived l entry hl) store clock
  | none =>
    rw [h.untouched l hl]
    rfl

/-- A ledger the home does not list is not indexed. -/
theorem Restorable.listed (h : Restorable s) {l : LedgerId} (hl : l ∉ s.home.ledgers) :
    s.index.ledgers.get? l = none := by
  cases hentry : s.index.ledgers.get? l with
  | none => rfl
  | some entry =>
    have hpresent := (h.archived l entry hentry).present
    rw [LedgerStorage.filesOf, NodeHome.present_of_not_mem hl] at hpresent
    simp at hpresent

/-- What every push keeps: the store is sound, restorable and current, and it answers on the
endpoint it was opened with. -/
theorem Restorable.pushes (hsound : Sound s) (h : Restorable s) (calls : List (PushCall C)) :
    (∀ call ∈ calls, call.clock.observed ≤ u64Max) →
    Restorable (s.pushes calls) ∧
      (s.pushes calls).advertised.endpoint = s.advertised.endpoint := by
  induction calls generalizing s with
  | nil => exact fun _ => ⟨h, rfl⟩
  | cons call calls ih =>
    intro hobserved
    have hpushed := hsound.pushed call
    obtain ⟨hrestorable, hendpoint⟩ := ih (hpushed.sound hsound)
      (h.pushed hsound (hobserved call List.mem_cons_self) hpushed)
      fun call hcall => hobserved call (List.mem_cons_of_mem _ hcall)
    refine ⟨hrestorable, hendpoint.trans ?_⟩
    rcases admitted_push s call with hadmitted | ⟨post, hadmitted⟩
    · rw [hadmitted.advertised]
    · rw [hadmitted.advertised, recheckedFor]
      split_ifs <;> rfl

end Restart

theorem restorable_empty (setup : Setup) (identities : SortedMap IdentityId IdentityFiles)
    (endpoint : EndpointId C) : Restorable (LedgerStorage.empty setup identities endpoint) :=
  ⟨fun l entry hl => by simp [LedgerStorage.empty, Index.default] at hl, fun _ _ => rfl⟩

/-- A restart is the identity. After any pushes to an empty home, a reload leaves the store as
it is, with every entry of the index, every fork record in its place and the byte counter, and
opening the home again gives the same store. The fork records come back from their files
because what is written reads back, the name of a file as well as what is in it. -/
theorem restart_is_identity (setup : Setup) (identities : SortedMap IdentityId IdentityFiles)
    (endpoint : EndpointId C) (calls : List (PushCall C)) (reading : LedgerId → LoadClock)
    (hobserved : ∀ call ∈ calls, call.clock.observed ≤ u64Max) :
    run StoreOp.exec (reload setup reading)
        ((LedgerStorage.empty setup identities endpoint).pushes calls) =
      (.ok (), (LedgerStorage.empty setup identities endpoint).pushes calls) ∧
    LedgerStorage.openHome setup
        ((LedgerStorage.empty setup identities endpoint).pushes calls).home endpoint reading =
      .ok ((LedgerStorage.empty setup identities endpoint).pushes calls) ∧
    (∀ record : ForkRecord C, Sized record →
      decodeForkRecord (forkEntry record) = some record) ∧
    ∀ seq ≤ u64Max, ∀ conflicting : EventId,
      parseForkStem (forkStem seq conflicting) = some (seq, conflicting) := by
  have hempty := sound_empty setup identities endpoint
  obtain ⟨hrestorable, hendpoint⟩ := Restorable.pushes hempty
    (restorable_empty setup identities endpoint) calls hobserved
  obtain ⟨hcurrent, hsetup, -⟩ := @pushes_current C (.empty setup identities endpoint) rfl calls
  have hsound := hempty.pushes calls
  generalize (LedgerStorage.empty setup identities endpoint).pushes calls = s at *
  replace hsetup : s.setup = setup := hsetup
  replace hendpoint : s.advertised.endpoint = endpoint := hendpoint
  have hverdicts : verdicts setup.policy s.index endpoint = s.advertised.entries := by
    rw [hcurrent, hsetup, hendpoint]
  refine ⟨?_, ?_, fun record hsized => decodeForkRecord_forkEntry hsized,
    fun seq hseq conflicting => parseForkStem_forkStem hseq conflicting⟩
  · rw [run_reload_of_entries hsound.used (fun l _ => hrestorable.loads hsound l _ _)
      fun l hl => hrestorable.listed hl, hendpoint, hverdicts]
  · have hreload := @run_reload_of_entries C setup reading
      ⟨setup, s.home, Index.default, ⟨endpoint, []⟩⟩ s.index hsound.used
      (fun l _ => hrestorable.loads hsound l _ _) fun l hl => hrestorable.listed hl
    rw [LedgerStorage.openHome, hreload]
    dsimp only
    rw [hverdicts, ← hsetup, ← hendpoint]

/-- A home that stored the sample ledger and recorded a fork of it. -/
theorem restart_is_identity_sampleFork :
    (∀ call ∈ [sampleCall sampleLedger, sampleCall sampleFork], call.clock.observed ≤ u64Max) ∧
    ((sampleHome.pushes [sampleCall sampleLedger, sampleCall sampleFork]).index.ledgers.get?
      sampleLedgerId).map (fun entry => entry.forks.length) = some 1 ∧
    run StoreOp.exec (reload sampleSetup fun _ => ⟨6, 7⟩)
        (sampleHome.pushes [sampleCall sampleLedger, sampleCall sampleFork]) =
      (.ok (), sampleHome.pushes [sampleCall sampleLedger, sampleCall sampleFork]) := by
  have hobserved : ∀ call ∈ [sampleCall sampleLedger, sampleCall sampleFork],
      call.clock.observed ≤ u64Max := by
    intro call hcall
    rcases List.mem_pair.mp hcall with rfl | rfl <;> decide
  exact ⟨hobserved, by decide +kernel, (restart_is_identity sampleSetup _ _ _ _ hobserved).1⟩

end Mabel.Node
