import Mabel.Node.Correctness.FirstSeen

/-!
# Where a push comes from does not matter

Two homes that differ in source endpoints only answer the same pushes alike, whoever sends
them: the endpoint of a request reaches the provenance record, the index entry made from it
and the fork records, and nothing decides on these.
-/

namespace Mabel.Node

open Wire Proto Net Machine Program

variable {C : Crypto}

/-! ## Homes that differ in source endpoints only -/

/-- A fork record without the endpoint it came from. -/
def anonFork (record : ForkRecord C) : ForkRecord C := { record with sourceEndpoint := none }

/-- An index entry without the endpoints it came from. -/
def Entry.anon (entry : Entry C) : Entry C :=
  { entry with sourceEndpoint := none, forks := entry.forks.map anonFork }

/-- An index without the endpoints it came from. -/
def Index.anon (index : Index C) : Index C :=
  ⟨index.ledgers.mapValues Entry.anon, index.storageUsed⟩

/-- Two ledgers' files differ in source endpoints at most. -/
structure FilesAlike (f g : LedgerFiles C) : Prop where
  present : f.present = g.present
  events : f.events = g.events
  headFile : f.headFile = g.headFile
  firstSeen : f.metaFile.map LedgerMeta.firstSeenMs = g.metaFile.map LedgerMeta.firstSeenMs
  /-- The same fork records are there. -/
  forks : f.forks.mapValues (fun _ => ()) = g.forks.mapValues fun _ => ()

/-- Two homes differ in source endpoints at most. -/
structure SameButSource (s t : LedgerStorage C) : Prop where
  setup : s.setup = t.setup
  identities : s.home.identities = t.home.identities
  files : ∀ l, FilesAlike (s.filesOf l) (t.filesOf l)
  index : s.index.anon = t.index.anon
  advertised : s.advertised = t.advertised

theorem SameButSource.refl (s : LedgerStorage C) : SameButSource s s :=
  ⟨rfl, rfl, fun _ => ⟨rfl, rfl, rfl, rfl, rfl⟩, rfl, rfl⟩

/-! ## Programs over one ledger's files -/

/-- The operations on events and heads do not see source endpoints. -/
theorem FileOp.OnEvents.alike (op : FileOp C) (h : op.OnEvents) (f g : LedgerFiles C)
    (halike : FilesAlike f g) :
    (op.exec f).1 = (op.exec g).1 ∧ FilesAlike (op.exec f).2 (op.exec g).2 := by
  obtain ⟨hpresent, hevents, hhead, hmeta, hforks⟩ := halike
  cases op with
  | createDir => exact ⟨rfl, rfl, hevents, hhead, hmeta, hforks⟩
  | readHead => exact ⟨hhead, hpresent, hevents, hhead, hmeta, hforks⟩
  | writeHead => exact ⟨rfl, hpresent, hevents, rfl, hmeta, hforks⟩
  | removeHead => exact ⟨rfl, hpresent, hevents, rfl, hmeta, hforks⟩
  | listEvents => exact ⟨congrArg SortedMap.keys hevents, hpresent, hevents, hhead, hmeta, hforks⟩
  | readEvent seq =>
    exact ⟨congrArg (SortedMap.get? · seq) hevents, hpresent, hevents, hhead, hmeta, hforks⟩
  | writeEvent seq bytes =>
    exact ⟨rfl, hpresent, congrArg (SortedMap.insert · seq bytes) hevents, hhead, hmeta, hforks⟩
  | removeEvent seq =>
    exact ⟨rfl, hpresent, congrArg (SortedMap.remove · seq) hevents, hhead, hmeta, hforks⟩
  | _ => exact h.elim

theorem agree_onEvents {α : Type} {p : OnFiles C α} (h : p.Performs FileOp.OnEvents) :
    Agree FileOp.exec FilesAlike Eq p p := Agree.of_performs h FileOp.OnEvents.alike

/-- Programs that agree on a ledger's files agree on the home. -/
theorem agree_onFiles {α β : Type} {V : α → β → Prop} {p : OnFiles C α} {q : OnFiles C β}
    (h : Agree FileOp.exec FilesAlike V p q) (l : LedgerId) :
    Agree StoreOp.exec SameButSource V (onFiles l p) (onFiles l q) := by
  intro s t hR
  obtain ⟨halike, hfiles⟩ := h _ _ (hR.files l)
  rw [run_onFiles (Prod.eta _).symm, run_onFiles (Prod.eta _).symm]
  refine ⟨halike.mapReject unavailable, hR.setup, hR.identities, fun l' => ?_, hR.index,
    hR.advertised⟩
  rw [LedgerStorage.filesOf_withFiles, LedgerStorage.filesOf_withFiles]
  by_cases hl : l' = l
  · rw [if_pos hl, if_pos hl]
    exact hfiles
  · rw [if_neg hl, if_neg hl]
    exact hR.files l'

/-- First sight of a ledger is noted alike from every source. -/
theorem agree_noteFirstSeen (source source' : Option (EndpointId C)) (now : Nat) :
    Agree FileOp.exec FilesAlike (fun a b => a.firstSeenMs = b.firstSeenMs)
      (LedgerStore.noteFirstSeen source now) (LedgerStore.noteFirstSeen source' now) := by
  intro f g halike
  have hmeta := halike.firstSeen
  rw [LedgerStore.noteFirstSeen, LedgerStore.noteFirstSeen, File.run_readMeta_bind,
    File.run_readMeta_bind]
  cases hf : f.metaFile with
  | none =>
    rw [hf, Option.map_none, eq_comm, Option.map_eq_none_iff] at hmeta
    rw [hmeta]
    exact ⟨rfl, rfl, halike.events, halike.headFile, rfl, halike.forks⟩
  | some noted =>
    rw [hf, Option.map_some, eq_comm, Option.map_eq_some_iff] at hmeta
    obtain ⟨noted', hg, hsame⟩ := hmeta
    rw [hg]
    exact ⟨hsame.symm, halike⟩

/-- A fork is recorded alike from every source. -/
theorem agree_recordFork (seq : Nat) (conflicting : EventId) (record record' : Bytes) :
    Agree FileOp.exec FilesAlike Eq (LedgerStore.recordFork seq conflicting record : OnFiles C Unit)
      (LedgerStore.recordFork seq conflicting record') := by
  intro f g halike
  refine ⟨rfl, halike.present, halike.events, halike.headFile, halike.firstSeen, ?_⟩
  change (f.forks.insert _ record).mapValues _ = (g.forks.insert _ record').mapValues _
  rw [SortedMap.mapValues_insert, SortedMap.mapValues_insert, halike.forks]

/-! ## What the index decides -/

section Index

variable {i j : Index C}

/-- Indexes that differ in sources only have the same entries but for sources. -/
theorem get?_anon (h : i.anon = j.anon) (l : LedgerId) :
    (i.ledgers.get? l).map Entry.anon = (j.ledgers.get? l).map Entry.anon := by
  have := congrArg (fun index : Index C => index.ledgers.get? l) h
  simpa [Index.anon] using this

/-- What an entry says beside its sources is the same in both. -/
theorem elim_anon (h : i.anon = j.anon) (l : LedgerId) {β : Type} {f : Entry C → β}
    (hf : ∀ entry, f entry.anon = f entry) (d : β) :
    (i.ledgers.get? l).elim d f = (j.ledgers.get? l).elim d f := by
  have hsame := congrArg (Option.elim · d f) (get?_anon h l)
  simp only [Option.elim_map, Function.comp_def, hf] at hsame
  exact hsame

/-- Indexes that differ in sources only are of one length. -/
theorem length_anon (h : i.anon = j.anon) :
    i.ledgers.entries.length = j.ledgers.entries.length := by
  have := congrArg (fun index : Index C => index.ledgers.entries.length) h
  simpa [Index.anon, SortedMap.length_mapValues] using this

/-- Indexes that differ in sources only hold the same ledgers. -/
theorem isSome_anon (h : i.anon = j.anon) (l : LedgerId) :
    (i.ledgers.get? l).isSome = (j.ledgers.get? l).isSome := by
  have := congrArg Option.isSome (get?_anon h l)
  simpa using this

/-- The caps do not look at sources. -/
theorem checkCaps_anon (h : i.anon = j.anon) (caps : StorageCaps) (l : LedgerId)
    (events bytes : Nat) : checkCaps caps i l events bytes = checkCaps caps j l events bytes := by
  have hused : i.anon.storageUsed = j.anon.storageUsed := congrArg Index.storageUsed h
  have hnone : i.ledgers.get? l = none ↔ j.ledgers.get? l = none := by
    rw [← Option.not_isSome_iff_eq_none, ← Option.not_isSome_iff_eq_none, isSome_anon h]
  have hcount := elim_anon h l (f := Entry.eventCount) (fun _ => rfl) 0
  have hbytes := elim_anon h l (f := Entry.bytes) (fun _ => rfl) 0
  change i.storageUsed = j.storageUsed at hused
  simp only [checkCaps, hcount, hbytes, length_anon h, hused, hnone]

/-- The verdicts do not look at sources. -/
theorem verdicts_anon (h : i.anon = j.anon) (policy : AdmissionPolicy) (endpoint : EndpointId C) :
    verdicts policy i endpoint = verdicts policy j endpoint := by
  refine List.map_congr_left fun identity _ => ?_
  have hgap : ∀ index : Index C, gapFor index identity endpoint =
      (index.ledgers.get? identity).elim (some .noLocalCopy) fun entry =>
        if (endpoints entry.state).isEmpty then some .advertisesNothing
        else if !(endpoints entry.state).contains endpoint then some .advertisesOtherEndpoints
        else none := by
    intro index
    rw [gapFor]
    cases index.ledgers.get? identity <;> rfl
  rw [hgap, hgap, elim_anon h identity (fun _ => rfl)]

/-- Recording a run and forgetting the sources commute. -/
theorem anon_record (index : Index C) (l : LedgerId) (state : LedgerState C) (written : Head)
    (bytes : Nat) (noted : LedgerMeta C) : (index.record l state written bytes noted).anon =
      index.anon.record l state written bytes ⟨none, noted.firstSeenMs⟩ := by
  have hget : index.anon.ledgers.get? l = (index.ledgers.get? l).map Entry.anon :=
    SortedMap.get?_mapValues ..
  rw [Index.record, Index.record, hget]
  cases hentry : index.ledgers.get? l with
  | none => exact congrArg (Index.mk · _) (SortedMap.mapValues_insert ..)
  | some entry => exact congrArg (Index.mk · _) (SortedMap.mapValues_insert ..)

/-- A fork is inserted alike whatever its source. -/
theorem anonFork_insertFork (forks : List (ForkRecord C)) (record : ForkRecord C) :
    (insertFork forks record).map anonFork = insertFork (forks.map anonFork) (anonFork record) := by
  rw [insertFork, insertFork, List.map_insertionSort _ (fun a b => forkOrder a ≤ forkOrder b)]
  · rw [List.map_append]
    rfl
  · exact fun _ _ _ _ => Iff.rfl

end Index

/-! ## Pushes -/

/-- What a home can sign for depends on its identities. -/
theorem canSignFor_congr {home home' : NodeHome C} (h : home.identities = home'.identities)
    (l : LedgerId) : home.canSignFor l = home'.canSignFor l := by
  obtain ⟨identities, files⟩ := home
  obtain ⟨identities', files'⟩ := home'
  obtain rfl : identities = identities' := h
  rfl

section Push

variable {ε : Type}

theorem agree_readIndex : Agree StoreOp.exec SameButSource (fun i j => i.anon = j.anon)
    (Shared.readIndex : OnNode C ε (Index C)) Shared.readIndex :=
  fun _ _ hR => ⟨hR.index, hR⟩

theorem agree_writeIndex {i j : Index C} (h : i.anon = j.anon) :
    Agree StoreOp.exec SameButSource Eq (Shared.writeIndex i : OnNode C ε Unit)
      (Shared.writeIndex j) := fun _ _ hR => ⟨rfl, { hR with index := h }⟩

theorem agree_readAdvertised : Agree StoreOp.exec SameButSource Eq
    (Shared.readAdvertised : OnNode C ε (Advertised C)) Shared.readAdvertised :=
  fun _ _ hR => ⟨hR.advertised, hR⟩

theorem agree_canSignFor (l : LedgerId) : Agree StoreOp.exec SameButSource Eq
    (Shared.canSignFor l : OnNode C ε Bool) (Shared.canSignFor l) :=
  fun _ _ hR => ⟨canSignFor_congr hR.identities l, hR⟩

theorem agree_lift {α : Type} (x : Outcome ε α) : Agree StoreOp.exec SameButSource Eq
    (Program.lift x : OnNode C ε α) (Program.lift x) := Agree.lift (.refl (fun _ => rfl) x)

/-- The recheck does alike. -/
theorem agree_recheckFor {i j : Index C} (h : i.anon = j.anon) (policy : AdmissionPolicy)
    (l : LedgerId) : Agree StoreOp.exec SameButSource Eq
      (recheckFor policy i l : OnNode C ε Unit) (recheckFor policy j l) := by
  intro s t hR
  rw [run_recheckFor, run_recheckFor]
  refine ⟨rfl, { hR with advertised := ?_ }⟩
  simp only [recheckedFor, hR.advertised, verdicts_anon h]

/-- Admission does alike. -/
theorem agree_admitPush (setup : Setup) (l : LedgerId) (pre : Option (LedgerState C))
    (post : LedgerState C) : Agree StoreOp.exec SameButSource Eq (admitPush setup l pre post)
      (admitPush setup l pre post) := by
  refine (agree_canSignFor l).bind ?_
  rintro canSign _ rfl
  refine agree_readAdvertised.bind ?_
  rintro advertised _ rfl
  exact agree_lift _

end Push

/-- Two pushes that differ in who sent them at most. -/
structure CallsAlike (call call' : PushCall C) : Prop where
  ledger : call.ledger = call'.ledger
  events : call.events = call'.events
  clock : call.clock = call'.clock

/-- The source is noted alike but for what it is. -/
theorem agree_noteSource {call call' : PushCall C} (h : CallsAlike call call') (held : Bool) :
    Agree StoreOp.exec SameButSource (fun a b => a.firstSeenMs = b.firstSeenMs)
      (noteSource call held) (noteSource call' held) := by
  rw [noteSource, noteSource, ← h.ledger, ← h.clock]
  split_ifs
  · exact Agree.pure rfl
  · exact agree_onFiles (agree_noteFirstSeen _ _ _) _

/-- A run is stored alike. -/
theorem agree_storeRun (setup : Setup) {call call' : PushCall C} (h : CallsAlike call call')
    (state : LedgerState C) (events : List Bytes) :
    Agree StoreOp.exec SameButSource Eq (storeRun setup call state events)
      (storeRun setup call' state events) := by
  refine agree_readIndex.bind fun i j hij => ?_
  dsimp only
  rw [← h.ledger, ← h.clock, elim_anon hij call.ledger (f := Entry.headSeq) (fun _ => rfl) 0,
    elim_anon hij call.ledger (f := Entry.eventCount) (fun _ => rfl) 0, checkCaps_anon hij,
    isSome_anon hij]
  split_ifs
  · exact Agree.pure rfl
  · refine (agree_lift _).bind ?_
    rintro _ _ -
    refine (agree_lift _).bind ?_
    rintro batch _ rfl
    refine (agree_noteSource h _).bind fun noted noted' hnoted => ?_
    refine (agree_onFiles (agree_onEvents (LedgerStore.append_onEvents ..)) _).bind ?_
    rintro written _ rfl
    refine (agree_lift _).bind ?_
    rintro written _ rfl
    have hrecord : (i.record call.ledger state written (events.map List.length).sum noted).anon =
        (j.record call.ledger state written (events.map List.length).sum noted').anon := by
      rw [anon_record, anon_record, hij, hnoted]
    refine (agree_writeIndex hrecord).bind ?_
    rintro _ _ -
    refine (agree_recheckFor hrecord _ _).bind ?_
    rintro _ _ -
    exact Agree.pure rfl

/-- Whether a fork is known or recording has stopped does not depend on sources. -/
theorem records_anon {entry entry' : Entry C} (h : entry.anon = entry'.anon) (cap : UInt32)
    (seq : Nat) (conflicting : EventId) :
    entry.records cap seq conflicting = entry'.records cap seq conflicting := by
  have hforks : entry.forks.map anonFork = entry'.forks.map anonFork := congrArg Entry.forks h
  have hlength := congrArg List.length hforks
  have hknown : ∀ forks : List (ForkRecord C), (forks.any fun held =>
      held.seq == seq && signedEventId C held.conflicting == some conflicting) =
      (forks.map anonFork).any fun held =>
        held.seq == seq && signedEventId C held.conflicting == some conflicting := by
    intro forks
    rw [List.any_map]
    rfl
  rw [List.length_map, List.length_map] at hlength
  rw [Entry.records, Entry.records, hknown, hknown entry'.forks, hforks, Entry.forksTruncated,
    Entry.forksTruncated, hlength]

/-- A fork is kept alike. -/
theorem agree_keepFork (setup : Setup) {call call' : PushCall C} (h : CallsAlike call call')
    {i j : Index C} (hij : i.anon = j.anon) {entry entry' : Entry C}
    (hentry : entry.anon = entry'.anon) (fork : Fork) {record record' : ForkRecord C}
    (hrecord : anonFork record = anonFork record') :
    Agree StoreOp.exec SameButSource Eq (keepFork setup call i entry fork record)
      (keepFork setup call' j entry' fork record') := by
  have hseq : (anonFork record).seq = (anonFork record').seq := congrArg ForkRecord.seq hrecord
  change record.seq = record'.seq at hseq
  have hrecords := records_anon hentry setup.caps.forkRecords record.seq fork.conflicting
  have hindex : Index.anon { i with ledgers := i.ledgers.adjust call.ledger fun entry =>
        { entry with forks := insertFork entry.forks record } } =
      Index.anon { j with ledgers := j.ledgers.adjust call.ledger fun entry =>
        { entry with forks := insertFork entry.forks record' } } := by
    have hadjust : ∀ (index : Index C) (r : ForkRecord C), Index.anon { index with
        ledgers := index.ledgers.adjust call.ledger fun entry =>
          { entry with forks := insertFork entry.forks r } } =
        { index.anon with ledgers := index.anon.ledgers.adjust call.ledger fun entry =>
          { entry with forks := insertFork entry.forks (anonFork r) } } := by
      intro index r
      refine congrArg (Index.mk · _) (SortedMap.mapValues_adjust (fun entry => ?_) _ _)
      simp only [Entry.anon, anonFork_insertFork]
    rw [hadjust, hadjust, hij, hrecord]
  unfold keepFork
  unfold Entry.records at hrecords
  dsimp only
  rw [hrecords, ← h.ledger, ← hseq]
  split_ifs
  · refine (agree_onFiles (agree_recordFork _ _ _ _) _).bind ?_
    rintro _ _ -
    exact agree_writeIndex hindex
  · exact Agree.pure rfl

/-- An entry that is asserted to be there is there in both. -/
theorem alike_expect {ε : Type} {site : String} {o o' : Option (Entry C)}
    (h : o.map Entry.anon = o'.map Entry.anon) :
    Outcome.Alike (fun a b => Entry.anon a = Entry.anon b)
      (Outcome.expect site o : Outcome ε (Entry C)) (Outcome.expect site o') := by
  cases o <;> cases o'
  · rfl
  · simp at h
  · simp at h
  · exact Option.some.inj h

theorem foldedTo_onHead (store : LedgerStore C) (rebuilt seq : Nat) :
    (foldedTo store rebuilt seq).Performs FileOp.OnHead :=
  .bind (store.readFrom_onHead ..) fun _ => .bind (.lift _) fun _ => .pure _

/-- Comparing the overlap reads heads and events only. -/
theorem overlap_onHead (store : LedgerStore C) (headSeq first : Nat) (events : List Bytes) :
    ∀ offset, (overlap store headSeq first offset events).Performs FileOp.OnHead := by
  induction events with
  | nil => exact fun _ => .pure _
  | cons event events ih =>
    exact fun offset => .ite (.pure _) (.bind (store.readEvent_onHead _) fun _ =>
      .ite (.pure _) (ih (offset + 1)))

/-- A divergence is recorded alike. -/
theorem agree_recordDivergence (setup : Setup) {call call' : PushCall C}
    (h : CallsAlike call call') (seq : Nat) (kept conflicting : Bytes) :
    Agree StoreOp.exec SameButSource Eq (recordDivergence setup call seq kept conflicting)
      (recordDivergence setup call' seq kept conflicting) := by
  unfold recordDivergence
  rw [← h.ledger, ← h.clock]
  refine (agree_onFiles (agree_onEvents ((foldedTo_onHead ..).mono fun _ =>
    FileOp.OnHead.onEvents)) _).bind ?_
  rintro shared _ rfl
  refine (agree_lift _).bind ?_
  rintro fork _ rfl
  refine agree_readIndex.bind fun i j hij => ?_
  have hget := get?_anon hij call.ledger
  refine (Agree.lift (V := fun a b => Entry.anon a = Entry.anon b) ?_).bind fun a b hab => ?_
  · exact alike_expect hget
  refine (agree_keepFork setup h hij hab fork ?_).bind ?_
  · simp [anonFork]
  · rintro _ _ -
    exact agree_lift _

/-- An extension is stored alike. -/
theorem agree_extend (setup : Setup) {call call' : PushCall C} (h : CallsAlike call call')
    (first fresh : Nat) (stored : LedgerState C) :
    Agree StoreOp.exec SameButSource Eq (extend setup call first fresh stored)
      (extend setup call' first fresh stored) := by
  unfold extend
  rw [← h.ledger, ← h.events]
  refine (agree_lift _).bind ?_
  rintro ⟨state, valid, violation⟩ _ rfl
  refine (agree_admitPush _ _ _ _).bind ?_
  rintro _ _ -
  refine (agree_storeRun setup h _ _).bind ?_
  rintro outcome _ rfl
  exact agree_lift _

/-- An overlapping push is handled alike. -/
theorem agree_splice (setup : Setup) {call call' : PushCall C} (h : CallsAlike call call')
    (first : Nat) : Agree StoreOp.exec SameButSource Eq (splice setup call first)
      (splice setup call' first) := by
  unfold splice
  rw [← h.ledger, ← h.events]
  refine agree_readIndex.bind fun i j hij => ?_
  have hget := get?_anon hij call.ledger
  refine (Agree.lift (V := fun a b => Entry.anon a = Entry.anon b) ?_).bind fun a b hab => ?_
  · exact alike_expect hget
  have hhead : a.anon.headSeq = b.anon.headSeq := congrArg Entry.headSeq hab
  have hstate : a.anon.state = b.anon.state := congrArg Entry.state hab
  change a.headSeq = b.headSeq at hhead
  change a.state = b.state at hstate
  rw [hhead, hstate]
  refine (agree_lift _).bind ?_
  rintro _ _ -
  refine (agree_onFiles (agree_onEvents ((overlap_onHead ..).mono fun _ =>
    FileOp.OnHead.onEvents)) _).bind ?_
  rintro compared _ rfl
  cases compared with
  | differs seq stored event => exact agree_recordDivergence setup h seq stored event
  | agrees fresh =>
    dsimp only
    split_ifs
    · exact Agree.pure rfl
    · exact agree_extend setup h first fresh b.state

/-- A push that continues the chain is handled alike. -/
theorem agree_ingest (setup : Setup) {call call' : PushCall C} (h : CallsAlike call call')
    (first : Nat) : Agree StoreOp.exec SameButSource Eq (ingest setup call first)
      (ingest setup call' first) := by
  unfold ingest
  rw [← h.ledger, ← h.events]
  refine (agree_lift _).bind ?_
  rintro _ _ -
  refine (agree_lift _).bind ?_
  rintro ⟨state, valid, violation⟩ _ rfl
  dsimp only
  split_ifs
  · refine (agree_lift _).bind ?_
    rintro reason _ rfl
    exact agree_lift _
  · refine (agree_lift _).bind ?_
    rintro _ _ -
    refine (agree_admitPush _ _ _ _).bind ?_
    rintro _ _ -
    refine (agree_storeRun setup h _ _).bind ?_
    rintro outcome _ rfl
    exact agree_lift _

/-- A push is handled alike whatever its source. -/
theorem agree_pushLocked (setup : Setup) {call call' : PushCall C} (h : CallsAlike call call') :
    Agree StoreOp.exec SameButSource Eq (pushLocked setup call) (pushLocked setup call') := by
  unfold pushLocked
  rw [← h.ledger, ← h.events]
  refine agree_readIndex.bind fun i j hij => ?_
  have hget := get?_anon hij call.ledger
  dsimp only
  cases call.events with
  | nil =>
    cases hi : i.ledgers.get? call.ledger <;> cases hj : j.ledgers.get? call.ledger
    · refine agree_readAdvertised.bind ?_
      rintro advertised _ rfl
      exact agree_lift _
    · simp [hi, hj] at hget
    · simp [hi, hj] at hget
    · rename_i a b
      have hhead : a.anon.headSeq = b.anon.headSeq := by
        rw [hi, hj] at hget
        exact congrArg Entry.headSeq (Option.some.inj hget)
      exact Agree.pure (congrArg (PushOutcome.mk · 0) hhead)
  | cons event rest =>
    dsimp only
    rw [isSome_anon hij]
    refine (agree_lift _).bind ?_
    rintro first _ rfl
    refine (agree_lift _).bind ?_
    rintro _ _ -
    split_ifs
    · exact agree_splice setup h first
    · exact agree_ingest setup h first

/-- Two pushes alike are answered alike and leave the homes alike. -/
theorem agree_push {s t : LedgerStorage C} (hR : SameButSource s t) {call call' : PushCall C}
    (h : CallsAlike call call') :
    (s.push call).1 = (t.push call').1 ∧ SameButSource (s.push call).2 (t.push call').2 := by
  have hpush := ((agree_pushLocked s.setup h).andFinally StoreOp.unlockIndex fun _ _ hR => hR) s t hR
  rw [LedgerStorage.push, LedgerStorage.push, ← hR.setup]
  exact ⟨hpush.1.eq, hpush.2⟩

/-! ## Runs -/

/-- What each push of a sequence is answered. -/
def LedgerStorage.answers (s : LedgerStorage C) :
    List (PushCall C) → List (Outcome StoreError PushOutcome)
  | [] => []
  | call :: calls => (s.push call).1 :: (s.push call).2.answers calls

/-- Two sequences of pushes that differ in who sent them at most are answered alike and leave
the homes alike. -/
theorem SameButSource.pushes {calls calls' : List (PushCall C)}
    (h : List.Forall₂ CallsAlike calls calls') : ∀ {s t : LedgerStorage C}, SameButSource s t →
      s.answers calls = t.answers calls' ∧ SameButSource (s.pushes calls) (t.pushes calls') := by
  induction h with
  | nil => exact fun hR => ⟨rfl, hR⟩
  | cons hcall _ ih =>
    intro s t hR
    obtain ⟨hanswer, hstates⟩ := agree_push hR hcall
    obtain ⟨hanswers, hfinal⟩ := ih hstates
    refine ⟨?_, hfinal⟩
    rw [LedgerStorage.answers, LedgerStorage.answers, hanswer, hanswers]

end Mabel.Node
