import Mabel.Node.Files
import Mabel.Node.WalletCore

/-!
# Reading a ledger back after writing it

A directory whose event files reach its head cache is readable: loading it answers, changes
nothing and does not depend on the clock. Every write that succeeds leaves the directory it
writes readable, so telling the index afterwards puts into it what the files hold.
-/

namespace Mabel.Node

open Wire Proto Net Machine Program

variable {C : Crypto} {store : LedgerStore C} {files files' : LedgerFiles C}

/-! ## Readable directories -/

/-- Every event file up to the head cache is there, and where there is no cache, none can be
rebuilt. -/
def Readable (files : LedgerFiles C) : Prop :=
  match files.headFile with
  | some head => ∀ seq ≤ head.seq, (files.events.get? seq).isSome = true
  | none => contiguousLast files.events.keys = none

/-- Files with every event up to the head are readable. -/
theorem readable_of_head {head : Head} (hhead : files.headFile = some head)
    (h : ∀ seq ≤ head.seq, (files.events.get? seq).isSome = true) : Readable files := by
  rw [Readable, hhead]
  exact h

/-- Readable files have every event up to the head. -/
theorem Readable.events (h : Readable files) {head : Head} (hhead : files.headFile = some head)
    {seq : Nat} (hseq : seq ≤ head.seq) : (files.events.get? seq).isSome = true := by
  rw [Readable, hhead] at h
  exact h seq hseq

/-- Whether a directory is readable shows in its head cache and its event files. -/
theorem Readable.congr (h : Readable files) (hhead : files'.headFile = files.headFile)
    (hevents : files'.events = files.events) : Readable files' := by
  rw [Readable, hhead, hevents]
  exact h

/-- The head of a readable directory is the cached one. -/
theorem Readable.run_head (h : Readable files) (store : LedgerStore C) (now : Nat) :
    run FileOp.exec (store.head now) files = (.ok files.headFile, files) := by
  cases hhead : files.headFile with
  | some head => exact run_head_cached hhead now
  | none =>
    rw [Readable, hhead] at h
    rw [LedgerStore.head, File.run_readHead_bind, hhead]
    change run FileOp.exec (store.rebuildHead now) files = _
    rw [LedgerStore.rebuildHead, File.run_listEvents_bind, h]
    rfl

/-- A head that is rebuilt is cached. -/
theorem run_rebuildHead_eq_ok {now : Nat} {cached : Option Head} (hnone : files.headFile = none)
    (h : run FileOp.exec (store.rebuildHead now) files = (.ok cached, files')) :
    files'.headFile = cached ∧ files'.events = files.events ∧
      (cached.map Head.seq) = contiguousLast files.events.keys := by
  rw [LedgerStore.rebuildHead, File.run_listEvents_bind] at h
  cases hlast : contiguousLast files.events.keys with
  | none =>
    rw [hlast] at h
    obtain ⟨hcached, rfl⟩ := Prod.mk.inj h
    obtain rfl := Except.ok.inj hcached
    exact ⟨hnone, rfl, rfl⟩
  | some last =>
    rw [hlast] at h
    obtain ⟨bytes, t, hread, h⟩ := run_bind_eq_ok.mp h
    rw [LedgerStore.readEvent, File.run_readEvent_bind, run_lift_eq_ok] at hread
    obtain ⟨-, rfl⟩ := hread
    obtain ⟨id, t, hid, h⟩ := run_bind_eq_ok.mp h
    obtain ⟨-, rfl⟩ := run_lift_eq_ok.mp hid
    dsimp only at h
    rw [File.run_writeHead_bind] at h
    obtain ⟨hcached, rfl⟩ := Prod.mk.inj h
    obtain rfl := Except.ok.inj hcached
    exact ⟨rfl, rfl, rfl⟩

/-- The head a look at a directory finds is cached afterwards. -/
theorem run_head_eq_ok {now : Nat} {cached : Option Head}
    (h : run FileOp.exec (store.head now) files = (.ok cached, files')) :
    files'.headFile = cached ∧ files'.events = files.events ∧
      (cached = none → contiguousLast files.events.keys = none) := by
  rw [LedgerStore.head, File.run_readHead_bind] at h
  cases hhead : files.headFile with
  | some head =>
    rw [hhead] at h
    obtain ⟨hcached, rfl⟩ := Prod.mk.inj h
    obtain rfl := Except.ok.inj hcached
    exact ⟨hhead, rfl, by simp⟩
  | none =>
    rw [hhead] at h
    obtain ⟨hfile, hevents, hlast⟩ := run_rebuildHead_eq_ok hhead h
    refine ⟨hfile, hevents, ?_⟩
    rintro rfl
    exact hlast.symm

/-! ## Reading the events -/

/-- What is read, is read again from the same directory, which is readable. -/
theorem run_readAll_eq_ok {now : Nat} {stored : List StoredEvent}
    (h : run FileOp.exec (store.readAll now) files = (.ok stored, files')) :
    Readable files' ∧ (stored ≠ [] → files'.headFile.isSome = true) ∧
      ∀ now', run FileOp.exec (store.readAll now') files' = (.ok stored, files') := by
  obtain ⟨cached, t, hhead, h⟩ := run_bind_eq_ok.mp h
  obtain ⟨hfile, hevents, hnone⟩ := run_head_eq_ok hhead
  cases cached with
  | none =>
    obtain ⟨hstored, rfl⟩ := Prod.mk.inj h
    obtain rfl := Except.ok.inj hstored
    have hreadable : Readable t := by
      rw [Readable, hfile, hevents]
      exact hnone rfl
    refine ⟨hreadable, by simp, fun now' => ?_⟩
    rw [LedgerStore.readAll, LedgerStore.readFrom, run_bind_of_ok (hreadable.run_head store now'),
      hfile]
    rfl
  | some head =>
    obtain ⟨rfl, hreads⟩ : files' = t ∧ t.Reads 0 (head.seq + 1) stored :=
      run_readCount_eq_ok.mp h
    have hreadable : Readable files' := by
      refine readable_of_head hfile fun seq hseq => ?_
      have hlt : seq < stored.length := by
        rw [hreads.length]
        omega
      have hget := (hreads.event seq _ (List.getElem?_eq_getElem hlt)).2
      rw [Nat.zero_add] at hget
      rw [hget]
      rfl
    refine ⟨hreadable, fun _ => by simp [hfile], fun now' => ?_⟩
    rw [LedgerStore.readAll, LedgerStore.readFrom, run_bind_of_ok (hreadable.run_head store now'),
      hfile]
    exact run_readCount_eq_ok.mpr ⟨rfl, hreads⟩

/-- A readable directory is read, and stays as it is. -/
theorem Readable.run_readAll (h : Readable files) (store : LedgerStore C) :
    ∃ stored, ∀ now, run FileOp.exec (store.readAll now) files = (.ok stored, files) := by
  suffices hone : ∃ stored, run FileOp.exec (store.readAll 0) files = (.ok stored, files) by
    obtain ⟨stored, hrun⟩ := hone
    exact ⟨stored, (run_readAll_eq_ok hrun).2.2⟩
  cases hhead : files.headFile with
  | none =>
    refine ⟨[], ?_⟩
    rw [LedgerStore.readAll, LedgerStore.readFrom, run_bind_of_ok (h.run_head store 0), hhead]
    rfl
  | some head =>
    have hthere : ∀ i < head.seq + 1 - 0, (files.events.get? (0 + i)).isSome = true := by
      intro i hi
      rw [Nat.zero_add]
      exact h.events hhead (by omega)
    obtain ⟨stored, hreads⟩ := LedgerFiles.exists_reads hthere
    refine ⟨stored, ?_⟩
    rw [LedgerStore.readAll, LedgerStore.readFrom, run_bind_of_ok (h.run_head store 0), hhead]
    exact run_readCount_eq_ok.mpr ⟨rfl, hreads⟩

/-! ## Loading -/

/-- Folding what is stored never fails with a storage error. -/
theorem serve_ne_reject (events : List StoredEvent) : ∀ (served : Served C) (e : StorageError),
    serve served events ≠ .error (.reject e) := by
  induction events with
  | nil => exact fun _ _ => by simp [serve]
  | cons event events ih =>
    intro served e h
    rw [serve] at h
    rcases happly : served.state.apply event.bytes with (reason | site) | state
    · simp [happly] at h
    · simp [happly, Outcome.panic] at h
    · rw [happly] at h
      rcases Outcome.bind_eq_error.mp h with hhead | ⟨head, -, hrest⟩
      · cases hsome : state.head with
        | none => simp [Outcome.expect, Outcome.panic, hsome] at hhead
        | some head => simp [hsome] at hhead
      · exact ih _ e hrest

/-- Stored events that are a run are served to the last one. -/
theorem serve_run (events : List StoredEvent) : ∀ {served : Served C} {state : LedgerState C},
    RunFrom (Accepts LedgerState.apply) served.state (events.map StoredEvent.bytes) state →
    ∃ served', serve served events = .ok served' ∧ served'.state = state ∧
      served'.bytes = served.bytes + ((events.map StoredEvent.bytes).map List.length).sum ∧
      served'.headSeq = events.getLast?.elim served.headSeq StoredEvent.seq ∧
      (events ≠ [] → ∃ seq timestampMs, state.head = some ⟨seq, served'.headEvent, timestampMs⟩) := by
  induction events with
  | nil =>
    intro served state hrun
    obtain rfl : state = served.state := hrun.eq_of_nil
    exact ⟨served, rfl, rfl, by simp, rfl, by simp⟩
  | cons event events ih =>
    intro served state hrun
    obtain ⟨next, haccept, hrest⟩ := hrun.cases_cons
    obtain ⟨st⟩ := apply_iff.mp haccept
    obtain ⟨served', hserve, hstate, hbytes, hseq, hhead⟩ := @ih
      ⟨next, served.bytes + event.bytes.length, event.seq, st.newHead.eventId⟩ state hrest
    refine ⟨served', ?_, hstate, ?_, ?_, fun _ => ?_⟩
    · rw [serve, haccept]
      dsimp only
      rw [st.head, Outcome.expect_some]
      exact hserve
    · rw [hbytes, List.map_cons, List.map_cons, List.sum_cons, Nat.add_assoc]
    · rw [hseq, List.getLast?_cons]
      cases events.getLast? <;> rfl
    · by_cases hnil : events = []
      · subst hnil
        obtain rfl : state = next := hrest.eq_of_nil
        obtain rfl := Except.ok.inj hserve
        exact ⟨_, _, st.head⟩
      · exact hhead hnil

/-- Fork records that are listed are read. -/
theorem run_readForks (store : LedgerStore C) (files : LedgerFiles C)
    (listed : List (Nat × EventId))
    (h : ∀ key ∈ listed, (files.forks.get? (toLex key)).isSome = true) :
    ∃ records, run FileOp.exec (readForks store listed) files = (.ok records, files) := by
  induction listed with
  | nil => exact ⟨[], rfl⟩
  | cons key listed ih =>
    obtain ⟨seq, conflicting⟩ := key
    obtain ⟨raw, hraw⟩ := Option.isSome_iff_exists.mp (h _ List.mem_cons_self)
    obtain ⟨records, hrecords⟩ := ih fun key hkey => h key (List.mem_cons_of_mem _ hkey)
    refine ⟨(decodeForkRecord raw).toList ++ records, ?_⟩
    rw [readForks, File.run_readFork_bind, hraw, run_lift_ok_bind (Outcome.orReject_some _ _),
      run_bind_of_ok hrecords]
    rfl

/-- The forks listed are read. -/
theorem run_readForks_listed (store : LedgerStore C) (files : LedgerFiles C) :
    ∃ records, run FileOp.exec (readForks store (files.forks.keys.map ofLex)) files =
      (.ok records, files) := by
  refine run_readForks store files _ fun key hkey => ?_
  obtain ⟨k, hk, rfl⟩ := List.mem_map.mp hkey
  exact Option.isSome_iff_exists.mpr (SortedMap.mem_keys.mp hk)

/-- The entry of a directory, by what verifies of it and its other files. -/
def entryOf (served : Served C) (noted : Option (LedgerMeta C)) (head : Head)
    (records : List (ForkRecord C)) : Entry C where
  state := served.state
  headSeq := served.headSeq
  headEvent := served.headEvent
  bytes := served.bytes
  firstSeenMs := noted.elim head.updatedMs LedgerMeta.firstSeenMs
  updatedMs := head.updatedMs
  sourceEndpoint := noted.bind LedgerMeta.sourceEndpoint
  forks := records.insertionSort fun a b => forkOrder a ≤ forkOrder b

/-- Once the events are read, what loading answers is settled by them and the other files, and
fails only where folding them does. -/
theorem loadEntry_of_readAll (store : LedgerStore C) (files' : LedgerFiles C)
    (stored : List StoredEvent) (hcached : stored ≠ [] → files'.headFile.isSome = true) :
    ∃ x : Outcome StorageError (Option (Entry C)),
      (∀ e, x = .error e → serve (Served.none : Served C) stored = .error e) ∧
      ∀ clock files, run FileOp.exec (store.readAll clock.rebuilt) files = (.ok stored, files') →
        run FileOp.exec (loadEntry store clock) files = (x, files') := by
  by_cases hempty : stored = []
  · refine ⟨.ok none, by simp, fun clock files hread => ?_⟩
    rw [loadEntry, run_bind_of_ok hread, if_pos hempty]
    rfl
  obtain ⟨head, hhead⟩ := Option.isSome_iff_exists.mp (hcached hempty)
  cases hserve : serve (Served.none : Served C) stored with
  | error e =>
    refine ⟨.error e, fun error he => ?_, fun clock files hread => ?_⟩
    · rw [Except.error.inj he]
    · rw [loadEntry, run_bind_of_ok hread, if_neg hempty, run_lift_error_bind hserve]
  | ok served =>
    by_cases hnone : served.state.head = none
    · refine ⟨.ok none, by simp, fun clock files hread => ?_⟩
      rw [loadEntry, run_bind_of_ok hread, if_neg hempty, run_lift_ok_bind hserve, if_pos hnone]
      rfl
    · obtain ⟨records, hforks⟩ := run_readForks_listed store files'
      refine ⟨.ok (some (entryOf served files'.metaFile head records)), by simp,
        fun clock files hread => ?_⟩
      rw [loadEntry, run_bind_of_ok hread, if_neg hempty, run_lift_ok_bind hserve, if_neg hnone,
        File.run_readMeta_bind, File.run_readHead_bind]
      dsimp only
      rw [hhead, File.run_listForks_bind, run_bind_of_ok hforks]
      rfl

/-- What loading answers, it answers again from the directory it leaves, which is readable. -/
theorem run_loadEntry_eq_ok {clock : LoadClock} {entry : Option (Entry C)}
    (h : run FileOp.exec (loadEntry store clock) files = (.ok entry, files')) :
    Readable files' ∧
      ∀ clock', run FileOp.exec (loadEntry store clock') files' = (.ok entry, files') := by
  rw [loadEntry] at h
  obtain ⟨stored, t, hread, -⟩ := run_bind_eq_ok.mp h
  obtain ⟨hreadable, hcached, hagain⟩ := run_readAll_eq_ok hread
  obtain ⟨x, -, hload⟩ := loadEntry_of_readAll store t stored hcached
  have hsame : (x, t) = (.ok entry, files') := (hload clock files hread).symm.trans h
  obtain ⟨rfl, rfl⟩ := Prod.mk.inj hsame
  exact ⟨hreadable, fun clock' => hload clock' t (hagain _)⟩

/-- Loading a readable directory changes nothing, answers the same at any time and fails with
no storage error. -/
theorem Readable.run_loadEntry (h : Readable files) (store : LedgerStore C) :
    ∃ x : Outcome StorageError (Option (Entry C)), (∀ e, x ≠ .error (.reject e)) ∧
      ∀ clock, run FileOp.exec (loadEntry store clock) files = (x, files) := by
  obtain ⟨stored, hread⟩ := h.run_readAll store
  obtain ⟨x, hx, hload⟩ := loadEntry_of_readAll store files stored
    (run_readAll_eq_ok (hread 0)).2.1
  exact ⟨x, fun e he => serve_ne_reject stored _ e (hx _ he),
    fun clock => hload clock files (hread _)⟩

/-! ## Writing -/

/-- Wherever the program answers, a readable directory is readable after it. -/
def Steady {ε α : Type} (p : Program (FileOp C) FileOp.Reply ε α) : Prop :=
  ∀ files a files', Readable files → run FileOp.exec p files = (.ok a, files') → Readable files'

namespace Steady

variable {ε ε' α β : Type}

/-- Code that performs no operation is steady. -/
theorem lift (x : Outcome ε α) : Steady (Program.lift x : Program (FileOp C) FileOp.Reply ε α) := by
  intro files a files' h hrun
  obtain ⟨-, rfl⟩ := run_lift_eq_ok.mp hrun
  exact h

theorem pure (a : α) : Steady (Pure.pure a : Program (FileOp C) FileOp.Reply ε α) := lift (.ok a)

/-- Steady code may follow steady code. -/
theorem bind {p : Program (FileOp C) FileOp.Reply ε α}
    {f : α → Program (FileOp C) FileOp.Reply ε β} (hp : Steady p) (hf : ∀ a, Steady (f a)) :
    Steady (p >>= f) := by
  intro files b files' h hrun
  obtain ⟨a, t, hfirst, hsecond⟩ := run_bind_eq_ok.mp hrun
  exact hf a t b files' (hp files a t h hfirst) hsecond

theorem mapReject {p : Program (FileOp C) FileOp.Reply ε α} (hp : Steady p) (f : ε → ε') :
    Steady (p.mapReject f) :=
  fun files a files' h hrun => hp files a files' h (run_mapReject_eq_ok.mp hrun)

/-- A program that performs one operation which leaves the events and the head alone. -/
theorem ask {op : FileOp C} (hhead : ∀ files, (op.exec files).2.headFile = files.headFile)
    (hevents : ∀ files, (op.exec files).2.events = files.events) :
    Steady (Program.ask op : Program (FileOp C) FileOp.Reply ε _) := by
  intro files a files' h hrun
  obtain ⟨-, rfl⟩ := Prod.mk.inj hrun
  exact h.congr (hhead files) (hevents files)

/-- Finding the head is steady. -/
theorem head (store : LedgerStore C) (now : Nat) : Steady (store.head now) := by
  intro files a files' h hrun
  obtain ⟨-, rfl⟩ := Prod.mk.inj ((h.run_head store now).symm.trans hrun)
  exact h

theorem readAll (store : LedgerStore C) (now : Nat) : Steady (store.readAll now) :=
  fun _ _ _ _ hrun => (run_readAll_eq_ok hrun).1

theorem load (store : LedgerStore C) (now : Nat) : Steady (load store now) :=
  ((readAll store now).mapReject _).bind fun _ => (lift _).bind fun _ => (lift _).bind fun _ =>
    pure _

/-- Appended events reach the head they move. -/
theorem append (store : LedgerStore C) (rebuilt now : Nat) (events : List NewEvent) :
    Steady (store.append rebuilt now events) := by
  cases events with
  | nil => exact head store rebuilt
  | cons first rest =>
    intro files a files' h hrun
    have hpresent : Readable { files with present := true } := h
    have hhead := hpresent.run_head store rebuilt
    have hoffered : Offered { files with present := true }
        (files.headFile.elim 0 fun head => head.seq + 1) (first :: rest) := by
      obtain ⟨x, hchecks, hiff⟩ := run_checkEvents store { files with present := true }
        (first :: rest) (files.headFile.elim 0 fun head => head.seq + 1)
      refine hiff.mp ?_
      obtain ⟨_, t, hwrite, -⟩ := run_bind_eq_ok.mp hrun
      rw [LedgerStore.writeEvents, File.run_createDir_bind, run_bind_of_ok hhead] at hwrite
      obtain ⟨_, t', hchecked, -⟩ := run_bind_eq_ok.mp hwrite
      exact congrArg Prod.fst (hchecks.symm.trans hchecked)
    rw [run_append now hhead hoffered] at hrun
    obtain ⟨-, rfl⟩ := Prod.mk.inj hrun
    have hseqs := hoffered.seqs
    have hlast : ((first :: rest).getLast (by simp)).seq =
        (files.headFile.elim 0 fun head => head.seq + 1) + rest.length := by
      refine hseqs rest.length _ ?_
      rw [List.getLast_eq_getElem]
      exact List.getElem?_eq_getElem _
    refine readable_of_head rfl fun seq hseq => ?_
    dsimp only at hseq ⊢
    rw [hlast] at hseq
    rw [get?_write hseqs seq]
    by_cases hlow : (files.headFile.elim 0 fun head => head.seq + 1) ≤ seq
    · have hlt : seq < (files.headFile.elim 0 fun head => head.seq + 1) +
          (first :: rest).length := by
        rw [List.length_cons]
        omega
      rw [if_pos ⟨hlow, hlt⟩, Option.isSome_map, List.getElem?_eq_getElem (by omega)]
      rfl
    · rw [if_neg fun hin => hlow hin.1]
      cases hcached : files.headFile with
      | none =>
        rw [hcached] at hlow
        exact absurd (Nat.zero_le seq) hlow
      | some head =>
        rw [hcached] at hlow
        simp only [Option.elim_some, not_le] at hlow
        exact h.events hcached (by omega)

/-- Noting first sight is steady. -/
theorem noteFirstSeen (source : Option (EndpointId C)) (now : Nat) :
    Steady (LedgerStore.noteFirstSeen source now) := by
  refine (ask (fun _ => rfl) fun _ => rfl).bind fun noted => ?_
  cases noted with
  | some noted => exact pure _
  | none =>
    exact (ask (fun _ => rfl) fun _ => rfl).bind fun _ =>
      (ask (fun _ => rfl) fun _ => rfl).bind fun _ => pure _

/-- Appending an event is steady. -/
theorem appendEvent (store : LedgerStore C) (checks : Bool) (call : WalletCall C) :
    Steady (appendEvent store checks call) :=
  (load store _).bind fun _ => (lift _).bind fun _ =>
    ((append store _ _ _).mapReject _).bind fun _ => pure _

/-- Comparing with what is stored is steady. -/
theorem compareStored (store : LedgerStore C) (events : List Bytes) : ∀ seq,
    Steady (compareStored store seq events) := by
  induction events with
  | nil => exact fun _ => pure _
  | cons bytes events ih =>
    exact fun seq => (((ask (fun _ => rfl) fun _ => rfl).bind fun _ => lift _).mapReject _).bind
      fun _ => (lift _).bind fun _ => ih (seq + 1)

/-- Storing served events is steady. -/
theorem storeFiles (store : LedgerStore C) (call : StoreCall C) :
    Steady (storeFiles store call) :=
  ((head store _).mapReject _).bind fun _ => (compareStored store _ 0).bind fun _ =>
    (lift _).bind fun _ => ((append store _ _ _).mapReject _).bind fun _ =>
      ((noteFirstSeen _ _).mapReject _).bind fun _ => pure _

/-- Writing a profile is steady. -/
theorem profileFiles (store : LedgerStore C) (checks : Bool) (call : MintCall C) :
    Steady (profileFiles store checks call) :=
  ((load store _).mapReject _).bind fun _ => (lift _).bind fun _ => (lift _).bind fun _ =>
    ((append store _ _ _).mapReject _).bind fun _ => lift _

/-- Writing an inception is steady. -/
theorem inceptionFiles (store : LedgerStore C) (call : MintCall C) (built : BuiltEvent) :
    Steady (inceptionFiles store call built) :=
  ((append store _ _ _).mapReject _).bind fun _ => (ask (fun _ => rfl) fun _ => rfl).bind fun _ =>
    ask (fun _ => rfl) fun _ => rfl

end Steady

/-- A contiguous run has every sequence up to its last. -/
theorem contiguousFrom_le {seqs : List Nat} : ∀ {index : Nat} {last : Option Nat} {final : Nat},
    (∀ seq, last = some seq → seq + 1 = index) → contiguousFrom index last seqs = some final →
    ∀ seq, index ≤ seq → seq ≤ final → seq ∈ seqs := by
  induction seqs with
  | nil =>
    intro index last final hlast hfinal seq hlow hhigh
    have := hlast final hfinal
    omega
  | cons first seqs ih =>
    intro index last final hlast hfinal seq hlow hhigh
    rw [contiguousFrom] at hfinal
    by_cases hfirst : first = index
    · rw [if_neg (not_not.mpr hfirst)] at hfinal
      subst hfirst
      rcases Nat.eq_or_lt_of_le hlow with rfl | hlt
      · exact List.mem_cons_self
      · exact List.mem_cons_of_mem _ (ih (fun _ h => by rw [Option.some.inj h]) hfinal seq hlt hhigh)
    · rw [if_pos hfirst] at hfinal
      have := hlast final hfinal
      omega

/-- A directory whose head was rebuilt is readable. -/
theorem readable_of_rebuildHead {now : Nat} {cached : Option Head}
    (hnone : files.headFile = none)
    (h : run FileOp.exec (store.rebuildHead now) files = (.ok cached, files')) :
    Readable files' := by
  obtain ⟨hhead, hevents, hlast⟩ := run_rebuildHead_eq_ok hnone h
  cases cached with
  | none =>
    rw [Readable, hhead, hevents]
    exact hlast.symm
  | some head =>
    refine readable_of_head hhead fun seq hseq => ?_
    have hmem := contiguousFrom_le (by simp) hlast.symm seq (Nat.zero_le _) hseq
    rw [hevents]
    exact Option.isSome_iff_exists.mpr (SortedMap.mem_keys.mp hmem)

/-- Truncating a directory leaves it readable. -/
theorem readable_truncateFiles {keepThrough now : Nat} {u : Unit}
    (h : run FileOp.exec (truncateFiles store keepThrough now) files = (.ok u, files')) :
    Readable files' := by
  obtain ⟨seqs, t, -, h⟩ := run_bind_eq_ok.mp h
  obtain ⟨_, t, -, h⟩ := run_bind_eq_ok.mp h
  obtain ⟨_, t', hremove, h⟩ := run_bind_eq_ok.mp h
  obtain ⟨cached, t'', hrebuild, h⟩ := run_bind_eq_ok.mp h
  obtain ⟨-, rfl⟩ := Prod.mk.inj h
  obtain ⟨-, rfl⟩ := Prod.mk.inj hremove
  exact readable_of_rebuildHead rfl (run_mapReject_eq_ok.mp hrebuild)

end Mabel.Node
