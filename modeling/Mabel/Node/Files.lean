import Mabel.Node.LedgerStore

/-!
# What the file programs do

The programs of one ledger store, each run alone. Reads leave the files as they are; an
append writes nothing before every event of its batch has been checked.
-/

namespace Mabel.Node

open Wire Proto Program

variable {C : Crypto} {files : LedgerFiles C} {store : LedgerStore C}

/-! ## The files of a log -/

namespace LedgerFiles

/-- The event files are those of a log. -/
def Holds (files : LedgerFiles C) (log : List Bytes) : Prop :=
  ∀ seq, files.events.get? seq = log[seq]?

/-- Write event files. -/
def write (files : LedgerFiles C) (events : List NewEvent) : LedgerFiles C :=
  { files with
    events := events.foldl (fun m event => m.insert event.seq event.bytes) files.events }

namespace Holds

variable {log : List Bytes}

theorem stored (h : files.Holds log) : files.stored = log := SortedMap.values_of_get? h

theorem keys (h : files.Holds log) : files.events.keys = List.range log.length :=
  SortedMap.keys_of_get? h

/-- Files with the same events hold the same log. -/
theorem of_events {files' : LedgerFiles C} (h : files.Holds log)
    (hevents : files'.events = files.events) : files'.Holds log := by
  intro seq
  rw [hevents, h seq]

/-- Two logs with the same files are the same. -/
theorem unique {log' : List Bytes} (h : files.Holds log) (h' : files.Holds log') : log = log' :=
  h.stored.symm.trans h'.stored

end Holds

theorem holds_none : (none : LedgerFiles C).Holds [] := fun _ => rfl

end LedgerFiles

/-! ## Events offered to an append -/

/-- An offered event's bytes hash to the id it is offered under. -/
def Hashes (C : Crypto) (event : NewEvent) : Prop :=
  ∃ signed, SignedEvent.decode event.bytes = some signed ∧ eventId C signed.body = event.eventId

/-- Events that may be appended from a sequence on: numbered from it, hashing to their ids
and in conflict with no file. -/
def Offered (files : LedgerFiles C) : Nat → List NewEvent → Prop
  | _, [] => True
  | want, event :: events => event.seq = want ∧ Hashes C event ∧
    (∀ held, files.events.get? want = some held → held = event.bytes) ∧
    Offered files (want + 1) events

/-- The events of a log, numbered from a sequence on under their ids. -/
def numbered (C : Crypto) (start : Nat) : List Bytes → List NewEvent
  | [] => []
  | event :: events => ⟨start, Mabel.eventIdOf C event, event⟩ :: numbered C (start + 1) events

/-- An event's id is that of its decoded body. -/
theorem eventIdOf_eq_ok {seq : Nat} {bytes : Bytes} {id : EventId} :
    store.eventIdOf seq bytes = .ok id ↔
      ∃ signed, SignedEvent.decode bytes = some signed ∧ eventId C signed.body = id := by
  simp [LedgerStore.eventIdOf, Outcome.bind_eq_ok]

/-! ## Reading -/

/-- An event of the log is read as it is. -/
theorem run_readEvent {log : List Bytes} (h : files.Holds log) {seq : Nat} {bytes : Bytes}
    (hseq : log[seq]? = some bytes) :
    run FileOp.exec (store.readEvent seq) files = (.ok bytes, files) := by
  rw [LedgerStore.readEvent, File.run_readEvent_bind, h seq, hseq]
  rfl

/-- A cached head is answered as it stands. -/
theorem run_head_cached {head : Head} (h : files.headFile = some head) (now : Nat) :
    run FileOp.exec (store.head now) files = (.ok (some head), files) := by
  rw [LedgerStore.head, File.run_readHead_bind, h]
  rfl

/-- No head is found where there are no events. -/
theorem run_head_empty (h : files.headFile = none) (hevents : files.Holds []) (now : Nat) :
    run FileOp.exec (store.head now) files = (.ok none, files) := by
  rw [LedgerStore.head, File.run_readHead_bind, h]
  change run FileOp.exec (store.rebuildHead now) files = _
  rw [LedgerStore.rebuildHead, File.run_listEvents_bind, hevents.keys]
  rfl

/-- The event files of a run from a sequence on, as they are read. -/
structure LedgerFiles.Reads (files : LedgerFiles C) (seq count : Nat) (stored : List StoredEvent) :
    Prop where
  length : stored.length = count
  event : ∀ i event, stored[i]? = some event →
    event.seq = seq + i ∧ files.events.get? (seq + i) = some event.bytes

/-- A run is read off its first file and the run behind it. -/
theorem LedgerFiles.reads_succ {seq count : Nat} {stored : List StoredEvent} :
    files.Reads seq (count + 1) stored ↔ ∃ bytes, files.events.get? seq = some bytes ∧
      ∃ rest, files.Reads (seq + 1) count rest ∧ ⟨seq, bytes⟩ :: rest = stored := by
  constructor
  · intro h
    obtain ⟨⟨start, bytes⟩, rest, rfl⟩ := List.exists_cons_of_length_eq_add_one h.length
    obtain ⟨hseq, hget⟩ := h.event 0 ⟨start, bytes⟩ rfl
    obtain rfl : start = seq := hseq
    refine ⟨bytes, hget, rest, ⟨Nat.succ_inj.mp h.length, fun i event hi => ?_⟩, rfl⟩
    rw [Nat.add_right_comm]
    exact h.event (i + 1) event hi
  · rintro ⟨bytes, hget, rest, hrest, rfl⟩
    refine ⟨congrArg Nat.succ hrest.length, fun i event hi => ?_⟩
    cases i with
    | zero =>
      obtain rfl := Option.some.inj hi
      exact ⟨rfl, hget⟩
    | succ i =>
      rw [← Nat.add_assoc, Nat.add_right_comm]
      exact hrest.event i event hi

/-- Reading a run changes no file, and answers the events of its files if each of them is there. -/
theorem run_readCount_spec (store : LedgerStore C) (files : LedgerFiles C) (count : Nat) :
    ∀ seq, ∃ x, run FileOp.exec (store.readCount seq count) files = (x, files) ∧
      ∀ stored, x = .ok stored ↔ files.Reads seq count stored := by
  induction count with
  | zero =>
    refine fun seq => ⟨.ok [], rfl, fun stored => ⟨?_, fun h => ?_⟩⟩
    · rintro ⟨⟩
      exact ⟨rfl, by simp⟩
    · rw [List.length_eq_zero_iff.mp h.length]
  | succ count ih =>
    intro seq
    obtain ⟨x, hrun, hiff⟩ := ih (seq + 1)
    have hread : run FileOp.exec (store.readEvent seq) files =
        (Outcome.orReject (.missingEvent store.ledger seq) (files.events.get? seq), files) := by
      rw [LedgerStore.readEvent, File.run_readEvent_bind]
      rfl
    refine ⟨_, run_bind_reads hread fun bytes => run_bind_reads hrun fun rest => rfl, ?_⟩
    intro stored
    simp only [LedgerFiles.reads_succ, Outcome.bind_eq_ok, Outcome.orReject_eq_ok, hiff,
      Except.ok.injEq]

/-- A run is read exactly when it answers the events of its files. -/
theorem run_readCount_eq_ok {files' : LedgerFiles C} {seq count : Nat}
    {stored : List StoredEvent} :
    run FileOp.exec (store.readCount seq count) files = (.ok stored, files') ↔
      files' = files ∧ files.Reads seq count stored := by
  obtain ⟨x, hrun, hiff⟩ := run_readCount_spec store files count seq
  rw [hrun, Prod.mk.injEq, hiff, eq_comm (a := files'), and_comm]

/-- A run is read if each of its files is there. -/
theorem LedgerFiles.exists_reads {seq count : Nat}
    (h : ∀ i < count, (files.events.get? (seq + i)).isSome = true) :
    ∃ stored, files.Reads seq count stored := by
  induction count generalizing seq with
  | zero => exact ⟨[], rfl, by simp⟩
  | succ count ih =>
    obtain ⟨bytes, hget⟩ := Option.isSome_iff_exists.mp (h 0 (by omega))
    obtain ⟨rest, hrest⟩ := @ih (seq + 1) fun i hi => by
      have := h (i + 1) (by omega)
      rwa [← Nat.add_assoc, Nat.add_right_comm] at this
    exact ⟨⟨seq, bytes⟩ :: rest, reads_succ.mpr ⟨bytes, hget, rest, hrest, rfl⟩⟩

/-- Reading a part of a log that the files hold. -/
theorem run_readCount {log : List Bytes}
    (h : ∀ seq < log.length, files.events.get? seq = log[seq]?) (count : Nat) (seq : Nat)
    (hlen : seq + count ≤ log.length) : run FileOp.exec (store.readCount seq count) files =
      (.ok (((log.drop seq).take count).zipIdx seq |>.map fun e => ⟨e.2, e.1⟩), files) := by
  refine run_readCount_eq_ok.mpr ⟨rfl, ⟨by simp; omega, fun i event hi => ?_⟩⟩
  rw [List.getElem?_map, List.getElem?_zipIdx, Option.map_map, Option.map_eq_some_iff] at hi
  obtain ⟨bytes, hbytes, rfl⟩ := hi
  rw [List.getElem?_take] at hbytes
  split_ifs at hbytes
  rw [List.getElem?_drop] at hbytes
  exact ⟨rfl, (h _ (by omega)).trans hbytes⟩

/-! ## Checking -/

/-- The check of one event reads and answers. -/
theorem run_checkEvent (store : LedgerStore C) (files : LedgerFiles C) (want : Nat)
    (event : NewEvent) : ∃ x, run FileOp.exec (store.checkEvent want event) files = (x, files) ∧
      (x = .ok () ↔ event.seq = want ∧ Hashes C event ∧
        ∀ held, files.events.get? want = some held → held = event.bytes) := by
  refine ⟨_, run_lift_bind_reads fun _ => run_lift_bind_reads fun actual =>
    run_lift_bind_reads fun _ => rfl, ?_⟩
  simp only [Outcome.bind_eq_ok, Outcome.rejectIf_eq_ok, eventIdOf_eq_ok, ne_eq, not_not,
    exists_const]
  constructor
  · rintro ⟨hseq, id, ⟨signed, hdecode, hid⟩, hsame, hheld⟩
    refine ⟨hseq, ⟨signed, hdecode, hid.trans hsame⟩, fun held hget => ?_⟩
    rw [← hseq] at hget
    change ¬ (files.events.get? event.seq).any (· != event.bytes) = true at hheld
    rw [hget] at hheld
    simpa using hheld
  · rintro ⟨hseq, ⟨signed, hdecode, hid⟩, hheld⟩
    refine ⟨hseq, _, ⟨signed, hdecode, rfl⟩, hid, ?_⟩
    change ¬ (files.events.get? event.seq).any (· != event.bytes) = true
    rw [hseq]
    cases hget : files.events.get? want with
    | none => simp
    | some held => simp [hheld held hget]

/-- The checks of a batch read and answer. -/
theorem run_checkEvents (store : LedgerStore C) (files : LedgerFiles C) (events : List NewEvent) :
    ∀ want, ∃ x, run FileOp.exec (store.checkEvents want events) files = (x, files) ∧
      (x = .ok () ↔ Offered files want events) := by
  induction events with
  | nil => exact fun want => ⟨.ok (), rfl, by simp [Offered]⟩
  | cons event events ih =>
    intro want
    obtain ⟨x, hx, hiff⟩ := run_checkEvent store files want event
    obtain ⟨y, hy, hiff'⟩ := ih (want + 1)
    refine ⟨_, run_bind_reads hx fun _ => hy, ?_⟩
    rw [Outcome.bind_eq_ok, Offered]
    constructor
    · rintro ⟨_, hxok, hyok⟩
      obtain ⟨hseq, hid, hheld⟩ := hiff.mp hxok
      exact ⟨hseq, hid, hheld, hiff'.mp hyok⟩
    · rintro ⟨hseq, hid, hheld, hrest⟩
      exact ⟨(), hiff.mpr ⟨hseq, hid, hheld⟩, hiff'.mpr hrest⟩

/-! ## Writing -/

/-- Writing events writes them to the files. -/
theorem run_writeFiles (events : List NewEvent) : ∀ files : LedgerFiles C,
    run FileOp.exec (LedgerStore.writeFiles events) files = (.ok (), files.write events) := by
  induction events with
  | nil => exact fun files => rfl
  | cons event events ih =>
    intro files
    rw [LedgerStore.writeFiles, File.run_writeEvent_bind]
    exact ih _

/-- Numbered events change the files at their own sequences only. -/
theorem get?_write {events : List NewEvent} : ∀ {files : LedgerFiles C} {want : Nat},
    (∀ (i : Nat) event, events[i]? = some event → event.seq = want + i) → ∀ seq,
    (files.write events).events.get? seq =
      if want ≤ seq ∧ seq < want + events.length then (events[seq - want]?).map NewEvent.bytes
      else files.events.get? seq := by
  induction events with
  | nil =>
    intro files want _ seq
    rw [if_neg (by simp)]
    rfl
  | cons event events ih =>
    intro files want hseqs seq
    have hseq : event.seq = want := hseqs 0 event rfl
    have hrest : ∀ (i : Nat) e, events[i]? = some e → e.seq = want + 1 + i := by
      intro i e hi
      have := hseqs (i + 1) e (by simpa using hi)
      omega
    have hih := @ih { files with events := files.events.insert event.seq event.bytes } (want + 1)
      hrest seq
    refine hih.trans ?_
    rw [List.length_cons]
    by_cases hlow : seq = want
    · subst hlow
      rw [if_neg (by omega), if_pos (by omega), SortedMap.get?_insert, if_pos hseq.symm]
      simp
    · by_cases hin : want + 1 ≤ seq ∧ seq < want + 1 + events.length
      · rw [if_pos hin, if_pos (by omega), show seq - want = seq - (want + 1) + 1 by omega]
        rfl
      · rw [if_neg hin, if_neg (by omega), SortedMap.get?_insert, if_neg (hseq ▸ hlow)]

/-- Offered events are numbered on from the one wanted. -/
theorem Offered.seqs {events : List NewEvent} : ∀ {want : Nat}, Offered files want events →
    ∀ (i : Nat) event, events[i]? = some event → event.seq = want + i := by
  induction events with
  | nil => simp
  | cons first events ih =>
    rintro want ⟨hseq, -, -, hrest⟩ i event hi
    cases i with
    | zero =>
      obtain rfl : first = event := by simpa using hi
      exact hseq
    | succ i =>
      have := ih hrest i event (by simpa using hi)
      omega

/-- An offered event agrees with the one held under its number. -/
theorem Offered.agrees {events : List NewEvent} : ∀ {want : Nat}, Offered files want events →
    ∀ {i : Nat} {event : NewEvent} {held : Bytes}, events[i]? = some event →
      files.events.get? (want + i) = some held → held = event.bytes := by
  induction events with
  | nil => simp
  | cons first events ih =>
    rintro want ⟨-, -, hheld, hrest⟩ i event held hi hget
    cases i with
    | zero =>
      obtain rfl : first = event := by simpa using hi
      exact hheld held hget
    | succ i => exact ih hrest (by simpa using hi) (by rwa [Nat.add_right_comm])

/-- An accepted batch lands whole, and the head moves to its last event. -/
theorem run_append {first : NewEvent} {rest : List NewEvent} {before : LedgerFiles C}
    {cached : Option Head} {rebuilt : Nat} (now : Nat)
    (hhead : run FileOp.exec (store.head rebuilt) { before with present := true } =
      (.ok cached, files))
    (hoffered : Offered files (cached.elim 0 fun head => head.seq + 1) (first :: rest)) :
    run FileOp.exec (store.append rebuilt now (first :: rest)) before =
      (.ok (some ⟨((first :: rest).getLast (by simp)).seq,
          ((first :: rest).getLast (by simp)).eventId, now⟩),
        { files.write (first :: rest) with
          headFile := some ⟨((first :: rest).getLast (by simp)).seq,
            ((first :: rest).getLast (by simp)).eventId, now⟩ }) := by
  obtain ⟨x, hx, hiff⟩ := run_checkEvents store files (first :: rest)
    (cached.elim 0 fun head => head.seq + 1)
  obtain rfl := hiff.mpr hoffered
  have hwrite : run FileOp.exec (store.writeEvents rebuilt now first rest) before =
      (.ok ⟨((first :: rest).getLast (by simp)).seq,
        ((first :: rest).getLast (by simp)).eventId, now⟩, files.write (first :: rest)) := by
    rw [LedgerStore.writeEvents, File.run_createDir_bind, run_bind_of_ok hhead]
    dsimp only
    rw [run_bind_of_ok hx, run_bind_of_ok (run_writeFiles _ _)]
    rfl
  rw [LedgerStore.append, run_bind_of_ok hwrite]
  rfl

/-- The operations that change the head cache at most. -/
def FileOp.OnHead : FileOp C → Prop
  | .readHead => True
  | .writeHead _ => True
  | .listEvents => True
  | .readEvent _ => True
  | _ => False

/-- Finding the head reads heads and events only. -/
theorem LedgerStore.head_onHead (store : LedgerStore C) (now : Nat) :
    (store.head now).Performs FileOp.OnHead := by
  refine .bind (.ask trivial) fun cached => ?_
  cases cached with
  | some head => exact .pure _
  | none =>
    refine .bind (.ask trivial) fun seqs => ?_
    dsimp only
    split
    · exact .pure _
    · exact .bind (.bind (.ask trivial) fun _ => .lift _) fun _ => .bind (.lift _) fun _ =>
        .bind (.ask trivial) fun _ => .pure _

/-- The operations that read, and the one that puts a rebuilt head cache back. -/
def FileOp.Looks : FileOp C → Prop
  | .createDir => False
  | .removeHead => False
  | .writeEvent _ _ => False
  | .removeEvent _ => False
  | .writeMeta _ => False
  | .writeFork _ _ _ => False
  | _ => True

theorem FileOp.OnHead.looks {op : FileOp C} (h : op.OnHead) : op.Looks := by
  cases op <;> trivial

/-- What only looks leaves everything but the head cache as it was. -/
theorem FileOp.Looks.frame {α : Type} {p : OnFiles C α} (h : p.Performs FileOp.Looks)
    (files : LedgerFiles C) :
    ∃ cached, (run FileOp.exec p files).2 = { files with headFile := cached } := by
  refine h.keeps (I := fun after => ∃ cached, after = { files with headFile := cached }) ?_ files
    ⟨files.headFile, rfl⟩
  rintro op hop _ ⟨cached, rfl⟩
  cases op with
  | writeHead head => exact ⟨some head, rfl⟩
  | readHead | listEvents | readEvent | readMeta | listForks | readFork => exact ⟨cached, rfl⟩
  | _ => exact hop.elim

theorem LedgerStore.head_looks (store : LedgerStore C) (now : Nat) :
    (store.head now).Performs FileOp.Looks :=
  (store.head_onHead now).mono fun _ => FileOp.OnHead.looks

/-- An append that fails leaves the event files as they were; one that does not has a head. -/
theorem append_cases (store : LedgerStore C) (rebuilt now : Nat) {events : List NewEvent}
    (hne : events ≠ []) (files : LedgerFiles C) :
    (store.append rebuilt now events).Ensures FileOp.exec files fun x after =>
      (∃ e, x = .error e ∧ after.events = files.events) ∨ ∃ head, x = .ok (some head) := by
  obtain ⟨first, rest, rfl⟩ := List.exists_cons_of_ne_nil hne
  obtain ⟨cached, hframe⟩ := FileOp.Looks.frame (store.head_looks rebuilt)
    { files with present := true }
  rcases hhead : run FileOp.exec (store.head rebuilt) { files with present := true } with ⟨x, t⟩
  rw [hhead] at hframe
  obtain rfl : t = _ := hframe
  have hwrite : (store.writeEvents rebuilt now first rest).Ensures FileOp.exec files fun x after =>
      ∀ e, x = .error e → after.events = files.events := by
    refine Ensures.after (a := ()) (t := { files with present := true }) rfl ?_
    cases x with
    | error e =>
      rw [Ensures, run_bind_of_error hhead]
      exact fun _ _ => rfl
    | ok cached =>
      refine Ensures.after hhead ?_
      dsimp only
      obtain ⟨y, hchecks, -⟩ := run_checkEvents store _ (first :: rest)
        (cached.elim 0 fun head => head.seq + 1)
      cases y with
      | error e =>
        rw [Ensures, run_bind_of_error hchecks]
        exact fun _ _ => rfl
      | ok u =>
        rw [Ensures, run_bind_of_ok hchecks, run_bind_of_ok (run_writeFiles _ _)]
        exact fun e he => by simp at he
  refine Ensures.bind hwrite (fun head t _ => .inr ⟨head, rfl⟩) fun e t he => .inl ⟨e, rfl, he e rfl⟩

/-! ## Which files the programs touch -/

/-- The operations on the directory, the event files and the head cache. -/
def FileOp.OnEvents : FileOp C → Prop
  | .readMeta => False
  | .writeMeta _ => False
  | .listForks => False
  | .readFork _ _ => False
  | .writeFork _ _ _ => False
  | _ => True

theorem FileOp.OnHead.onEvents {op : FileOp C} (h : op.OnHead) : op.OnEvents := by
  cases op <;> trivial

namespace LedgerStore

variable (store : LedgerStore C)

theorem head_onEvents (now : Nat) : (store.head now).Performs FileOp.OnEvents :=
  (store.head_onHead now).mono fun _ => FileOp.OnHead.onEvents

/-- The checks read event files, one after another. -/
theorem checkEvents_performs {P : FileOp C → Prop} (hP : ∀ seq, P (.readEvent seq))
    (events : List NewEvent) : ∀ want, (store.checkEvents want events).Performs P := by
  induction events with
  | nil => exact fun _ => .pure _
  | cons event events ih =>
    exact fun want => .bind (.bind (.lift _) fun _ => .bind (.lift _) fun _ =>
      .bind (.lift _) fun _ => .bind (.ask (hP _)) fun _ => .lift _) fun _ => ih (want + 1)

/-- Writing events is on events. -/
theorem writeFiles_onEvents (events : List NewEvent) :
    (writeFiles events : OnFiles C Unit).Performs FileOp.OnEvents := by
  induction events with
  | nil => exact .pure _
  | cons event events ih => exact .bind (.ask trivial) fun _ => ih

/-- Appending is on events. -/
theorem append_onEvents (rebuilt now : Nat) (events : List NewEvent) :
    (store.append rebuilt now events).Performs FileOp.OnEvents := by
  cases events with
  | nil => exact store.head_onEvents rebuilt
  | cons first rest =>
    refine .bind (.bind (.ask trivial) fun _ => .bind (store.head_onEvents rebuilt) fun head =>
      .bind (store.checkEvents_performs (fun _ => trivial) _ _) fun _ => .bind (writeFiles_onEvents _) fun _ =>
        .pure _) fun _ => .bind (.ask trivial) fun _ => .pure _

theorem readEvent_onHead (seq : Nat) : (store.readEvent seq).Performs FileOp.OnHead :=
  .bind (.ask trivial) fun _ => .lift _

/-- Reading a count of events performs event reads only. -/
theorem readCount_performs {P : FileOp C → Prop} (hP : ∀ seq, P (.readEvent seq)) (count : Nat) :
    ∀ seq, (store.readCount seq count).Performs P := by
  induction count with
  | zero => exact fun _ => .pure _
  | succ count ih =>
    exact fun seq => .bind (.bind (.ask (hP seq)) fun _ => .lift _) fun _ =>
      .bind (ih (seq + 1)) fun _ => .pure _

/-- Reading from an event on is on heads and events. -/
theorem readFrom_onHead (rebuilt since : Nat) (limit : Option Nat) :
    (store.readFrom rebuilt since limit).Performs FileOp.OnHead := by
  refine .bind (store.head_onHead rebuilt) fun head => ?_
  cases head with
  | none => exact .pure _
  | some head => exact store.readCount_performs (fun _ => trivial) _ _

end LedgerStore

end Mabel.Node
