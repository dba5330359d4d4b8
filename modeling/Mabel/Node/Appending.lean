import Mabel.Node.Directory
import Mabel.Node.Quiet
import Mabel.Node.Writers

/-!
# One writer at work

What a writer reads outside the append of the store matters only as long as it lasts: an
event file that was read stays what it was. Inside the append the event files and the head
are the writer's own.
-/

namespace Mabel.Node

open Wire Proto Net Program

variable {C : Crypto} {l : LedgerId} {ε α β : Type}

/-! ## Operations that spare the events -/

/-- The operations that leave the event files and the head cache as they are. -/
def FileOp.Spares : FileOp C → Prop
  | .writeHead _ => False
  | .removeHead => False
  | .writeEvent _ _ => False
  | .removeEvent _ => False
  | _ => True

/-- The operations that leave the events of a ledger as they are. -/
def StoreOp.Spares (l : LedgerId) : StoreOp C → Prop
  | .file ledger op => ledger = l → op.Spares
  | _ => True

/-- The operations that spare the events of a ledger, and the locks and the index too. -/
def StoreOp.Plain (l : LedgerId) : StoreOp C → Prop
  | .file ledger op => ledger = l → op.Spares
  | .listLedgers => True
  | .canSignFor _ => True
  | .readIndex => True
  | .readAdvertised => True
  | .advertise _ => True
  | _ => False

/-- A plain step spares the ledger's events. -/
theorem StoreOp.Plain.spares {op : StoreOp C} (h : op.Plain l) : op.Spares l := by
  cases op with
  | file ledger op => exact h
  | _ => trivial

/-- A plain step takes no lock. -/
theorem StoreOp.Plain.acquires {op : StoreOp C} (h : op.Plain l) : op.acquires = none := by
  cases op with
  | lockIndex | lockAppend => exact h.elim
  | _ => rfl

/-- A plain step gives no lock back. -/
theorem StoreOp.Plain.releases {op : StoreOp C} (h : op.Plain l) : op.releases = none := by
  cases op with
  | unlockIndex | unlockAppend => exact h.elim
  | _ => rfl

/-- A plain step leaves the index. -/
theorem StoreOp.Plain.index {op : StoreOp C} (h : op.Plain l) (s : LedgerStorage C) :
    (op.exec s).2.index = s.index := by
  cases op with
  | writeIndex => exact h.elim
  | _ => rfl

/-- A sparing step leaves events and head as they are. -/
theorem FileOp.Spares.same {op : FileOp C} (h : op.Spares) (files : LedgerFiles C) :
    (op.exec files).2.events = files.events ∧ (op.exec files).2.headFile = files.headFile := by
  cases op with
  | writeHead | removeHead | writeEvent | removeEvent => exact h.elim
  | _ => exact ⟨rfl, rfl⟩

/-- An operation on the files of another ledger leaves a ledger's files alone. -/
theorem filesOf_exec_ne {ledger : LedgerId} (h : l ≠ ledger) (op : FileOp C)
    (s : LedgerStorage C) : ((StoreOp.file ledger op).exec s).2.filesOf l = s.filesOf l := by
  change (s.withFiles ledger _).filesOf l = _
  rw [LedgerStorage.filesOf_withFiles, if_neg h]

/-- A step on a ledger's files is taken on these files. -/
theorem filesOf_exec (op : FileOp C) (s : LedgerStorage C) :
    ((StoreOp.file l op).exec s).2.filesOf l = (op.exec (s.filesOf l)).2 := by
  change (s.withFiles l _).filesOf l = _
  rw [LedgerStorage.filesOf_withFiles, if_pos rfl]

/-- A sparing step leaves the ledger's events and head as they are. -/
theorem StoreOp.Spares.same {op : StoreOp C} (h : op.Spares l) (s : LedgerStorage C) :
    SameEvents l s (op.exec s).2 := by
  cases op with
  | file ledger op =>
    by_cases hl : l = ledger
    · subst hl
      rw [SameEvents, filesOf_exec]
      exact (h rfl).same _
    · rw [SameEvents, filesOf_exec_ne hl]
      exact ⟨rfl, rfl⟩
  | _ => exact ⟨rfl, rfl⟩

/-- Work goes on through operations that spare the events. -/
theorem StoreOp.Spares.working {op : StoreOp C} (h : op.Spares l) (reply : op.Reply) :
    writing l true op reply = true := by
  cases op with
  | file ledger op =>
    cases op with
    | writeHead head =>
      by_cases hl : ledger = l
      · exact (h hl).elim
      · simp [writing, hl]
    | _ => simp [writing]
  | _ => rfl

/-! ## Clean states -/

/-- What a thread knows of the index. -/
inductive Seen (C : Crypto) where
  | free
  /-- It holds the index lock. -/
  | locked
  /-- It holds the index lock and has seen the index. -/
  | index (seen : Index C)

def Seen.Is (m : Mode Bool) (s : LedgerStorage C) : Seen C → Prop
  | .free => True
  | .locked => m.Indexed
  | .index seen => m.Indexed ∧ s.index = seen

/-- What is known of the index stays known while the lock is held and the index is not
written. -/
theorem Seen.Is.carry {seen : Seen C} {m m' : Mode Bool} {s t : LedgerStorage C}
    (h : seen.Is m s) (hlocks : m'.locks = m.locks) (hindex : m.Indexed → t.index = s.index) :
    seen.Is m' t := by
  have hindexed : m.Indexed → m'.Indexed := fun hm => by rw [Mode.Indexed, hlocks]; exact hm
  cases seen with
  | free => trivial
  | locked => exact hindexed h
  | index seen => exact ⟨hindexed h.1, (hindex h.1).trans h.2⟩

/-- Something stays true as long as events are retained. -/
def Lasting (l : LedgerId) (K : LedgerStorage C → Prop) : Prop := ∀ s t, Retains l s t → K s → K t

/-- A thread that has written nothing since it began, if it has begun. -/
structure Clean (l : LedgerId) (K : LedgerStorage C → Prop) (seen : Seen C) (m : Mode Bool)
    (s : LedgerStorage C) : Prop where
  known : K s
  seen : seen.Is m s
  settled : m.work = true → HeadNamesLast (s.filesOf l)

/-- A clean ledger stays clean under the steps of other writers. -/
theorem Clean.stable {K : LedgerStorage C → Prop} (hK : Lasting l K) (seen : Seen C)
    (m : Mode Bool) : (writerDiscipline l).Stable m (Clean l K seen m) := by
  intro s t hrely h
  exact ⟨hK s t hrely.retains h.known, h.seen.carry rfl hrely.index, fun hwork =>
    (hrely.same hwork).headNamesLast (h.settled hwork)⟩

theorem Clean.mono {K K' : LedgerStorage C → Prop} {seen : Seen C} {m : Mode Bool}
    {s : LedgerStorage C} (h : Clean l K seen m s) (himp : K s → K' s) : Clean l K' seen m s :=
  ⟨himp h.known, h.seen, h.settled⟩

/-- An operation that spares the events keeps a clean state clean. -/
theorem Clean.spares {K : LedgerStorage C → Prop} (hK : Lasting l K) {seen : Seen C}
    {m : Mode Bool} {s : LedgerStorage C} (h : Clean l K seen m s) (op : StoreOp C)
    (seen' : Seen C) (hop : op.Spares l) (hindex : ¬ m.Indexed → (op.exec s).2.index = s.index)
    (hseen : seen'.Is ⟨locksAfter m.locks op, writing l m.work op (op.exec s).1⟩ (op.exec s).2)
    (hfinds : (writerDiscipline l).finds m op s) :
    (writerDiscipline l).guarantee m ((writerSharing l).turn m op (op.exec s).1) s (op.exec s).2 ∧
      Clean l K seen' ((writerSharing l).turn m op (op.exec s).1) (op.exec s).2 := by
  have hsame := hop.same s
  refine ⟨⟨hsame.retains, fun _ => hsame, hindex, fun hwork hrest => ?_⟩,
    ⟨hK _ _ hsame.retains h.known, hseen, fun hwork => hsame.headNamesLast ?_⟩⟩
  · change writing l m.work op _ = false at hrest
    rw [hwork, hop.working] at hrest
    simp at hrest
  · change writing l m.work op _ = true at hwork
    cases hm : m.work with
    | true => exact h.settled hm
    | false =>
      rw [hm] at hwork
      exact hfinds hm (begins_of_writing hwork)

/-- An operation on the files that spares the events keeps a clean state clean. -/
theorem Clean.file {K : LedgerStorage C → Prop} (hK : Lasting l K) {seen : Seen C}
    {m : Mode Bool} {s : LedgerStorage C} (h : Clean l K seen m s) (op : FileOp C)
    (hop : op.Spares) (hfinds : (writerDiscipline l).finds m (.file l op) s) :
    (writerDiscipline l).guarantee m
        ((writerSharing l).turn m (.file l op) ((StoreOp.file l op).exec s).1) s
        ((StoreOp.file l op).exec s).2 ∧
      Clean l K seen ((writerSharing l).turn m (.file l op) ((StoreOp.file l op).exec s).1)
        ((StoreOp.file l op).exec s).2 := by
  exact h.spares hK (.file l op) seen (fun _ => hop) (fun _ => rfl)
    (h.seen.carry rfl fun _ => rfl) hfinds

/-- A program of plain operations keeps clean states clean. -/
theorem clean_of_plain {K : LedgerStorage C → Prop} (hK : Lasting l K) (seen : Seen C)
    {p : OnNode C ε α} (h : p.Performs (StoreOp.Plain l)) :
    (writerDiscipline l).Triple (Clean l K seen) p fun _ => Clean l K seen := by
  intro m
  induction p generalizing m with
  | done result => exact fun s hs => hs
  | perform op next ih =>
    intro s hs hfinds
    have hseen : seen.Is ⟨locksAfter m.locks op, writing l m.work op (op.exec s).1⟩
        (op.exec s).2 :=
      hs.seen.carry (locksAfter_of_none h.1.acquires h.1.releases) fun _ => h.1.index s
    obtain ⟨hguarantee, hclean⟩ := hs.spares hK op seen h.1.spares (fun _ => h.1.index s) hseen hfinds
    exact ⟨hguarantee, _, Clean.stable hK seen _, hclean, ih _ (h.2 _) _⟩

/-! ## The index -/

section Index

variable {K : LedgerStorage C → Prop} (hK : Lasting l K) {Q : Outcome ε β → Mode Bool →
  LedgerStorage C → Prop}

include hK

/-- Taking the index lock keeps a ledger clean. -/
theorem lockIndex_bind {f : Unit → OnNode C ε β} {seen : Seen C}
    (hf : (writerDiscipline l).Triple (Clean l K .locked) (f ()) Q) :
    (writerDiscipline l).Triple (Clean l K seen) (Shared.lockIndex >>= f) Q := by
  refine .ask_bind _ (fun _ m => Clean.stable hK .locked m) (fun m s hs hfinds => ?_) fun _ => hf
  exact hs.spares hK _ .locked trivial (fun _ => rfl) List.mem_cons_self hfinds

/-- Taking an append lock keeps a ledger clean. -/
theorem lockAppend_bind {f : Unit → OnNode C ε β}
    (hf : (writerDiscipline l).Triple (Clean l K .free) (f ()) Q) {ledger : LedgerId} :
    (writerDiscipline l).Triple (Clean l K .free) (Shared.lockAppend ledger >>= f) Q := by
  refine .ask_bind _ (fun _ m => Clean.stable hK .free m) (fun m s hs hfinds => ?_) fun _ => hf
  exact hs.spares hK _ .free trivial (fun _ => rfl) trivial hfinds

/-- Giving a lock back ends what was known of the index. -/
theorem unlock (op : StoreOp C) (hop : op.Spares l)
    (hindex : ∀ s : LedgerStorage C, (op.exec s).2.index = s.index) {seen : Seen C} :
    (writerDiscipline l).Triple (Clean l K seen) (Program.ask op : OnNode C ε op.Reply)
      fun _ => Clean l K .free := by
  refine .ask _ (fun _ m => Clean.stable hK .free m) fun m s hs hfinds => ?_
  exact hs.spares hK _ .free hop (fun _ => hindex s) trivial hfinds

/-- The index read under its lock stays the index. -/
theorem readIndex_bind {f : Index C → OnNode C ε β}
    (hf : ∀ index, (writerDiscipline l).Triple (Clean l K (.index index)) (f index) Q) :
    (writerDiscipline l).Triple (Clean l K .locked) (Shared.readIndex >>= f) Q := by
  refine .ask_bind _ (fun index m => Clean.stable hK (.index index) m) (fun m s hs hfinds => ?_) hf
  exact hs.spares hK _ (.index _) trivial (fun _ => rfl) ⟨hs.seen, rfl⟩ hfinds

/-- Under the lock, the index is read as it was seen. -/
theorem readIndex_again {f : Index C → OnNode C ε β} {index : Index C}
    (hf : (writerDiscipline l).Triple (Clean l K (.index index)) (f index) Q) :
    (writerDiscipline l).Triple (Clean l K (.index index)) (Shared.readIndex >>= f) Q := by
  refine .ask_bind StoreOp.readIndex
    (R := fun reply m s => reply = index ∧ Clean l K (.index index) m s) ?_ ?_ ?_
  · exact fun reply m s t hrely h => ⟨h.1, Clean.stable hK (.index index) m s t hrely h.2⟩
  · intro m s hs hfinds
    obtain ⟨hguarantee, hclean⟩ := hs.spares hK .readIndex (.index index) trivial
      (fun _ => rfl) hs.seen hfinds
    exact ⟨hguarantee, hs.seen.2, hclean⟩
  · intro reply
    refine .assume (φ := reply = index) (fun m s h => h.1) fun heq => ?_
    rw [heq]
    exact hf.mono (fun m s h => h.2) fun _ _ _ => id

/-- Writing the index under its lock keeps a ledger clean. -/
theorem writeIndex_bind {index : Index C} {f : Unit → OnNode C ε β} {seen : Index C}
    (hf : (writerDiscipline l).Triple (Clean l K .locked) (f ()) Q) :
    (writerDiscipline l).Triple (Clean l K (.index seen)) (Shared.writeIndex index >>= f) Q := by
  refine .ask_bind _ (fun _ m => Clean.stable hK .locked m) (fun m s hs hfinds => ?_) fun _ => hf
  exact hs.spares hK _ .locked trivial (fun hm => (hm hs.seen.1).elim) hs.seen.1 hfinds

end Index

/-! ## Reading the files -/

/-- A program over the files of a ledger that keeps clean states clean. -/
def Tidy (l : LedgerId) (p : Program (FileOp C) FileOp.Reply ε α) : Prop :=
  ∀ K, Lasting l K → ∀ seen : Seen C,
    (writerDiscipline l).Triple (Clean l K seen) (onLedger l p) fun _ => Clean l K seen

theorem Tidy.of_spares {p : Program (FileOp C) FileOp.Reply ε α} (h : p.Performs FileOp.Spares) :
    Tidy l p := fun _ hK seen => clean_of_plain hK seen (performs_onLedger h fun _ hop _ => hop)

/-- Tidy code may follow tidy code. -/
theorem Tidy.bind {p : Program (FileOp C) FileOp.Reply ε α}
    {f : α → Program (FileOp C) FileOp.Reply ε β} (hp : Tidy l p) (hf : ∀ a, Tidy l (f a)) :
    Tidy l (p >>= f) := by
  intro K hK seen
  rw [onLedger_bind]
  exact .bind (hp K hK seen) (fun a => hf a K hK seen) fun _ _ _ => id

/-- Carrying rejections into another type keeps code tidy. -/
theorem Tidy.mapReject {ε' : Type} {p : Program (FileOp C) FileOp.Reply ε α} (hp : Tidy l p)
    (g : ε → ε') : Tidy l (p.mapReject g) := by
  intro K hK seen
  rw [onLedger_mapReject]
  exact .mapReject (hp K hK seen)

/-- Where the head is in place a missing cache means that there is no event. -/
theorem HeadNamesLast.keys {files : LedgerFiles C} (h : HeadNamesLast files)
    (hhead : files.headFile = none) : files.events.keys = [] := by
  obtain ⟨log, hholds, hlog⟩ := h
  rw [hhead] at hlog
  rw [hholds.keys, hlog]
  rfl

/-- Looking for the head writes nothing: it is missing only where there is nothing to find. -/
theorem tidy_head (store : LedgerStore C) (now : Nat) : Tidy l (store.head now) := by
  intro K hK seen
  rw [LedgerStore.head, onLedger_bind]
  refine .ask_bind (StoreOp.file l .readHead) (R := fun reply m s => Clean l K seen m s ∧
    (reply = none → m.work = true ∧ (s.filesOf l).headFile = none)) ?_ ?_ ?_
  · intro reply m s t hrely h
    refine ⟨Clean.stable hK seen m s t hrely h.1, fun hnone => ?_⟩
    obtain ⟨hwork, hhead⟩ := h.2 hnone
    exact ⟨hwork, (hrely.same hwork).2.trans hhead⟩
  · intro m s hs hfinds
    obtain ⟨hguarantee, hclean⟩ := hs.file hK .readHead trivial hfinds
    refine ⟨hguarantee, hclean, fun hnone => ⟨?_, ?_⟩⟩
    · change writing l m.work (.file l .readHead) _ = true
      rw [hnone]
      simp [writing]
    · change (((StoreOp.file l .readHead).exec s).2.filesOf l).headFile = none
      rw [filesOf_exec]
      exact hnone
  · intro reply
    cases reply with
    | some head => exact .pure fun m s h => h.1
    | none =>
      change (writerDiscipline l).Triple _ (onLedger l (store.rebuildHead now)) _
      rw [LedgerStore.rebuildHead, onLedger_bind]
      refine .ask_bind (StoreOp.file l .listEvents) (R := fun reply m s =>
        Clean l K seen m s ∧ reply = []) ?_ ?_ ?_
      · exact fun reply m s t hrely h => ⟨Clean.stable hK seen m s t hrely h.1, h.2⟩
      · intro m s hs hfinds
        obtain ⟨hwork, hhead⟩ := hs.2 rfl
        obtain ⟨hguarantee, hclean⟩ := hs.1.file hK .listEvents trivial hfinds
        exact ⟨hguarantee, hclean, (hs.1.settled hwork).keys hhead⟩
      · intro seqs
        refine .assume (φ := seqs = []) (fun m s h => h.2) fun hnil => ?_
        rw [hnil]
        exact .pure fun m s h => h.1

/-- Reading events is tidy. -/
theorem tidy_readFrom (store : LedgerStore C) (rebuilt since : Nat) (limit : Option Nat) :
    Tidy l (store.readFrom rebuilt since limit) := by
  refine .bind (tidy_head store rebuilt) fun head => ?_
  cases head with
  | none => exact .of_spares (.pure _)
  | some head => exact .of_spares (store.readCount_performs (fun _ => trivial) _ _)

/-- Reading forks spares the events. -/
theorem readForks_spares (store : LedgerStore C) (listed : List (Nat × EventId)) :
    (readForks store listed).Performs FileOp.Spares := by
  induction listed with
  | nil => exact .pure _
  | cons name listed ih =>
    exact .bind (.ask trivial) fun _ => .bind (.lift _) fun _ => .bind ih fun _ => .pure _

/-- Loading an entry is tidy. -/
theorem tidy_loadEntry (store : LedgerStore C) (clock : LoadClock) :
    Tidy l (loadEntry store clock) := by
  refine .bind (tidy_readFrom store clock.rebuilt 0 none) fun stored => .of_spares ?_
  refine .ite (.pure _) (.bind (.lift _) fun served => .ite (.pure _) ?_)
  exact .bind (.ask trivial) fun _ => .bind (.ask trivial) fun _ => .bind (.ask trivial) fun _ =>
    .bind (readForks_spares _ _) fun _ => .pure _

/-- An event that was read is stored from then on. -/
theorem clean_readEvent {K : LedgerStorage C → Prop} (hK : Lasting l K) (seen : Seen C)
    (store : LedgerStore C) (seq : Nat) :
    (writerDiscipline l).Triple (Clean l K seen) (onLedger l (store.readEvent seq)) fun r =>
      Clean l (fun s => K s ∧ ∀ bytes, r = .ok bytes → StoredAt s l seq bytes) seen := by
  rw [LedgerStore.readEvent, onLedger_bind]
  refine .ask_bind (StoreOp.file l (.readEvent seq)) (R := fun reply =>
    Clean l (fun s => K s ∧ ∀ bytes, reply = some bytes → StoredAt s l seq bytes) seen) ?_ ?_ ?_
  · refine fun reply m => Clean.stable (fun s t h hs => ⟨hK s t h hs.1, ?_⟩) seen m
    exact fun bytes hbytes => h _ _ (hs.2 bytes hbytes)
  · intro m s hs hfinds
    obtain ⟨hguarantee, hclean⟩ := hs.file hK (.readEvent seq) trivial hfinds
    refine ⟨hguarantee, hclean.mono fun hknown => ⟨hknown, fun bytes hbytes => ?_⟩⟩
    rw [StoredAt, filesOf_exec]
    exact hbytes
  · intro reply
    refine .lift fun m s hs => hs.mono fun hknown => ⟨hknown.1, fun bytes hbytes => ?_⟩
    exact hknown.2 bytes (Outcome.orReject_eq_ok.mp hbytes)

/-! ## Appending -/

/-- A thread at work, by the event files and the head cache it has to itself. -/
structure Working (l : LedgerId) (files : LedgerFiles C) (K : LedgerStorage C → Prop)
    (seen : Seen C) (m : Mode Bool) (s : LedgerStorage C) : Prop where
  known : K s
  seen : seen.Is m s
  work : m.work = true
  events : (s.filesOf l).events = files.events
  headFile : (s.filesOf l).headFile = files.headFile

section Working

variable {K : LedgerStorage C → Prop} {seen : Seen C} {files : LedgerFiles C}

/-- A ledger that is worked on stays as it is under the steps of other writers. -/
theorem Working.stable (hK : Lasting l K) (m : Mode Bool) :
    (writerDiscipline l).Stable m (Working l files K seen m) := by
  intro s t hrely h
  have hsame := hrely.same h.work
  exact ⟨hK s t hrely.retains h.known, h.seen.carry rfl hrely.index, h.work,
    hsame.1.trans h.events, hsame.2.trans h.headFile⟩

/-- The head names the last event of files with the same events and head. -/
theorem HeadNamesLast.congr {files files' : LedgerFiles C} (h : HeadNamesLast files)
    (hevents : files'.events = files.events) (hhead : files'.headFile = files.headFile) :
    HeadNamesLast files' := by
  obtain ⟨log, hholds, hlog⟩ := h
  refine ⟨log, hholds.of_events hevents, ?_⟩
  rw [hhead]
  exact hlog

theorem Working.clean {m : Mode Bool} {s : LedgerStorage C} (h : Working l files K seen m s)
    (hfiles : HeadNamesLast files) : Clean l K seen m s :=
  ⟨h.known, h.seen, fun _ => hfiles.congr h.events h.headFile⟩

/-- The operations whose reply the event files and the head cache determine. -/
def FileOp.Consults : FileOp C → Prop
  | .readHead => True
  | .listEvents => True
  | .readEvent _ => True
  | _ => False

theorem FileOp.Consults.spares {op : FileOp C} (h : op.Consults) : op.Spares := by
  cases op <;> trivial

/-- A consulting step replies by events and head alone. -/
theorem FileOp.Consults.reply {op : FileOp C} (h : op.Consults) {files' : LedgerFiles C}
    (hevents : files'.events = files.events) (hhead : files'.headFile = files.headFile) :
    (op.exec files').1 = (op.exec files).1 := by
  cases op with
  | readHead => exact hhead
  | listEvents => exact congrArg SortedMap.keys hevents
  | readEvent seq => exact congrArg (fun events => SortedMap.get? events seq) hevents
  | _ => exact h.elim

/-- A consulting step changes nothing. -/
theorem FileOp.Consults.unchanged {op : FileOp C} (h : op.Consults) (files : LedgerFiles C) :
    (op.exec files).2 = files := by
  cases op with
  | readHead | listEvents | readEvent => rfl
  | _ => exact h.elim

/-- At work, an operation that spares the events changes nothing about them. -/
theorem Working.file (hK : Lasting l K) {m : Mode Bool} {s : LedgerStorage C}
    (h : Working l files K seen m s) (op : FileOp C) (hop : op.Spares) :
    (writerDiscipline l).guarantee m
        ((writerSharing l).turn m (.file l op) ((StoreOp.file l op).exec s).1) s
        ((StoreOp.file l op).exec s).2 ∧
      Working l files K seen ((writerSharing l).turn m (.file l op) ((StoreOp.file l op).exec s).1)
        ((StoreOp.file l op).exec s).2 := by
  have hspares : (StoreOp.file l op).Spares l := fun _ => hop
  have hsame := hspares.same s
  have hwork : writing l m.work (.file l op) ((StoreOp.file l op).exec s).1 = true := by
    rw [h.work]
    exact hspares.working _
  refine ⟨⟨hsame.retains, fun _ => hsame, fun _ => rfl, fun _ hrest => ?_⟩,
    ⟨hK _ _ hsame.retains h.known, h.seen.carry rfl fun _ => rfl, hwork,
      hsame.1.trans h.events, hsame.2.trans h.headFile⟩⟩
  exact absurd (hwork.symm.trans hrest) (by simp)

/-- At work, what is read is what it would be alone. -/
theorem Working.consult_bind (hK : Lasting l K) (op : FileOp C) (hop : op.Consults)
    {f : op.Reply → OnFiles C α} {Q : Outcome StorageError α → Mode Bool → LedgerStorage C → Prop}
    (hf : (writerDiscipline l).Triple (Working l files K seen)
      (onLedger l (f (op.exec files).1)) Q) :
    (writerDiscipline l).Triple (Working l files K seen)
      (onLedger l (Program.ask op >>= f)) Q := by
  rw [onLedger_bind]
  refine .ask_bind (StoreOp.file l op) (R := fun reply m s =>
    Working l files K seen m s ∧ reply = (op.exec files).1) ?_ ?_ ?_
  · exact fun reply m s t hrely h => ⟨Working.stable hK m s t hrely h.1, h.2⟩
  · intro m s hs _
    obtain ⟨hguarantee, hworking⟩ := hs.file hK op hop.spares
    exact ⟨hguarantee, hworking, hop.reply hs.events hs.headFile⟩
  · intro reply
    refine .assume (φ := reply = (op.exec files).1) (fun m s h => h.2) fun heq => ?_
    rw [heq]
    exact hf.mono (fun m s h => h.1) fun _ _ _ => id

/-- Code that only consults runs on the files as they stood. -/
theorem Working.consults (hK : Lasting l K) {p : OnFiles C α} (hp : p.Performs FileOp.Consults) :
    (writerDiscipline l).Triple (Working l files K seen) (onLedger l p) fun r m s =>
      Working l files K seen m s ∧ r = (run FileOp.exec p files).1 := by
  induction p with
  | done result => exact fun m s hs => ⟨hs, rfl⟩
  | perform op next ih =>
    refine Working.consult_bind hK op hp.1 (f := next) ?_
    have hnext := ih _ (hp.2 (op.exec files).1)
    rw [run, hp.1.unchanged]
    exact hnext

/-- At work where the head is in place, looking for it finds the cache. -/
theorem Working.head (hK : Lasting l K) (hfiles : HeadNamesLast files) (store : LedgerStore C)
    (now : Nat) : (writerDiscipline l).Triple (Working l files K seen)
      (onLedger l (store.head now)) fun r m s =>
        Working l files K seen m s ∧ r = .ok files.headFile := by
  unfold LedgerStore.head
  refine Working.consult_bind hK .readHead trivial ?_
  cases hhead : files.headFile with
  | some head =>
    simp only [FileOp.exec, hhead]
    exact .pure fun m s h => ⟨h, rfl⟩
  | none =>
    simp only [FileOp.exec, hhead]
    unfold LedgerStore.rebuildHead
    refine Working.consult_bind hK .listEvents trivial ?_
    simp only [FileOp.exec, hfiles.keys hhead]
    exact .pure fun m s h => ⟨h, rfl⟩

/-- At work, event files are written behind the log one after another. -/
theorem Working.writeFiles (hK : Lasting l K) (events : List NewEvent) :
    ∀ {files : LedgerFiles C} {log : List Bytes}, files.Holds log →
      (∀ (i : Nat) event, events[i]? = some event → event.seq = log.length + i) →
      (writerDiscipline l).Triple (Working l files K seen)
        (onLedger l (LedgerStore.writeFiles events)) fun r m s =>
          Working l (files.write events) K seen m s ∧ r = .ok () := by
  induction events with
  | nil => exact fun _ _ => .pure fun m s h => ⟨h, rfl⟩
  | cons event events ih =>
    intro files log hholds hseqs
    have hseq : event.seq = log.length := hseqs 0 event rfl
    have hnew : files.events.get? event.seq = none := by
      rw [hholds, hseq, List.getElem?_eq_none le_rfl]
    have hnext : ({ files with events := files.events.insert event.seq event.bytes } :
        LedgerFiles C).Holds (log ++ [event.bytes]) := by
      intro k
      dsimp only
      rw [SortedMap.get?_insert, hseq]
      by_cases hk : k = log.length
      · rw [if_pos hk, hk, List.getElem?_append_right le_rfl]
        simp
      · rw [if_neg hk, hholds k]
        by_cases hlt : k < log.length
        · rw [List.getElem?_append_left hlt]
        · rw [List.getElem?_eq_none (by omega), List.getElem?_eq_none (by simp; omega)]
    rw [LedgerStore.writeFiles, onLedger_bind]
    refine .ask_bind (StoreOp.file l (.writeEvent event.seq event.bytes)) (R := fun _ =>
      Working l { files with events := files.events.insert event.seq event.bytes } K seen)
      (fun _ m => Working.stable hK m) (fun m s hs _ => ?_) fun _ => ?_
    · have hretains : Retains l s ((StoreOp.file l (.writeEvent event.seq event.bytes)).exec s).2 := by
        intro seq bytes hstored
        rw [StoredAt, filesOf_exec]
        change ((s.filesOf l).events.insert event.seq event.bytes).get? seq = _
        rw [SortedMap.get?_insert, if_neg, hstored]
        rintro rfl
        rw [StoredAt, hs.events, hnew] at hstored
        simp at hstored
      have hwork := hs.work
      refine ⟨⟨hretains, fun hm => ?_, fun _ => rfl, fun _ hrest => ?_⟩,
        ⟨hK _ _ hretains hs.known, hs.seen.carry rfl fun _ => rfl, hwork, ?_, ?_⟩⟩
      · rw [hwork] at hm
        simp at hm
      · exact absurd (hwork.symm.trans hrest) (by simp)
      · change (((StoreOp.file l _).exec s).2.filesOf l).events = _
        rw [filesOf_exec]
        change (s.filesOf l).events.insert event.seq event.bytes = _
        rw [hs.events]
      · change (((StoreOp.file l _).exec s).2.filesOf l).headFile = _
        rw [filesOf_exec]
        exact hs.headFile
    · refine ih hnext fun i e hi => ?_
      rw [List.length_append, List.length_singleton]
      have := hseqs (i + 1) e (by simpa using hi)
      omega

/-- The files behind which a batch that was checked has been written. -/
theorem HeadNamesLast.write {log : List Bytes} (hholds : files.Holds log) {batch : List NewEvent}
    (hoffered : Offered files log.length batch) :
    (files.write batch).Holds (log ++ batchBytes batch) := by
  intro k
  rw [get?_write hoffered.seqs, hholds k]
  by_cases hk : k < log.length
  · rw [if_neg (by omega), List.getElem?_append_left hk]
  · rw [List.getElem?_append_right (not_lt.mp hk), batchBytes, List.getElem?_map]
    by_cases hin : k < log.length + batch.length
    · rw [if_pos ⟨not_lt.mp hk, hin⟩]
    · rw [if_neg (by omega), List.getElem?_eq_none (not_lt.mp hk),
        List.getElem?_eq_none (by omega)]
      rfl

/-- Moving the head to the last event written ends the work. -/
theorem Working.writeHead_bind (hK : Lasting l K) {head : Head}
    (hfiles : HeadNamesLast { files with headFile := some head }) {f : Unit → OnFiles C α}
    {Q : Outcome StorageError α → Mode Bool → LedgerStorage C → Prop} {K' : LedgerStorage C → Prop}
    (hK' : Lasting l K')
    (hknown : ∀ s, K s → (s.filesOf l).events = files.events → K' s)
    (hf : (writerDiscipline l).Triple (Clean l K' seen) (onLedger l (f ())) Q) :
    (writerDiscipline l).Triple (Working l files K seen)
      (onLedger l (File.writeHead head >>= f)) Q := by
  rw [onLedger_bind]
  refine .ask_bind (StoreOp.file l (.writeHead head)) (fun _ m => Clean.stable hK' seen m)
    (fun m s hs _ => ?_) fun _ => hf
  have hexec := filesOf_exec (l := l) (.writeHead head) s
  have hevents : ((((StoreOp.file l (.writeHead head)).exec s).2).filesOf l).events =
      (s.filesOf l).events := by
    rw [hexec]
    rfl
  have hretains : Retains l s ((StoreOp.file l (.writeHead head)).exec s).2 := by
    intro seq bytes hstored
    rw [StoredAt, hevents]
    exact hstored
  have hsettled : HeadNamesLast ((((StoreOp.file l (.writeHead head)).exec s).2).filesOf l) := by
    refine hfiles.congr (hevents.trans hs.events) ?_
    rw [hexec]
    rfl
  refine ⟨⟨hretains, fun hm => ?_, fun _ => rfl, fun _ _ => hsettled⟩,
    ⟨hknown _ (hK _ _ hretains hs.known) (hevents.trans hs.events),
      hs.seen.carry rfl fun _ => rfl, fun _ => hsettled⟩⟩
  rw [hs.work] at hm
  simp at hm

/-- The files a batch leaves, once the head has moved to its last event. -/
theorem HeadNamesLast.append {log : List Bytes} (hholds : files.Holds log) {first : NewEvent}
    {rest : List NewEvent} (hoffered : Offered files log.length (first :: rest)) (now : Nat) :
    HeadNamesLast { files.write (first :: rest) with
        headFile := some ⟨((first :: rest).getLast (by simp)).seq,
          ((first :: rest).getLast (by simp)).eventId, now⟩ } := by
  have hlast : (first :: rest)[rest.length]? = some ((first :: rest).getLast (by simp)) := by
    rw [List.getLast_eq_getElem]
    exact List.getElem?_eq_getElem _
  obtain ⟨hseq, ⟨signed, hdecode, hid⟩, -⟩ := (offered_iff hholds _ _).mp hoffered _ _ hlast
  refine ⟨log ++ batchBytes (first :: rest), HeadNamesLast.write hholds hoffered, ?_, _, signed,
    ?_, hdecode, hid⟩
  · rw [List.length_append, length_batchBytes, List.length_cons]
    dsimp only
    omega
  · rw [List.getLast?_append, batchBytes, List.getLast?_map,
      List.getLast?_eq_some_getLast (List.cons_ne_nil first rest)]
    rfl

/-- At work, a batch is checked and written behind the log, or refused. -/
theorem Working.write (hK : Lasting l K) {log : List Bytes} (hholds : files.Holds log)
    (store : LedgerStore C) (now : Nat) (first : NewEvent) (rest : List NewEvent) :
    (writerDiscipline l).Triple (Working l files K seen)
      (onLedger l (do
        store.checkEvents log.length (first :: rest)
        LedgerStore.writeFiles (first :: rest)
        pure ⟨((first :: rest).getLast (by simp)).seq,
          ((first :: rest).getLast (by simp)).eventId, now⟩)) fun r m s =>
        match r with
        | .error _ => Working l files K seen m s
        | .ok head => ∃ files' : LedgerFiles C,
          (HeadNamesLast { files' with headFile := some head } ∧
            ∀ event ∈ first :: rest, files'.events.get? event.seq = some event.bytes) ∧
          Working l files' K seen m s := by
  obtain ⟨x, hx, hiff⟩ := run_checkEvents store files (first :: rest) log.length
  rw [onLedger_bind]
  refine .bind (Working.consults hK (store.checkEvents_performs (fun _ => trivial) _ _))
    (fun _ => ?_) fun e m s h => h.1
  rw [hx]
  refine .assume (φ := Offered files log.length (first :: rest)) (fun m s h => hiff.mp h.2.symm)
    fun hoffered => ?_
  rw [onLedger_bind]
  refine .mono (.bind (Working.writeFiles hK _ hholds hoffered.seqs) (fun _ => ?_)
    fun e m s h => by simp at h) (fun m s h => h.1) fun _ _ _ => id
  refine .pure fun m s h => ⟨_, ⟨HeadNamesLast.append hholds hoffered now, ?_⟩, h.1⟩
  intro event hmem
  obtain ⟨i, hi⟩ := List.mem_iff_getElem?.mp hmem
  have hlt := (List.getElem?_eq_some_iff.mp hi).1
  rw [hoffered.seqs i event hi, get?_write hoffered.seqs, if_pos (by omega),
    Nat.add_sub_cancel_left, hi]
  rfl

/-- Where the head is in place it counts the log. -/
theorem HeadNamesLast.count (h : HeadNamesLast files) : ∃ log, files.Holds log ∧
    (files.headFile.elim 0 fun head => head.seq + 1) = log.length := by
  obtain ⟨log, hholds, hlog⟩ := h
  refine ⟨log, hholds, ?_⟩
  cases hhead : files.headFile with
  | none =>
    rw [hhead] at hlog
    rw [hlog]
    rfl
  | some head =>
    rw [hhead] at hlog
    exact hlog.1

/-- What an append does before it moves the head. -/
theorem clean_writeEvents (hK : Lasting l K) (store : LedgerStore C) (rebuilt now : Nat)
    (first : NewEvent) (rest : List NewEvent) :
    (writerDiscipline l).Triple (Clean l K seen)
      (onLedger l (store.writeEvents rebuilt now first rest)) fun r m s =>
        match r with
        | .error _ => Clean l K seen m s
        | .ok head => ∃ files' : LedgerFiles C,
          (HeadNamesLast { files' with headFile := some head } ∧
            ∀ event ∈ first :: rest, files'.events.get? event.seq = some event.bytes) ∧
          Working l files' K seen m s := by
  rw [LedgerStore.writeEvents, onLedger_bind]
  refine .ask_bind (StoreOp.file l .createDir) (R := fun _ m s => ∃ files : LedgerFiles C,
    HeadNamesLast files ∧ Working l files K seen m s) ?_ ?_ fun _ => ?_
  · rintro _ m s t hrely ⟨files, hfiles, h⟩
    exact ⟨files, hfiles, Working.stable hK m s t hrely h⟩
  · intro m s hs hfinds
    obtain ⟨hguarantee, hclean⟩ := hs.file hK .createDir trivial hfinds
    have hwork : writing l m.work (.file l (.createDir : FileOp C)) () = true := by
      simp [writing]
    exact ⟨hguarantee, _, hclean.settled hwork, hclean.known, hclean.seen, hwork, rfl, rfl⟩
  · refine .choose fun files => .assume (fun m s h => h.1) fun hfiles => ?_
    obtain ⟨log, hholds, hcount⟩ := hfiles.count
    rw [onLedger_bind]
    refine .mono (.bind (Working.head hK hfiles store rebuilt) (fun cached => ?_) ?_)
      (fun m s h => h.2) fun _ _ _ => id
    · refine .assume (fun m s h => Except.ok.inj h.2) fun hcached => ?_
      subst hcached
      dsimp only
      rw [hcount]
      refine (Working.write hK hholds store now first rest).mono (fun m s h => h.1)
        fun r m s h => ?_
      cases r with
      | ok head => exact h
      | error e => exact h.clean hfiles
    · intro e m s h
      simp at h

/-- The events of an append that succeeds are stored. -/
theorem clean_append (hK : Lasting l K) (store : LedgerStore C) (rebuilt now : Nat)
    (batch : List NewEvent) :
    (writerDiscipline l).Triple (Clean l K seen) (onLedger l (store.append rebuilt now batch))
      fun r => Clean l (fun s => K s ∧ ∀ head, r = .ok head → ∀ event ∈ batch,
        StoredAt s l event.seq event.bytes) seen := by
  cases batch with
  | nil => exact (tidy_head store rebuilt K hK seen).mono (fun _ _ => id) fun r m s h =>
      h.mono fun hknown => ⟨hknown, fun _ _ event hmem => by simp at hmem⟩
  | cons first rest =>
    have hstored : Lasting l fun s : LedgerStorage C => K s ∧ ∀ event ∈ first :: rest,
        StoredAt s l event.seq event.bytes := fun s t h hs =>
      ⟨hK s t h hs.1, fun event hmem => h _ _ (hs.2 event hmem)⟩
    rw [LedgerStore.append, onLedger_bind]
    refine .bind (clean_writeEvents hK store rebuilt now first rest) (fun head => ?_) ?_
    · refine .choose fun files' => .assume (fun m s h => h.1) fun hfiles => ?_
      refine .mono (Working.writeHead_bind hK hfiles.1 hstored ?_ ?_) (fun m s h => h.2)
        fun _ _ _ => id
      · intro s hs hevents
        refine ⟨hs, fun event hmem => ?_⟩
        rw [StoredAt, hevents]
        exact hfiles.2 event hmem
      · exact .pure fun m s h => h.mono fun hknown => ⟨hknown.1, fun _ _ => hknown.2⟩
    · intro e m s h
      exact h.mono fun hknown => ⟨hknown, fun head hhead => by simp at hhead⟩

end Working

end Mabel.Node
