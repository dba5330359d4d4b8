import Mabel.Ledger.Fork
import Mabel.Node.Storage
import Mathlib.Data.List.Sort
import Mathlib.Order.WithBot

/-!
# Pushes

Offering events for one ledger. A first push is folded from nothing and admitted before
anything lands; a later one is compared with what is stored and only what lies past it is
folded on. The event stored first at a sequence is never replaced: a different event there
is recorded as a fork when it would have been accepted, and refused otherwise.

The index lock is held from the first operation to the last. Every sum whose operands count
data the machine holds is a natural number; the one sum over a number off the wire is a
`u64` sum, which a checked build refuses to overflow and another build wraps.
-/

namespace Mabel.Node

open Wire Net

variable {C : Crypto}

/-! ## Operations -/

/-- One operation of a node on what it shares with its other threads. -/
inductive StoreOp (C : Crypto) where
  | lockIndex
  | unlockIndex
  /-- Wait for the right to write a ledger from the wallet. -/
  | lockAppend (ledger : LedgerId)
  | unlockAppend (ledger : LedgerId)
  | file (ledger : LedgerId) (op : FileOp C)
  | listLedgers
  | canSignFor (ledger : LedgerId)
  | readIndex
  | writeIndex (index : Index C)
  | readAdvertised
  /-- Update the advertisement under its own lock, replying what it was. -/
  | advertise (f : Advertised C → Advertised C)

/-- What an operation replies. -/
def StoreOp.Reply : StoreOp C → Type
  | .file _ op => op.Reply
  | .listLedgers => List LedgerId
  | .canSignFor _ => Bool
  | .readIndex => Index C
  | .readAdvertised => Advertised C
  | .advertise _ => Advertised C
  | _ => Unit

namespace LedgerStorage

/-- The files of one ledger. -/
def filesOf (s : LedgerStorage C) (ledger : LedgerId) : LedgerFiles C := s.home.files.get ledger

/-- Replace the files of one ledger. -/
def withFiles (s : LedgerStorage C) (ledger : LedgerId) (files : LedgerFiles C) :
    LedgerStorage C :=
  { s with home := { s.home with files := s.home.files.set ledger files } }

@[simp] theorem filesOf_withFiles (s : LedgerStorage C) (ledger l : LedgerId)
    (files : LedgerFiles C) :
    (s.withFiles ledger files).filesOf l = if l = ledger then files else s.filesOf l := by
  rw [filesOf, withFiles, Assignment.get_set]
  by_cases h : l = ledger
  · rw [if_pos h, if_pos h]
  · rw [if_neg h, if_neg h]
    rfl

@[simp] theorem withFiles_filesOf (s : LedgerStorage C) (ledger : LedgerId) :
    s.withFiles ledger (s.filesOf ledger) = s := by
  simp [withFiles, filesOf]

@[simp] theorem withFiles_withFiles (s : LedgerStorage C) (ledger : LedgerId)
    (files files' : LedgerFiles C) :
    (s.withFiles ledger files).withFiles ledger files' = s.withFiles ledger files' := by
  simp [withFiles]

end LedgerStorage

/-- What an operation does to the node's state. A thread that runs alone gets every lock. -/
def StoreOp.exec : (op : StoreOp C) → LedgerStorage C → op.Reply × LedgerStorage C
  | .lockIndex, s => ((), s)
  | .unlockIndex, s => ((), s)
  | .lockAppend _, s => ((), s)
  | .unlockAppend _, s => ((), s)
  | .file ledger op, s =>
    ((op.exec (s.filesOf ledger)).1, s.withFiles ledger (op.exec (s.filesOf ledger)).2)
  | .listLedgers, s => (s.home.ledgers, s)
  | .canSignFor ledger, s => (s.home.canSignFor ledger, s)
  | .readIndex, s => (s.index, s)
  | .writeIndex index, s => ((), { s with index := index })
  | .readAdvertised, s => (s.advertised, s)
  | .advertise f, s => (s.advertised, { s with advertised := f s.advertised })

/-- A program over a node's state. -/
abbrev OnNode (C : Crypto) (ε α : Type) := Program (StoreOp C) StoreOp.Reply ε α

namespace Shared

variable {ε β : Type}

def lockIndex : OnNode C ε Unit := .ask StoreOp.lockIndex
def lockAppend (ledger : LedgerId) : OnNode C ε Unit := .ask (StoreOp.lockAppend ledger)
def listLedgers : OnNode C ε (List LedgerId) := .ask StoreOp.listLedgers
def canSignFor (ledger : LedgerId) : OnNode C ε Bool := .ask (StoreOp.canSignFor ledger)
def readIndex : OnNode C ε (Index C) := .ask StoreOp.readIndex
def writeIndex (index : Index C) : OnNode C ε Unit := .ask (StoreOp.writeIndex index)
def readAdvertised : OnNode C ε (Advertised C) := .ask StoreOp.readAdvertised

def advertise (f : Advertised C → Advertised C) : OnNode C ε (Advertised C) :=
  .ask (StoreOp.advertise f)

variable (s : LedgerStorage C)

@[simp] theorem run_lockIndex_bind (f : Unit → OnNode C ε β) :
    Program.run StoreOp.exec (lockIndex >>= f) s = Program.run StoreOp.exec (f ()) s := rfl

@[simp] theorem run_listLedgers_bind (f : List LedgerId → OnNode C ε β) :
    Program.run StoreOp.exec (listLedgers >>= f) s =
      Program.run StoreOp.exec (f s.home.ledgers) s := rfl

@[simp] theorem run_canSignFor_bind (ledger : LedgerId) (f : Bool → OnNode C ε β) :
    Program.run StoreOp.exec (canSignFor ledger >>= f) s =
      Program.run StoreOp.exec (f (s.home.canSignFor ledger)) s := rfl

@[simp] theorem run_readIndex_bind (f : Index C → OnNode C ε β) :
    Program.run StoreOp.exec (readIndex >>= f) s = Program.run StoreOp.exec (f s.index) s := rfl

@[simp] theorem run_writeIndex_bind (index : Index C) (f : Unit → OnNode C ε β) :
    Program.run StoreOp.exec (writeIndex index >>= f) s =
      Program.run StoreOp.exec (f ()) { s with index := index } := rfl

@[simp] theorem run_readAdvertised_bind (f : Advertised C → OnNode C ε β) :
    Program.run StoreOp.exec (readAdvertised >>= f) s =
      Program.run StoreOp.exec (f s.advertised) s := rfl

@[simp] theorem run_advertise_bind (g : Advertised C → Advertised C)
    (f : Advertised C → OnNode C ε β) :
    Program.run StoreOp.exec (advertise g >>= f) s =
      Program.run StoreOp.exec (f s.advertised) { s with advertised := g s.advertised } := rfl

end Shared

/-- Run a program over the files of one ledger. -/
def onLedger {ε α : Type} (ledger : LedgerId) :
    Program (FileOp C) FileOp.Reply ε α → OnNode C ε α
  | .done result => .done result
  | .perform op next => .perform (.file ledger op) fun reply => onLedger ledger (next reply)

/-- Work on the files of one ledger inside a request. -/
def onFiles {α : Type} (ledger : LedgerId) (p : OnFiles C α) : OnNode C StoreError α :=
  (onLedger ledger p).mapReject unavailable

/-- A sequence on a ledger's files is run part by part. -/
theorem onLedger_bind {ε α β : Type} (ledger : LedgerId)
    (p : Program (FileOp C) FileOp.Reply ε α) (f : α → Program (FileOp C) FileOp.Reply ε β) :
    onLedger ledger (p >>= f) = onLedger ledger p >>= fun a => onLedger ledger (f a) := by
  induction p with
  | done result =>
    cases result with
    | ok a => rfl
    | error e => rfl
  | perform op next ih => exact congrArg (Program.perform _) (funext fun reply => ih reply)

/-- Carrying rejections into another type commutes with running on a ledger. -/
theorem onLedger_mapReject {ε ε' α : Type} (ledger : LedgerId)
    (p : Program (FileOp C) FileOp.Reply ε α) (f : ε → ε') :
    onLedger ledger (p.mapReject f) = (onLedger ledger p).mapReject f := by
  induction p with
  | done result => rfl
  | perform op next ih => exact congrArg (Program.perform _) (funext fun reply => ih reply)

/-- The operations of a program over one ledger's files. -/
theorem performs_onLedger {ε α : Type} {P : FileOp C → Prop} {Q : StoreOp C → Prop}
    {ledger : LedgerId} {p : Program (FileOp C) FileOp.Reply ε α} (h : p.Performs P)
    (hPQ : ∀ op, P op → Q (.file ledger op)) : (onLedger ledger p).Performs Q := by
  induction p with
  | done result => trivial
  | perform op next ih => exact ⟨hPQ op h.1, fun reply => ih reply (h.2 reply)⟩

/-- A program over one ledger's files changes those alone. -/
theorem run_onLedger {ε α : Type} (ledger : LedgerId) (p : Program (FileOp C) FileOp.Reply ε α) :
    ∀ s : LedgerStorage C, Program.run StoreOp.exec (onLedger ledger p) s =
      ((Program.run FileOp.exec p (s.filesOf ledger)).1,
        s.withFiles ledger (Program.run FileOp.exec p (s.filesOf ledger)).2) := by
  induction p with
  | done result =>
    intro s
    change (result, s) = (result, s.withFiles ledger (s.filesOf ledger))
    rw [LedgerStorage.withFiles_filesOf]
  | perform op next ih =>
    intro s
    change Program.run StoreOp.exec (onLedger ledger (next (op.exec (s.filesOf ledger)).1))
      (s.withFiles ledger (op.exec (s.filesOf ledger)).2) = _
    rw [ih, LedgerStorage.filesOf_withFiles, if_pos rfl, LedgerStorage.withFiles_withFiles]
    rfl

/-- Stopped anywhere, it has changed those files alone. -/
theorem throughout_onLedger {ε α : Type} {ledger : LedgerId} {I : LedgerStorage C → Prop}
    {p : Program (FileOp C) FileOp.Reply ε α} : ∀ {s : LedgerStorage C},
    (onLedger ledger p).Throughout StoreOp.exec s I ↔
      p.Throughout FileOp.exec (s.filesOf ledger) fun files => I (s.withFiles ledger files) := by
  suffices hcut : ∀ (n : Nat) (s : LedgerStorage C), Program.cut StoreOp.exec n (onLedger ledger p) s =
      s.withFiles ledger (Program.cut FileOp.exec n p (s.filesOf ledger)) by
    intro s
    exact forall_congr' fun n => by rw [hcut]
  induction p with
  | done result =>
    intro n s
    cases n with
    | zero => exact (s.withFiles_filesOf ledger).symm
    | succ n => exact (s.withFiles_filesOf ledger).symm
  | perform op next ih =>
    intro n s
    cases n with
    | zero => exact (s.withFiles_filesOf ledger).symm
    | succ n =>
      change Program.cut StoreOp.exec n (onLedger ledger (next (op.exec (s.filesOf ledger)).1))
        (s.withFiles ledger (op.exec (s.filesOf ledger)).2) = _
      rw [ih, LedgerStorage.filesOf_withFiles, if_pos rfl, LedgerStorage.withFiles_withFiles]
      rfl

/-- Code on a ledger answers as it does on the ledger's files. -/
theorem run_onLedger_eq_ok {ε α : Type} {ledger : LedgerId}
    {p : Program (FileOp C) FileOp.Reply ε α} {s t : LedgerStorage C} {a : α} :
    Program.run StoreOp.exec (onLedger ledger p) s = (.ok a, t) ↔
      ∃ files, Program.run FileOp.exec p (s.filesOf ledger) = (.ok a, files) ∧
        t = s.withFiles ledger files := by
  rw [run_onLedger]
  rcases Program.run FileOp.exec p (s.filesOf ledger) with ⟨r, files⟩
  simp only [Prod.mk.injEq]
  constructor
  · rintro ⟨rfl, rfl⟩
    exact ⟨files, ⟨rfl, rfl⟩, rfl⟩
  · rintro ⟨files', ⟨rfl, rfl⟩, rfl⟩
    exact ⟨rfl, rfl⟩

/-- Code on a ledger's files leaves what it leaves there. -/
theorem run_onFiles {α : Type} {ledger : LedgerId} {p : OnFiles C α} {s : LedgerStorage C}
    {x : Outcome StorageError α} {files : LedgerFiles C}
    (h : Program.run FileOp.exec p (s.filesOf ledger) = (x, files)) :
    Program.run StoreOp.exec (onFiles ledger p) s =
      (Outcome.mapReject unavailable x, s.withFiles ledger files) := by
  rw [onFiles, Program.run_mapReject, run_onLedger, h]

/-- Code that answers on a ledger's files answers on the node. -/
theorem run_onFiles_ok {α : Type} {ledger : LedgerId} {p : OnFiles C α} {s : LedgerStorage C}
    {a : α} {files : LedgerFiles C}
    (h : Program.run FileOp.exec p (s.filesOf ledger) = (.ok a, files)) :
    Program.run StoreOp.exec (onFiles ledger p) s = (.ok a, s.withFiles ledger files) :=
  run_onFiles h

/-- Work on files that only reads changes nothing. -/
theorem run_onFiles_reads {α : Type} {ledger : LedgerId} {p : OnFiles C α} {s : LedgerStorage C}
    {x : Outcome StorageError α}
    (h : Program.run FileOp.exec p (s.filesOf ledger) = (x, s.filesOf ledger)) :
    Program.run StoreOp.exec (onFiles ledger p) s = (Outcome.mapReject unavailable x, s) := by
  rw [run_onFiles h, LedgerStorage.withFiles_filesOf]

/-! ## The pushed run -/

/-- What the clock reads at each place of one call that reads it. -/
structure Clock where
  /-- Before the events of a ledger land. -/
  firstSeen : Nat
  /-- When `meta.json` is written. -/
  noted : Nat
  /-- When a missing `head.json` is rebuilt. -/
  rebuilt : Nat
  /-- When the head moves. -/
  written : Nat
  /-- When a fork is observed. -/
  observed : Nat
  deriving DecidableEq

/-- One push. -/
structure PushCall (C : Crypto) where
  ledger : LedgerId
  events : List Bytes
  provenance : Provenance C
  clock : Clock

/-- The sum of two `u64` values. -/
def addU64 {ε : Type} (checks : Bool) (a b : Nat) : Outcome ε Nat :=
  if a + b < 2 ^ 64 then .ok (a + b)
  else if checks then Outcome.panic "attempt to add with overflow"
  else .ok ((a + b) % 2 ^ 64)

/-- The `seq` an encoded event declares. -/
def seqOf (event : Bytes) : Outcome StoreError Nat :=
  Outcome.orReject (malformed 0 "an event in the push carries no readable seq")
    (signedEventSeq event)

/-- Check that a run is contiguous and ascending from an offset on. -/
def checkRun (checks : Bool) (first : Nat) : Nat → List Bytes → Outcome StoreError Unit
  | _, [] => .ok ()
  | offset, event :: events => do
    let want ← addU64 checks first offset
    let seq ← seqOf event
    Outcome.rejectIf (seq ≠ want)
      (malformed seq s!"the push carries seq {seq} where seq {want} belongs")
    checkRun checks first (offset + 1) events

/-- Apply events until one fails: the state reached, how many were applied and why the next
one was not. -/
def applyRun (s : LedgerState C) : List Bytes →
    Outcome StoreError (LedgerState C × Nat × Option (Reason C))
  | [] => .ok (s, 0, none)
  | event :: events =>
    match s.apply event with
    | .ok s' => do
      let (state, valid, violation) ← applyRun s' events
      .ok (state, valid + 1, violation)
    | .error (.reject reason) => .ok (s, 0, some reason)
    | .error (.panic site) => Outcome.panic site

/-! ## Storing -/

/-- Refuse a push the admission rule does not take. -/
def admitPush (setup : Setup) (ledger : LedgerId) (pre : Option (LedgerState C))
    (post : LedgerState C) : OnNode C StoreError Unit := do
  let canSign ← Shared.canSignFor ledger
  let advertised ← Shared.readAdvertised
  Program.lift (Outcome.rejectIf (admits canSign setup.policy advertised pre post = false)
    (refusal ledger post advertised.entries))

/-- Number the events of a run from a sequence on, each under its id. -/
def newEvents (C : Crypto) (start : Nat) : List Bytes → Outcome StoreError (List NewEvent)
  | [] => .ok []
  | event :: events => do
    let id ← Outcome.orReject (.invalid start "the event carries no readable body")
      (signedEventId C event)
    let batch ← newEvents C (start + 1) events
    .ok (⟨start, id, event⟩ :: batch)

/-- Record a written run in the index. -/
def Index.record (index : Index C) (ledger : LedgerId) (state : LedgerState C) (written : Head)
    (bytes : Nat) (noted : LedgerMeta C) : Index C :=
  let entry := (index.ledgers.get? ledger).getD
    { state := LedgerState.default
      headSeq := written.seq
      headEvent := written.eventId
      bytes := 0
      firstSeenMs := noted.firstSeenMs
      updatedMs := written.updatedMs
      sourceEndpoint := noted.sourceEndpoint
      forks := [] }
  { ledgers := index.ledgers.insert ledger { entry with
      state := state
      headSeq := written.seq
      headEvent := written.eventId
      bytes := entry.bytes + bytes
      updatedMs := written.updatedMs }
    storageUsed := index.storageUsed + bytes }

/-- Recheck the advertisement invariant against an index and record the verdicts. -/
def recheck {ε : Type} (policy : AdmissionPolicy) (index : Index C) : OnNode C ε Unit := do
  let _ ← Shared.advertise fun advertised =>
    { advertised with entries := verdicts policy index advertised.endpoint }
  pure ()

/-- Recheck after a change to one ledger, which matters if this home witnesses for it. -/
def recheckFor {ε : Type} (policy : AdmissionPolicy) (index : Index C) (ledger : LedgerId) :
    OnNode C ε Unit :=
  if policy.witnessFor.contains ledger then recheck policy index else pure ()

/-- What is advertised after a recheck for one ledger. -/
def recheckedFor (policy : AdmissionPolicy) (index : Index C) (ledger : LedgerId)
    (advertised : Advertised C) : Advertised C :=
  if policy.witnessFor.contains ledger then
    { advertised with entries := verdicts policy index advertised.endpoint }
  else advertised

/-- The recheck writes the verdicts of the index. -/
theorem run_recheckFor {ε : Type} (policy : AdmissionPolicy) (index : Index C) (ledger : LedgerId)
    (s : LedgerStorage C) :
    Program.run StoreOp.exec (recheckFor policy index ledger : OnNode C ε Unit) s =
      (.ok (), { s with advertised := recheckedFor policy index ledger s.advertised }) := by
  rw [recheckFor, recheckedFor]
  by_cases h : policy.witnessFor.contains ledger = true
  · rw [if_pos h, if_pos h]
    rfl
  · rw [if_neg h, if_neg h]
    rfl

/-- Where the ledger came from: noted once, when its first events land. -/
def noteSource (call : PushCall C) (held : Bool) : OnNode C StoreError (LedgerMeta C) :=
  if held then pure ⟨none, call.clock.firstSeen⟩
  else onFiles call.ledger
    (LedgerStore.noteFirstSeen call.provenance.endpoint call.clock.noted)

/-- Write a verified run of events and update the index. The state is the fold after it. -/
def storeRun (setup : Setup) (call : PushCall C) (state : LedgerState C) (events : List Bytes) :
    OnNode C StoreError PushOutcome := do
  let index ← Shared.readIndex
  let entry := index.ledgers.get? call.ledger
  if events = [] then pure ⟨entry.elim 0 Entry.headSeq, 0⟩
  else do
    let bytes := (events.map List.length).sum
    Program.lift (checkCaps setup.caps index call.ledger events.length bytes)
    let batch ← Program.lift (newEvents C (entry.elim 0 Entry.eventCount) events)
    let noted ← noteSource call entry.isSome
    let written ← onFiles call.ledger
      ((setup.ledger call.ledger).append call.clock.rebuilt call.clock.written batch)
    let written ← Program.lift (Outcome.expect "a non-empty append has a head" written)
    let index := index.record call.ledger state written bytes noted
    Shared.writeIndex index
    recheckFor setup.policy index call.ledger
    pure ⟨written.seq, events.length % 2 ^ 32⟩

/-- What a push answers once its valid part has landed. -/
def answer (atSeq : Nat) (violation : Option (Reason C)) (stored : PushOutcome) :
    Outcome StoreError PushOutcome :=
  match violation with
  | some reason => Outcome.reject (.invalid atSeq reason.display)
  | none => .ok stored

/-! ## Forks -/

/-- Fork records are ordered by sequence, then by the conflicting event's id. -/
def forkOrder (record : ForkRecord C) : Nat ×ₗ WithBot EventId :=
  toLex (record.seq, signedEventId C record.conflicting)

/-- Add a fork record in its place. -/
def insertFork (forks : List (ForkRecord C)) (record : ForkRecord C) : List (ForkRecord C) :=
  (forks ++ [record]).insertionSort fun a b => forkOrder a ≤ forkOrder b

/-- The state folded from the events before a sequence. -/
def foldedTo (store : LedgerStore C) (rebuilt seq : Nat) : OnFiles C (LedgerState C) := do
  let events ← store.readFrom rebuilt 0 (some seq)
  let (state, _) ← Program.lift (Outcome.mapReject Empty.elim
    (foldFrom LedgerState.default (events.map StoredEvent.bytes)))
  pure state

/-- What a divergence that is no fork answers. -/
def divergenceError (ledger : LedgerId) (seq : Nat) : ForkError C → StoreError
  | .conflicting violation => .invalid seq violation.reason.display
  | .sameEvent _ =>
    .invalid seq "the event differs from the stored one only outside its signed body"
  | .emptyPrefix =>
    .invalid seq "a seq-0 event that differs from the stored one names another ledger"
  | .kept violation =>
    .unavailable (s!"the stored event at seq {seq} of {linkPrefix}{ledger.display} does not " ++
      s!"verify: {violation.display}")

/-- Keep a fork record, unless it is known or recording has stopped. -/
def keepFork (setup : Setup) (call : PushCall C) (index : Index C) (entry : Entry C) (fork : Fork)
    (record : ForkRecord C) : OnNode C StoreError Unit :=
  let known := entry.forks.any fun held =>
    held.seq == record.seq && signedEventId C held.conflicting == some fork.conflicting
  if !known && !entry.forksTruncated setup.caps.forkRecords then do
    onFiles call.ledger
      (LedgerStore.recordFork record.seq fork.conflicting (forkEntry record))
    Shared.writeIndex { index with
      ledgers := index.ledgers.adjust call.ledger fun entry =>
        { entry with forks := insertFork entry.forks record } }
  else pure ()

/-- A pushed event that differs from the one stored at its sequence. The stored event is
kept either way. -/
def recordDivergence (setup : Setup) (call : PushCall C) (seq : Nat) (kept conflicting : Bytes) :
    OnNode C StoreError PushOutcome := do
  let shared ← onFiles call.ledger
    (foldedTo (setup.ledger call.ledger) call.clock.rebuilt seq)
  let fork ← Program.lift (Outcome.mapReject (divergenceError call.ledger seq)
    (validateForkRecord shared kept conflicting))
  let index ← Shared.readIndex
  let entry ← Program.lift (Outcome.expect "the caller checked the ledger is held"
    (index.ledgers.get? call.ledger))
  keepFork setup call index entry fork
    ⟨call.ledger, seq, kept, conflicting, call.clock.observed, call.provenance.endpoint⟩
  Program.lift (Outcome.reject
    (.fork seq s!"another validly signed event is stored at seq {seq}"))

/-! ## Splicing and ingesting -/

/-- How a run compares with what is stored. -/
inductive Overlap where
  /-- The stored events agree with the run up to an offset of it. -/
  | agrees (fresh : Nat)
  /-- The event stored at a sequence is another. -/
  | differs (seq : Nat) (stored event : Bytes)
  deriving DecidableEq

/-- Compare a run from an offset on with the stored events. -/
def overlap (store : LedgerStore C) (headSeq first : Nat) : Nat → List Bytes → OnFiles C Overlap
  | offset, [] => pure (.agrees offset)
  | offset, event :: events =>
    if first + offset > headSeq then pure (.agrees offset)
    else do
      let stored ← store.readEvent (first + offset)
      if stored ≠ event then pure (.differs (first + offset) stored event)
      else overlap store headSeq first (offset + 1) events

/-- Fold and store what a run adds to a held ledger. -/
def extend (setup : Setup) (call : PushCall C) (first fresh : Nat) (stored : LedgerState C) :
    OnNode C StoreError PushOutcome := do
  let suffix := call.events.drop fresh
  let (state, valid, violation) ← Program.lift (applyRun stored suffix)
  admitPush setup call.ledger (some stored) state
  let outcome ← storeRun setup call state (suffix.take valid)
  Program.lift (answer (first + (fresh + valid)) violation outcome)

/-- A push against a held ledger: the overlap, then the suffix verified against the kept
state. -/
def splice (setup : Setup) (call : PushCall C) (first : Nat) :
    OnNode C StoreError PushOutcome := do
  let index ← Shared.readIndex
  let entry ← Program.lift (Outcome.expect "the caller checked the ledger is held"
    (index.ledgers.get? call.ledger))
  Program.lift (Outcome.rejectIf (first > entry.headSeq + 1) (malformed first
    s!"the ledger ends at seq {entry.headSeq}, so seq {first} leaves a gap"))
  let compared ← onFiles call.ledger
    (overlap (setup.ledger call.ledger) entry.headSeq first 0 call.events)
  match compared with
  | .differs seq stored event => recordDivergence setup call seq stored event
  | .agrees fresh =>
    if call.events.drop fresh = [] then pure ⟨entry.headSeq, 0⟩
    else extend setup call first fresh entry.state

/-- The first ingest of a ledger: full verification from nothing, then the admission rule,
then the valid prefix. -/
def ingest (setup : Setup) (call : PushCall C) (first : Nat) : OnNode C StoreError PushOutcome := do
  Program.lift (Outcome.rejectIf (first ≠ 0)
    (malformed first "this home holds no such ledger, so the push must start at seq 0"))
  let (state, valid, violation) ← Program.lift (applyRun LedgerState.default call.events)
  if valid = 0 then do
    let reason ← Program.lift
      (Outcome.expect "an empty valid prefix carries a violation" violation)
    Program.lift (Outcome.reject (.invalid 0 reason.display))
  else do
    Program.lift (Outcome.rejectIf (state.ledger ≠ some call.ledger)
      (.invalid 0 "the seq-0 event does not hash to the ledger this push names"))
    admitPush setup call.ledger none state
    let outcome ← storeRun setup call state (call.events.take valid)
    Program.lift (answer valid violation outcome)

/-- A push, once the index is locked. -/
def pushLocked (setup : Setup) (call : PushCall C) : OnNode C StoreError PushOutcome := do
  let index ← Shared.readIndex
  let held := index.ledgers.get? call.ledger
  match call.events with
  | [] =>
    match held with
    | some entry => pure ⟨entry.headSeq, 0⟩
    | none => do
      let advertised ← Shared.readAdvertised
      Program.lift (Outcome.reject
        (refusal call.ledger (LedgerState.default : LedgerState C) advertised.entries))
  | event :: _ => do
    let first ← Program.lift (seqOf event)
    Program.lift (checkRun setup.overflowChecks first 0 call.events)
    if held.isSome then splice setup call first else ingest setup call first

/-- Offer events for one ledger. -/
def push (setup : Setup) (call : PushCall C) : OnNode C StoreError PushOutcome := do
  Shared.lockIndex
  (pushLocked setup call).andFinally StoreOp.unlockIndex

/-- Run a push alone. -/
def LedgerStorage.push (s : LedgerStorage C) (call : PushCall C) :
    Outcome StoreError PushOutcome × LedgerStorage C :=
  Program.run StoreOp.exec (Node.push s.setup call) s

end Mabel.Node
