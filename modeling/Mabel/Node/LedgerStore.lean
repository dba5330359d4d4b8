import Mabel.Core.Program
import Mabel.Ledger.Fold.Trace
import Mathlib.Data.Prod.Lex

/-!
# The files of one ledger

One directory a ledger: an event file for each sequence, a head cache, a provenance record
and the fork records. Each read, each listing and each atomic write is one operation.
Operations succeed; what may fail is what the code checks. Where the code reads the clock,
the reading is an argument.
-/

namespace Mabel.Node

open Wire Proto

variable {C : Crypto}

/-- The prefix of every link to an identity. -/
def linkPrefix : String := "mabel://"

/-- Why a storage operation failed. -/
inductive StorageError where
  | malformedEvent (path : String)
  | outOfOrderAppend (ledger : LedgerId) (expected got : Nat)
  | conflictingEvent (ledger : LedgerId) (seq : Nat) (offered : EventId)
  | eventIdMismatch (seq : Nat) (claimed actual : EventId)
  | missingEvent (ledger : LedgerId) (seq : Nat)
  /-- A file that was listed could not be read. -/
  | io (path : String)
  deriving DecidableEq

/-- The text of a storage error. The messages of the decoder and of the file system, which
follow it, are not modelled. -/
def StorageError.display : StorageError → String
  | .malformedEvent path => s!"{path} does not decode as a SignedEvent"
  | .outOfOrderAppend ledger expected got =>
    s!"ledger {linkPrefix}{ledger.display} expects seq {expected}, got {got}"
  | .conflictingEvent ledger seq offered =>
    s!"ledger {linkPrefix}{ledger.display} holds a different event at seq {seq}, " ++
      s!"so {offered.display} cannot land there"
  | .eventIdMismatch seq claimed actual =>
    s!"event bytes for seq {seq} hash to {actual.display}, not the given {claimed.display}"
  | .missingEvent ledger seq =>
    s!"ledger {linkPrefix}{ledger.display} holds no event at seq {seq}"
  | .io path => s!"io error on {path}"

/-- The head cache, rebuildable from the event files. -/
structure Head where
  seq : Nat
  eventId : EventId
  updatedMs : Nat
  deriving DecidableEq

/-- Where a ledger came from. Provenance, never authorization. -/
structure LedgerMeta (C : Crypto) where
  sourceEndpoint : Option (EndpointId C)
  firstSeenMs : Nat
  deriving DecidableEq

/-- An event offered to `append`, its bytes exactly as the signer produced them. -/
structure NewEvent where
  seq : Nat
  eventId : EventId
  bytes : Bytes
  deriving DecidableEq

/-- An event read back. -/
structure StoredEvent where
  seq : Nat
  bytes : Bytes
  deriving DecidableEq

/-- What the directories of one ledger hold. -/
structure LedgerFiles (C : Crypto) where
  /-- The ledger directory is there. -/
  present : Bool
  /-- The event files, by the sequence in their name. -/
  events : SortedMap Nat Bytes
  /-- `head.json`. -/
  headFile : Option Head
  /-- `meta.json`. -/
  metaFile : Option (LedgerMeta C)
  /-- The fork records, by the sequence and the conflicting id in their name. -/
  forks : SortedMap (Nat ×ₗ EventId) Bytes
  deriving DecidableEq

namespace LedgerFiles

/-- The files of a ledger the home has never seen. -/
def none : LedgerFiles C := ⟨false, .empty, .none, .none, .empty⟩

/-- The bytes of the event files, by ascending sequence. -/
def stored (files : LedgerFiles C) : List Bytes := files.events.entries.map Prod.snd

end LedgerFiles

/-- One operation on the files of a ledger. -/
inductive FileOp (C : Crypto) where
  | createDir
  | readHead
  | writeHead (head : Head)
  | removeHead
  /-- List the sequences with an event file, sorted. -/
  | listEvents
  | readEvent (seq : Nat)
  | writeEvent (seq : Nat) (bytes : Bytes)
  | removeEvent (seq : Nat)
  | readMeta
  | writeMeta (noted : LedgerMeta C)
  /-- List the fork records, by sequence and conflicting id. -/
  | listForks
  | readFork (seq : Nat) (conflicting : EventId)
  | writeFork (seq : Nat) (conflicting : EventId) (record : Bytes)

/-- What an operation replies. A read of a missing file replies nothing. -/
def FileOp.Reply : FileOp C → Type
  | .readHead => Option Head
  | .listEvents => List Nat
  | .readEvent _ => Option Bytes
  | .readMeta => Option (LedgerMeta C)
  | .listForks => List (Nat × EventId)
  | .readFork _ _ => Option Bytes
  | _ => Unit

/-- What an operation does to the files. -/
def FileOp.exec : (op : FileOp C) → LedgerFiles C → op.Reply × LedgerFiles C
  | .createDir, files => ((), { files with present := true })
  | .readHead, files => (files.headFile, files)
  | .writeHead head, files => ((), { files with headFile := some head })
  | .removeHead, files => ((), { files with headFile := none })
  | .listEvents, files => (files.events.keys, files)
  | .readEvent seq, files => (files.events.get? seq, files)
  | .writeEvent seq bytes, files => ((), { files with events := files.events.insert seq bytes })
  | .removeEvent seq, files => ((), { files with events := files.events.remove seq })
  | .readMeta, files => (files.metaFile, files)
  | .writeMeta noted, files => ((), { files with metaFile := some noted })
  | .listForks, files => (files.forks.keys.map ofLex, files)
  | .readFork seq id, files => (files.forks.get? (toLex (seq, id)), files)
  | .writeFork seq id record, files =>
    ((), { files with forks := files.forks.insert (toLex (seq, id)) record })

/-- A program over the files of one ledger. -/
abbrev OnFiles (C : Crypto) (α : Type) := Program (FileOp C) FileOp.Reply StorageError α

/-! ## One operation each -/

namespace File

def createDir : OnFiles C Unit := .ask FileOp.createDir
def readHead : OnFiles C (Option Head) := .ask FileOp.readHead
def writeHead (head : Head) : OnFiles C Unit := .ask (FileOp.writeHead head)
def listEvents : OnFiles C (List Nat) := .ask FileOp.listEvents
def readEvent (seq : Nat) : OnFiles C (Option Bytes) := .ask (FileOp.readEvent seq)
def writeEvent (seq : Nat) (bytes : Bytes) : OnFiles C Unit := .ask (FileOp.writeEvent seq bytes)
def readMeta : OnFiles C (Option (LedgerMeta C)) := .ask FileOp.readMeta
def writeMeta (noted : LedgerMeta C) : OnFiles C Unit := .ask (FileOp.writeMeta noted)
def listForks : OnFiles C (List (Nat × EventId)) := .ask FileOp.listForks
def readFork (seq : Nat) (id : EventId) : OnFiles C (Option Bytes) := .ask (FileOp.readFork seq id)

def writeFork (seq : Nat) (id : EventId) (record : Bytes) : OnFiles C Unit :=
  .ask (FileOp.writeFork seq id record)

section Run

variable {β : Type} (files : LedgerFiles C)

@[simp] theorem run_createDir_bind (f : Unit → OnFiles C β) :
    Program.run FileOp.exec (createDir >>= f) files =
      Program.run FileOp.exec (f ()) { files with present := true } := rfl

@[simp] theorem run_readHead_bind (f : Option Head → OnFiles C β) :
    Program.run FileOp.exec (readHead >>= f) files =
      Program.run FileOp.exec (f files.headFile) files := rfl

@[simp] theorem run_writeHead_bind (head : Head) (f : Unit → OnFiles C β) :
    Program.run FileOp.exec (writeHead head >>= f) files =
      Program.run FileOp.exec (f ()) { files with headFile := some head } := rfl

@[simp] theorem run_listEvents_bind (f : List Nat → OnFiles C β) :
    Program.run FileOp.exec (listEvents >>= f) files =
      Program.run FileOp.exec (f files.events.keys) files := rfl

@[simp] theorem run_readEvent_bind (seq : Nat) (f : Option Bytes → OnFiles C β) :
    Program.run FileOp.exec (readEvent seq >>= f) files =
      Program.run FileOp.exec (f (files.events.get? seq)) files := rfl

@[simp] theorem run_writeEvent_bind (seq : Nat) (bytes : Bytes) (f : Unit → OnFiles C β) :
    Program.run FileOp.exec (writeEvent seq bytes >>= f) files =
      Program.run FileOp.exec (f ()) { files with events := files.events.insert seq bytes } := rfl

@[simp] theorem run_readMeta_bind (f : Option (LedgerMeta C) → OnFiles C β) :
    Program.run FileOp.exec (readMeta >>= f) files =
      Program.run FileOp.exec (f files.metaFile) files := rfl

@[simp] theorem run_writeMeta_bind (noted : LedgerMeta C) (f : Unit → OnFiles C β) :
    Program.run FileOp.exec (writeMeta noted >>= f) files =
      Program.run FileOp.exec (f ()) { files with metaFile := some noted } := rfl

@[simp] theorem run_listForks_bind (f : List (Nat × EventId) → OnFiles C β) :
    Program.run FileOp.exec (listForks >>= f) files =
      Program.run FileOp.exec (f (files.forks.keys.map ofLex)) files := rfl

@[simp] theorem run_readFork_bind (seq : Nat) (id : EventId) (f : Option Bytes → OnFiles C β) :
    Program.run FileOp.exec (readFork seq id >>= f) files =
      Program.run FileOp.exec (f (files.forks.get? (toLex (seq, id)))) files := rfl

end Run

end File

/-! ## The store -/

/-- The last sequence of the run that starts at an index. -/
def contiguousFrom (index : Nat) (last : Option Nat) : List Nat → Option Nat
  | [] => last
  | seq :: seqs => if seq ≠ index then last else contiguousFrom (index + 1) (some seq) seqs

/-- The last sequence of the run `0, 1, 2, ...`, or nothing if seq 0 is absent. -/
def contiguousLast (seqs : List Nat) : Option Nat := contiguousFrom 0 none seqs

/-- The store of one ledger: which ledger it is and where its directories lie. -/
structure LedgerStore (C : Crypto) where
  ledger : LedgerId
  dir : String
  forksDir : String

namespace LedgerStore

/-- Digits in an event file name. -/
def seqDigits : Nat := 12

/-- A sequence as file names spell it. -/
def seqName (seq : Nat) : String :=
  let digits := toString seq
  String.ofList (List.replicate (seqDigits - digits.length) '0') ++ digits

/-- Path of one event file. -/
def eventPath (store : LedgerStore C) (seq : Nat) : String := s!"{store.dir}/{seqName seq}.ev"

/-- Path of one fork record. -/
def forkPath (store : LedgerStore C) (seq : Nat) (conflicting : EventId) : String :=
  s!"{store.forksDir}/{seqName seq}-{conflicting.display}.fork"

/-- The id of the body inside event bytes. -/
def eventIdOf (store : LedgerStore C) (seq : Nat) (bytes : Bytes) :
    Outcome StorageError EventId := do
  let event ← Outcome.orReject (.malformedEvent (store.eventPath seq)) (SignedEvent.decode bytes)
  .ok (eventId C event.body)

/-- Read one event's stored bytes. -/
def readEvent (store : LedgerStore C) (seq : Nat) : OnFiles C Bytes := do
  let held ← File.readEvent seq
  Program.lift (Outcome.orReject (.missingEvent store.ledger seq) held)

/-- Rebuild the head cache from the contiguous run of event files and write it back. -/
def rebuildHead (store : LedgerStore C) (now : Nat) : OnFiles C (Option Head) := do
  let seqs ← File.listEvents
  match contiguousLast seqs with
  | none => pure none
  | some last => do
    let bytes ← store.readEvent last
    let id ← Program.lift (store.eventIdOf last bytes)
    let head : Head := ⟨last, id, now⟩
    File.writeHead head
    pure (some head)

/-- The head cache, rebuilt when the file is missing. -/
def head (store : LedgerStore C) (now : Nat) : OnFiles C (Option Head) := do
  let cached ← File.readHead
  match cached with
  | some head => pure (some head)
  | none => store.rebuildHead now

/-- Check one offered event against the sequence it must take and the file there. -/
def checkEvent (store : LedgerStore C) (want : Nat) (event : NewEvent) : OnFiles C Unit := do
  Program.lift (Outcome.rejectIf (event.seq ≠ want)
    (.outOfOrderAppend store.ledger want event.seq))
  let actual ← Program.lift (store.eventIdOf event.seq event.bytes)
  Program.lift (Outcome.rejectIf (actual ≠ event.eventId)
    (.eventIdMismatch event.seq event.eventId actual))
  let held ← File.readEvent event.seq
  -- Identical bytes pass, so a repeated append is idempotent.
  Program.lift (Outcome.rejectIf (held.any (· != event.bytes) = true)
    (.conflictingEvent store.ledger event.seq event.eventId))

/-- Check offered events against the sequences from one on. -/
def checkEvents (store : LedgerStore C) (want : Nat) : List NewEvent → OnFiles C Unit
  | [] => pure ()
  | event :: events => do
    store.checkEvent want event
    store.checkEvents (want + 1) events

/-- Write event files, one after another. -/
def writeFiles : List NewEvent → OnFiles C Unit
  | [] => pure ()
  | event :: events => do
    File.writeEvent event.seq event.bytes
    writeFiles events

/-- Check and then write every event file, leaving the head cache where it is. -/
def writeEvents (store : LedgerStore C) (rebuilt now : Nat) (first : NewEvent)
    (rest : List NewEvent) : OnFiles C Head := do
  File.createDir
  let head ← store.head rebuilt
  let expected := head.elim 0 fun head => head.seq + 1
  store.checkEvents expected (first :: rest)
  writeFiles (first :: rest)
  let last := (first :: rest).getLast (by simp)
  pure ⟨last.seq, last.eventId, now⟩

/-- Append a contiguous run of events and move the head cache last. -/
def append (store : LedgerStore C) (rebuilt now : Nat) : List NewEvent → OnFiles C (Option Head)
  | [] => store.head rebuilt
  | first :: rest => do
    let head ← store.writeEvents rebuilt now first rest
    File.writeHead head
    pure (some head)

/-- Read a number of events from a sequence on. -/
def readCount (store : LedgerStore C) (seq : Nat) : Nat → OnFiles C (List StoredEvent)
  | 0 => pure []
  | count + 1 => do
    let bytes ← store.readEvent seq
    let events ← store.readCount (seq + 1) count
    pure (⟨seq, bytes⟩ :: events)

/-- Read events from a sequence up to the head, at most a limit of them. -/
def readFrom (store : LedgerStore C) (rebuilt since : Nat) (limit : Option Nat) :
    OnFiles C (List StoredEvent) := do
  let head ← store.head rebuilt
  match head with
  | none => pure []
  | some head =>
    let count := head.seq + 1 - since
    store.readCount since (limit.elim count fun limit => min limit count)

/-- Read the whole ledger up to the head. -/
def readAll (store : LedgerStore C) (rebuilt : Nat) : OnFiles C (List StoredEvent) :=
  store.readFrom rebuilt 0 none

/-- Record the provenance of a ledger not seen before, leaving an existing record alone. -/
def noteFirstSeen (sourceEndpoint : Option (EndpointId C)) (now : Nat) :
    OnFiles C (LedgerMeta C) := do
  let noted ← File.readMeta
  match noted with
  | some noted => pure noted
  | none => do
    let noted : LedgerMeta C := ⟨sourceEndpoint, now⟩
    File.createDir
    File.writeMeta noted
    pure noted

/-- Write one fork record under its sequence and the conflicting event's id. -/
def recordFork (seq : Nat) (conflicting : EventId) (record : Bytes) : OnFiles C Unit :=
  File.writeFork seq conflicting record

end LedgerStore

end Mabel.Node
