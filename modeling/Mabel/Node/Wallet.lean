import Mabel.Ledger.Sign.Build
import Mabel.Node.Reload

/-!
# Wallet appends

Every append follows one order: fold what is stored, refuse a chain that does not verify,
build the event on its head, run it through the fold and only then write it. The append lock
of the ledger is held from the first read to the last write; the index of the store is told
afterwards.
-/

namespace Mabel.Node

open Wire Proto Net

variable {C : Crypto}

/-! ## Loaded ledgers -/

/-- A run of events and the state they fold to. -/
structure LoadedLedger (C : Crypto) where
  ledger : LedgerId
  events : List Bytes
  /-- The fold of the valid prefix. -/
  state : LedgerState C
  /-- Position of every event the fold accepted, by event id. -/
  seqOf : SortedMap EventId Nat
  /-- Id of every event in order, whether the fold accepted it or not. -/
  eventIds : List (Option EventId)
  /-- The timestamp of the seq-0 event. -/
  createdAtMs : Nat
  /-- Position of the last event, valid or not. -/
  headSeq : Nat
  headEvent : EventId
  /-- The first event the fold rejected. -/
  violation : Option (Violation C)
  failedEvent : Option EventId
  deriving DecidableEq

/-- The id of an event that decodes. -/
def decodedId (C : Crypto) (bytes : Bytes) : Option EventId :=
  (SignedEvent.decode bytes).map fun signed => eventId C signed.body

/-- The timestamp of bytes the fold has already accepted. -/
def timestampOf (bytes : Bytes) : Nat :=
  (((SignedEvent.decode bytes).bind fun signed => EventBody.decode signed.body).map
    EventBody.timestampMs).getD 0

namespace LoadedLedger

/-- Nothing has been folded yet. -/
def start (ledger : LedgerId) (events : List Bytes) : LoadedLedger C where
  ledger := ledger
  events := events
  state := LedgerState.default
  seqOf := .empty
  eventIds := []
  createdAtMs := 0
  headSeq := 0
  headEvent := ⟨.zero idBytes⟩
  violation := none
  failedEvent := none

/-- Fold one more event, unless one was rejected before it. -/
def step {ε : Type} (loaded : LoadedLedger C) (seq : Nat) (bytes : Bytes) :
    Outcome ε (LoadedLedger C) :=
  let id := decodedId C bytes
  let loaded := { loaded with
    eventIds := loaded.eventIds ++ [id]
    headSeq := id.elim loaded.headSeq fun _ => seq
    headEvent := id.getD loaded.headEvent }
  if loaded.violation.isSome then .ok loaded
  else
    match loaded.state.apply bytes with
    | .ok state => .ok { loaded with
        state := state
        seqOf := id.elim loaded.seqOf fun id => loaded.seqOf.insert id seq
        createdAtMs := if seq = 0 then timestampOf bytes else loaded.createdAtMs }
    | .error (.reject reason) =>
      .ok { loaded with violation := some ⟨seq, reason⟩, failedEvent := id }
    | .error (.panic site) => Outcome.panic site

/-- Fold events from a position on. -/
def foldFrom {ε : Type} (loaded : LoadedLedger C) (seq : Nat) : List Bytes →
    Outcome ε (LoadedLedger C)
  | [] => .ok loaded
  | bytes :: events => do
    let loaded ← loaded.step seq bytes
    loaded.foldFrom (seq + 1) events

/-- Fold a run of events that claims to be a ledger. -/
def fold {ε : Type} (ledger : LedgerId) (events : List Bytes) : Outcome ε (LoadedLedger C) :=
  (start ledger events).foldFrom 0 events

end LoadedLedger

/-- Why a wallet append failed. -/
inductive WalletError (C : Crypto) where
  | storage (error : StorageError)
  | unknownLedger (ledger : LedgerId)
  /-- The stored chain does not verify to its head. -/
  | unverified (ledger : LedgerId) (violation : Violation C) (failedEvent : Option EventId)
  | emptyLedger (ledger : LedgerId)
  | noLocalSigner (identity : IdentityId)
  | build (error : BuildError)
  /-- The fold rejects the new event. -/
  | rejected (reason : Reason C) (atSeq : Nat)
  deriving DecidableEq

/-- A program over a ledger's files on the way of a wallet append. -/
abbrev OnWallet (C : Crypto) (α : Type) := Program (FileOp C) FileOp.Reply (WalletError C) α

/-- Fold one stored ledger. -/
def load (store : LedgerStore C) (rebuilt : Nat) : OnWallet C (LoadedLedger C) := do
  let stored ← (store.readAll rebuilt).mapReject WalletError.storage
  let loaded ← Program.lift (LoadedLedger.fold store.ledger (stored.map StoredEvent.bytes))
  Program.lift (Outcome.rejectIf (loaded.events = []) (.unknownLedger store.ledger))
  pure loaded

/-! ## One append -/

/-- What the clock reads at each place of an append that reads it. -/
structure WalletClock where
  /-- When a missing `head.json` is rebuilt, while loading and while appending. -/
  loaded : Nat
  rebuilt : Nat
  /-- When the event is built. -/
  built : Nat
  /-- When the head moves. -/
  written : Nat
  noted : LoadClock
  deriving DecidableEq

/-- One wallet append. -/
structure WalletCall (C : Crypto) where
  ledger : LedgerId
  /-- The identity whose key signs, and the key the home holds for it. -/
  identity : IdentityId
  signer : Option (SecretKey C)
  /-- Build the event at a position, with a timestamp. -/
  build : SecretKey C → Position → Nat → Except BuildError BuiltEvent
  clock : WalletClock

/-- What one append produced. -/
structure AppendedEvent where
  eventId : EventId
  seq : Nat
  timestampMs : Nat
  bytes : Bytes
  deriving DecidableEq

/-- The position behind a head. A `u64` counts it. -/
def positionAfter {ε : Type} (checks : Bool) (ledger : LedgerId) (head : Mabel.Head) :
    Outcome ε Position :=
  if h : head.seq + 1 ≤ u64Max then .ok ⟨ledger, head.seq + 1, head.eventId, head.timestampMs, h⟩
  else if checks then Outcome.panic "attempt to add with overflow"
  else .ok ⟨ledger, 0, head.eventId, head.timestampMs, Nat.zero_le _⟩

/-- Refuse to go on when a stored chain does not verify to its head. -/
def requireValid (loaded : LoadedLedger C) : Outcome (WalletError C) Unit :=
  match loaded.violation with
  | none => .ok ()
  | some violation =>
    Outcome.reject (.unverified loaded.ledger violation loaded.failedEvent)

/-- Sign one event on the head of a loaded ledger and check it against the fold. -/
def signNext (checks : Bool) (call : WalletCall C) (loaded : LoadedLedger C) :
    Outcome (WalletError C) (Position × Nat × BuiltEvent) := do
  requireValid loaded
  let head ← Outcome.orReject (.emptyLedger loaded.ledger) loaded.state.head
  let signer ← Outcome.orReject (.noLocalSigner call.identity) call.signer
  let position ← positionAfter checks loaded.ledger head
  let timestampMs := ledgerTimestampMs call.clock.built head.timestampMs
  match call.build signer position timestampMs with
  | .error error => Outcome.reject (.build error)
  | .ok built => do
    let _ ← Outcome.mapReject (WalletError.rejected · position.seq)
      (loaded.state.apply built.signedEvent)
    .ok (position, timestampMs, built)

/-- Load a ledger, sign one event on its head and append it. -/
def appendEvent (store : LedgerStore C) (checks : Bool) (call : WalletCall C) :
    OnWallet C AppendedEvent := do
  let loaded ← load store call.clock.loaded
  let (position, timestampMs, built) ← Program.lift (signNext checks call loaded)
  let _ ← (store.append call.clock.rebuilt call.clock.written
    [⟨position.seq, built.eventId, built.signedEvent⟩]).mapReject WalletError.storage
  pure ⟨built.eventId, position.seq, timestampMs, built.signedEvent⟩

/-- Append and tell the index. A failure to refresh the index is logged and swallowed. -/
def appendNoted (setup : Setup) (call : WalletCall C) :
    OnNode C (WalletError C) AppendedEvent := do
  let appended ← onLedger call.ledger
    (appendEvent (setup.ledger call.ledger) setup.overflowChecks call)
  let _ ← (noteLedger setup call.ledger call.clock.noted).attempt
  pure appended

/-- A whole append transaction, under the append lock of its ledger. -/
def walletAppend (setup : Setup) (call : WalletCall C) :
    OnNode C (WalletError C) AppendedEvent := do
  Shared.lockAppend call.ledger
  (appendNoted setup call).andFinally (.unlockAppend call.ledger)

end Mabel.Node
