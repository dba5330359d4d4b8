import Mabel.Node.Wallet

/-!
# What a wallet writes

A wallet mints identities, signs events on the ledgers it controls, stores runs a peer served
and drops events that lost a race. Each of these writes the files of one ledger; the index of
the node that serves over the same home is told where the write path says so.
-/

namespace Mabel.Node

open Wire Proto Net

variable {C : Crypto}

/-! ## Operations -/

/-- One operation of a wallet on its home. -/
inductive CoreOp (C : Crypto) where
  | store (op : StoreOp C)
  /-- Write the key files of an identity. -/
  | writeKeys (identity : IdentityId)
  /-- Write the metadata of an identity. -/
  | writeIdentity (identity : IdentityId) (controlledBy : Option IdentityId)
  /-- Record whether a stored ledger is one this home may append to, given the local identity
  whose key the fold names a controller of it. -/
  | linkControl (ledger : LedgerId) (controller : Option IdentityId)

/-- What an operation replies. -/
def CoreOp.Reply : CoreOp C → Type
  | .store op => op.Reply
  | _ => Unit

namespace NodeHome

/-- The home once an identity has key files. -/
def writeKeys (home : NodeHome C) (identity : IdentityId) : NodeHome C :=
  let files : IdentityFiles :=
    ⟨true, (home.identities.get? identity).bind IdentityFiles.controlledBy⟩
  { home with identities := home.identities.insert identity files }

/-- The home once an identity has metadata. -/
def writeIdentity (home : NodeHome C) (identity : IdentityId) (controlledBy : Option IdentityId) :
    NodeHome C :=
  { home with
    identities := home.identities.insert identity ⟨home.keysItself identity, controlledBy⟩ }

/-- The home once the control of a ledger is linked. An identity that keys itself is left
alone, and a link that outlived its controller is dropped. -/
def linkControl (home : NodeHome C) (ledger : LedgerId) (controller : Option IdentityId) :
    NodeHome C :=
  if home.keysItself ledger then home
  else
    match controller with
    | some controller => home.writeIdentity ledger (some controller)
    | none =>
      if ((home.identities.get? ledger).bind IdentityFiles.controlledBy).isSome then
        home.writeIdentity ledger none
      else home

/-- Linking control leaves the files. -/
theorem files_linkControl (home : NodeHome C) (ledger : LedgerId)
    (controller : Option IdentityId) : (home.linkControl ledger controller).files = home.files := by
  unfold linkControl
  by_cases hkeys : home.keysItself ledger = true
  · rw [if_pos hkeys]
  · rw [if_neg hkeys]
    cases controller with
    | some controller => rfl
    | none =>
      dsimp only
      split_ifs
      · rfl
      · rfl

end NodeHome

/-- What an operation does to the node's state. -/
def CoreOp.exec : (op : CoreOp C) → LedgerStorage C → op.Reply × LedgerStorage C
  | .store op, s => op.exec s
  | .writeKeys identity, s => ((), { s with home := s.home.writeKeys identity })
  | .writeIdentity identity controlledBy, s =>
    ((), { s with home := s.home.writeIdentity identity controlledBy })
  | .linkControl ledger controller, s =>
    ((), { s with home := s.home.linkControl ledger controller })

/-- A program of a wallet over its home. -/
abbrev OnCore (C : Crypto) (ε α : Type) := Program (CoreOp C) CoreOp.Reply ε α

/-- Work on what a wallet shares with the node. -/
def onStore {ε α : Type} : OnNode C ε α → OnCore C ε α
  | .done result => .done result
  | .perform op next => .perform (.store op) fun reply => onStore (next reply)

/-- Code of the store runs on the store. -/
theorem run_onStore {ε α : Type} (p : OnNode C ε α) (s : LedgerStorage C) :
    Program.run CoreOp.exec (onStore p) s = Program.run StoreOp.exec p s := by
  induction p generalizing s with
  | done result => rfl
  | perform op next ih => exact ih _ _

/-- Why a writing operation of a wallet failed. -/
inductive CoreError (C : Crypto) where
  | wallet (error : WalletError C)
  /-- The append lock of another ledger is held. -/
  | wrongAppendLock (held wanted : LedgerId)
  /-- A served run differs from what is stored. -/
  | divergentLocalCopy (ledger : LedgerId) (atSeq : Nat)
  /-- A served event does not decode. -/
  | malformedEvent
  | aliasInUse (identity : IdentityId)
  /-- The fold refuses an inception or a profile. -/
  | notFolded (reason : Reason C)
  /-- The profile is the one the ledger has. -/
  | noOpProfileUpdate (identity : IdentityId)
  | profileNotFolded (seq : Nat)
  deriving DecidableEq

/-- A failure of the files under a wallet. -/
def CoreError.storage (error : StorageError) : CoreError C := .wallet (.storage error)

/-- Refuse a lock taken for another ledger. -/
def checkLock (lock ledger : LedgerId) : Outcome (CoreError C) Unit :=
  Outcome.rejectIf (lock ≠ ledger) (.wrongAppendLock lock ledger)

/-- Tell the index that a ledger's files moved. A failure is logged and swallowed. -/
def note {ε : Type} (setup : Setup) (ledger : LedgerId) (clock : LoadClock) : OnNode C ε Unit := do
  let _ ← (noteLedger setup ledger clock).attempt
  pure ()

/-- A program over a ledger's files on the way of a writing operation. -/
abbrev OnCopy (C : Crypto) (α : Type) := Program (FileOp C) FileOp.Reply (CoreError C) α

/-! ## Appending -/

/-- Sign one event for a ledger and append it, under a lock. -/
def append (setup : Setup) (lock : LedgerId) (call : WalletCall C) :
    OnNode C (CoreError C) AppendedEvent := do
  Program.lift (checkLock lock call.ledger)
  (appendNoted setup call).mapReject CoreError.wallet

/-! ## Storing what a peer served -/

/-- What the clock reads while a served run is stored. -/
structure StoreClock where
  /-- When a missing `head.json` is rebuilt, before the comparison and while appending. -/
  read : Nat
  rebuilt : Nat
  /-- When the head moves. -/
  written : Nat
  firstSeen : Nat
  noted : LoadClock
  deriving DecidableEq

/-- A run of events a peer served. -/
structure StoreCall (C : Crypto) where
  ledger : LedgerId
  events : List Bytes
  source : Option (EndpointId C)
  clock : StoreClock

/-- Compare a served run with what is stored from a sequence on. -/
def compareStored (store : LedgerStore C) (seq : Nat) : List Bytes → OnCopy C Unit
  | [] => pure ()
  | bytes :: events => do
    let stored ← (store.readEvent seq).mapReject CoreError.storage
    Program.lift (Outcome.rejectIf (stored ≠ bytes) (.divergentLocalCopy store.ledger seq))
    compareStored store (seq + 1) events

/-- Number the served events past what is held. -/
def servedBatch (C : Crypto) (seq : Nat) : List Bytes → Outcome (CoreError C) (List NewEvent)
  | [] => .ok []
  | bytes :: events => do
    let id ← Outcome.orReject .malformedEvent (decodedId C bytes)
    let batch ← servedBatch C (seq + 1) events
    .ok (⟨seq, id, bytes⟩ :: batch)

/-- Store a served run, skipping what the home already holds. -/
def storeFiles (store : LedgerStore C) (call : StoreCall C) : OnCopy C Nat := do
  let head ← (store.head call.clock.read).mapReject CoreError.storage
  let held := head.elim 0 fun head => head.seq + 1
  compareStored store 0 (call.events.take held)
  let batch ← Program.lift (servedBatch C held (call.events.drop held))
  let _ ← (store.append call.clock.rebuilt call.clock.written batch).mapReject CoreError.storage
  let _ ← (LedgerStore.noteFirstSeen call.source call.clock.firstSeen).mapReject CoreError.storage
  pure batch.length

/-- Store a run of events a peer served, keeping the bytes verbatim. -/
def storeEvents (setup : Setup) (lock : LedgerId) (call : StoreCall C) :
    OnNode C (CoreError C) Nat := do
  Program.lift (checkLock lock call.ledger)
  let stored ← onLedger call.ledger (storeFiles (setup.ledger call.ledger) call)
  note setup call.ledger call.clock.noted
  pure stored

/-! ## Dropping events -/

/-- Remove the event files of the listed sequences past one. -/
def removePast (keepThrough : Nat) : List Nat → OnCopy C Unit
  | [] => pure ()
  | seq :: seqs =>
    if seq > keepThrough then do
      Program.ask (FileOp.removeEvent seq)
      removePast keepThrough seqs
    else removePast keepThrough seqs

/-- Drop every event file past a sequence and rebuild the head cache. -/
def truncateFiles (store : LedgerStore C) (keepThrough now : Nat) : OnCopy C Unit := do
  let seqs ← Program.ask FileOp.listEvents
  removePast keepThrough seqs
  Program.ask FileOp.removeHead
  let _ ← (store.rebuildHead now).mapReject CoreError.storage
  pure ()

/-- A truncation and what the clock reads in it. -/
structure TruncateCall where
  ledger : LedgerId
  keepThrough : Nat
  rebuilt : Nat
  noted : LoadClock
  deriving DecidableEq

/-- Drop every event of a ledger past a sequence. -/
def truncate (setup : Setup) (lock : LedgerId) (call : TruncateCall) :
    OnNode C (CoreError C) Unit := do
  Program.lift (checkLock lock call.ledger)
  onLedger call.ledger (truncateFiles (setup.ledger call.ledger) call.keepThrough call.rebuilt)
  note setup call.ledger call.noted

/-! ## Minting -/

/-- What a new identity is rooted in: fresh keys, or a founder and the key the home holds for
it. -/
inductive MintRoot (C : Crypto) where
  | raw (active reserve : SecretKey C)
  | founded (founder : IdentityId) (signer : Option (SecretKey C))

/-- The founder, which signs for the new identity later. -/
def MintRoot.founder : MintRoot C → Option IdentityId
  | .raw _ _ => none
  | .founded founder _ => some founder

/-- One call that mints an identity. -/
structure MintCall (C : Crypto) where
  /-- The identity that goes by the alias already. -/
  aliasHeldBy : Option IdentityId
  declaredKind : DeclaredKind
  root : MintRoot C
  nonce : Block nonceBytes
  displayName : Option String
  email : Option String
  /-- The key the home holds for the identity once it is written. -/
  signer : Option (SecretKey C)
  createdAtMs : Nat
  /-- When a missing head is rebuilt and when the head moves. -/
  rebuilt : Nat
  written : Nat
  profile : WalletClock
  answered : Nat

/-- Refuse an alias that is taken here. -/
def refuseReusedAlias (call : MintCall C) : Outcome (CoreError C) Unit :=
  match call.aliasHeldBy with
  | some identity => Outcome.reject (.aliasInUse identity)
  | none => .ok ()

/-- The result of a builder, with its errors as the wallet's. -/
def builtOr (built : Except BuildError BuiltEvent) : Outcome (CoreError C) BuiltEvent :=
  match built with
  | .ok built => .ok built
  | .error error => Outcome.reject (.wallet (.build error))

/-- Build the seq-0 event of a new identity. -/
def mintInception (setup : Setup) (call : MintCall C) : OnNode C (CoreError C) BuiltEvent :=
  match call.root with
  | .raw active reserve =>
    Program.lift (builtOr (buildInception active call.declaredKind (.raw reserve.publicKey)
      call.nonce call.createdAtMs))
  | .founded founder signer => do
    let signer ← Program.lift (Outcome.orReject (.wallet (.noLocalSigner founder)) signer)
    let inception ← (onLedger founder ((setup.ledger founder).readEvent 0)).mapReject
      fun _ => CoreError.wallet (.unknownLedger founder)
    Program.lift (builtOr (buildInception signer call.declaredKind (.identity founder inception)
      call.nonce call.createdAtMs))

/-- Refuse a profile that is the current one. -/
def refuseNoOpProfile (identity : IdentityId) (previous : Option (Profile C))
    (displayName hostname email : Option String) : Outcome (CoreError C) Unit :=
  Outcome.rejectIf ((previous.bind Profile.displayName, previous.bind Profile.hostname,
    previous.bind Profile.email) = (displayName, hostname, email)) (.noOpProfileUpdate identity)

/-- The append of a profile to a ledger of its own identity. -/
def MintCall.profileCall (call : MintCall C) (identity : IdentityId) : WalletCall C where
  ledger := identity
  identity := identity
  signer := call.signer
  build := fun signer position timestampMs =>
    buildProfileUpdate signer position call.displayName none call.email timestampMs
  clock := call.profile

/-- Sign a profile on the head of a stored ledger and append it. -/
def profileFiles (store : LedgerStore C) (checks : Bool) (call : MintCall C) :
    OnCopy C (LedgerState C) := do
  let loaded ← (load store call.profile.loaded).mapReject CoreError.wallet
  Program.lift (refuseNoOpProfile store.ledger loaded.state.profile call.displayName none
    call.email)
  let (position, _, built) ← Program.lift (Outcome.mapReject CoreError.wallet
    (signNext checks (call.profileCall store.ledger) loaded))
  let _ ← (store.append call.profile.rebuilt call.profile.written
    [⟨position.seq, built.eventId, built.signedEvent⟩]).mapReject CoreError.storage
  -- The profile is looked up in the state the signed event left in memory.
  Program.lift (Outcome.mapReject CoreError.notFolded (loaded.state.apply built.signedEvent))

/-- Append the profile of an identity and tell the index. -/
def appendProfileUpdate (setup : Setup) (identity : IdentityId) (call : MintCall C) :
    OnNode C (CoreError C) Unit := do
  let state ← onLedger identity (profileFiles (setup.ledger identity) setup.overflowChecks call)
  note setup identity call.profile.noted
  Program.lift (Outcome.rejectIf (state.profile = none)
    (.profileNotFolded ((state.head.map Mabel.Head.seq).getD 0)))

/-- Write the inception of a new identity and where the ledger came from. -/
def inceptionFiles (store : LedgerStore C) (call : MintCall C) (built : BuiltEvent) :
    OnCopy C Unit := do
  let _ ← (store.append call.rebuilt call.written
    [⟨0, built.eventId, built.signedEvent⟩]).mapReject CoreError.storage
  Program.ask FileOp.createDir
  Program.ask (FileOp.writeMeta ⟨none, call.createdAtMs⟩)

/-- Write the key files of an identity that signs for itself. -/
def writeOwnKeys (identity : IdentityId) : MintRoot C → OnCore C (CoreError C) Unit
  | .raw _ _ => Program.ask (CoreOp.writeKeys identity)
  | .founded _ _ => pure ()

/-- Append the profile, when one of its fields is given. -/
def profileIfGiven (setup : Setup) (identity : IdentityId) (call : MintCall C) :
    OnNode C (CoreError C) Unit :=
  if call.displayName.isSome || call.email.isSome then appendProfileUpdate setup identity call
  else pure ()

/-- What minting an identity answers. -/
structure CreatedIdentity (C : Crypto) where
  identity : LoadedLedger C
  inceptionEvent : EventId

/-- Mint an identity. -/
def createIdentity (setup : Setup) (call : MintCall C) :
    OnCore C (CoreError C) (CreatedIdentity C) := do
  Program.lift (refuseReusedAlias call)
  -- Before the mint: a refused profile leaves no ledger behind.
  Program.lift (Outcome.mapReject (fun error => CoreError.notFolded (.wire error))
    (checkProfile C call.displayName none call.email))
  let built ← onStore (mintInception setup call)
  let _ ← Program.lift (Outcome.mapReject CoreError.notFolded
    (LedgerState.default.apply built.signedEvent))
  let identity := built.eventId.toIdentity
  writeOwnKeys identity call.root
  onStore (onLedger identity (inceptionFiles (setup.ledger identity) call built))
  Program.ask (CoreOp.writeIdentity identity call.root.founder)
  onStore (profileIfGiven setup identity call)
  let loaded ← onStore ((onLedger identity (load (setup.ledger identity) call.answered)).mapReject
    CoreError.wallet)
  pure ⟨loaded, built.eventId⟩

/-! ## Runs -/

/-- One writing operation. -/
inductive CoreCall (C : Crypto) where
  | createIdentity (call : MintCall C)
  | append (lock : LedgerId) (call : WalletCall C)
  | storeEvents (lock : LedgerId) (call : StoreCall C)
  | truncate (lock : LedgerId) (call : TruncateCall)

namespace LedgerStorage

/-- Perform one writing operation. -/
def perform (s : LedgerStorage C) : CoreCall C → Outcome (CoreError C) Unit × LedgerStorage C
  | .createIdentity call =>
    (Program.run CoreOp.exec (Node.createIdentity s.setup call) s).map (Except.map fun _ => ()) id
  | .append lock call =>
    (Program.run StoreOp.exec (Node.append s.setup lock call) s).map (Except.map fun _ => ()) id
  | .storeEvents lock call =>
    (Program.run StoreOp.exec (Node.storeEvents s.setup lock call) s).map
      (Except.map fun _ => ()) id
  | .truncate lock call => Program.run StoreOp.exec (Node.truncate s.setup lock call) s

/-- Perform writing operations one after another, as long as they succeed. -/
def performAll (s : LedgerStorage C) : List (CoreCall C) →
    Outcome (CoreError C) (LedgerStorage C)
  | [] => .ok s
  | call :: calls =>
    match s.perform call with
    | (.ok _, t) => t.performAll calls
    | (.error e, _) => .error e

end LedgerStorage

end Mabel.Node
