import Mabel.Node.WalletCore

/-!
# Asking the witnesses before an append, and fetching

Before it signs on the head of a ledger it does not control alone, a wallet asks each witness
where the ledger ends. A witness that answers something else is asked for its whole chain,
which is verified from nothing: where the local copy is a prefix of it, the copy is
fast-forwarded, and otherwise the copy is cut back to what the two share and the chain taken
in its place.

What a witness answers is not tied to anything: the `Head` it reports and the chain it serves
need not agree.

A fetch stores what one source serves and links the control of the ledger to a local identity.
-/

namespace Mabel.Node

open Wire Proto Net

variable {C : Crypto}

/-! ## What a witness answers -/

/-- Why asking a witness ended the query. -/
inductive SyncError (C : Crypto) where
  | core (error : CoreError C)
  | peerUnreachable (peer : EndpointId C)
  /-- The served chain does not verify. -/
  | invalidChain (peer : EndpointId C) (violation : Violation C)
  | wrongLedger (peer : EndpointId C)
  /-- A local event lost a race. -/
  | staleHead (localSeq observedSeq : Nat) (source : EndpointId C)
  deriving DecidableEq

/-- A wallet failure on the way of a query. -/
def SyncError.wallet (error : WalletError C) : SyncError C := .core (.wallet error)

/-- One witness: what it answers, and what the clock reads while it is asked. -/
structure Witness (C : Crypto) where
  endpoint : EndpointId C
  /-- Where it says the ledger ends. -/
  head : Outcome (SyncError C) (Option Net.Head)
  /-- What it serves of the ledger, over all pages. -/
  served : Outcome (SyncError C) (Option (List Bytes))
  /-- The local identity whose key the served chain names a controller of it. -/
  controller : Option IdentityId
  loaded : Nat
  truncated : Nat
  noted : LoadClock
  stored : StoreClock

/-- Fold a run a peer served and refuse anything that does not verify. -/
def verified (peer : EndpointId C) (ledger : LedgerId) (events : List Bytes) :
    Outcome (SyncError C) (LoadedLedger C) :=
  match fold C events with
  | .error (.panic site) => Outcome.panic site
  | .ok (_, some violation) => Outcome.reject (.invalidChain peer violation)
  | .ok (state, none) => do
    Outcome.rejectIf (state.ledger ≠ some ledger) (.wrongLedger peer)
    LoadedLedger.fold ledger events

/-- Every event a witness holds of a ledger, verified from nothing. -/
def candidate (ledger : LedgerId) (witness : Witness C) :
    Outcome (SyncError C) (Option (LoadedLedger C)) := do
  let served ← witness.served
  match served with
  | none => .ok none
  | some [] => .ok none
  | some events => do
    let chain ← verified witness.endpoint ledger events
    .ok (some chain)

/-- How many leading events two runs share byte for byte. -/
def sharedPrefix (left right : List Bytes) : Nat :=
  ((left.zip right).takeWhile fun pair => decide (pair.1 = pair.2)).length

/-! ## The query -/

/-- What a query found. -/
inductive Freshness where
  | upToDate
  | fastForwarded (headSeq : Nat)
  deriving DecidableEq, Repr

/-- The reported head lies on the local copy: the witness holds a prefix of it. -/
def reportsPrefix (loaded : LoadedLedger C) (head : Net.Head) : Bool :=
  decide (head.headSeq ≤ loaded.headSeq) &&
    decide (loaded.eventIds[head.headSeq]?.join = some head.headEvent)

/-- Store the chain a witness served and link the control of it. -/
def storeServed (setup : Setup) (lock ledger : LedgerId) (witness : Witness C)
    (chain : LoadedLedger C) : OnCore C (SyncError C) Nat := do
  let stored ← onStore ((storeEvents setup lock
    ⟨ledger, chain.events, some witness.endpoint, witness.stored⟩).mapReject SyncError.core)
  Program.ask (CoreOp.linkControl ledger witness.controller)
  pure stored

/-- Take what a witness served: fast-forward the local copy where it is a prefix, and replace
what conflicts otherwise. -/
def takeServed (setup : Setup) (lock ledger : LedgerId) (witness : Witness C)
    (freshness : Freshness) (loaded : LoadedLedger C) (head : Net.Head) (chain : LoadedLedger C) :
    OnCore C (SyncError C) Freshness :=
  let shared := sharedPrefix loaded.events chain.events
  if shared = loaded.events.length then do
    let stored ← storeServed setup lock ledger witness chain
    pure (if stored > 0 then .fastForwarded chain.headSeq else freshness)
  else do
    onStore ((truncate setup lock ⟨ledger, shared - 1, witness.truncated, witness.noted⟩).mapReject
      SyncError.core)
    let _ ← storeServed setup lock ledger witness chain
    Program.lift (Outcome.reject (.staleHead loaded.headSeq head.headSeq witness.endpoint))

/-- Ask one witness where the ledger ends and bring the local copy in line. -/
def freshenFrom (setup : Setup) (lock ledger : LedgerId) (freshness : Freshness)
    (witness : Witness C) : OnCore C (SyncError C) Freshness := do
  let loaded ← onStore ((onLedger ledger (load (setup.ledger ledger) witness.loaded)).mapReject
    SyncError.wallet)
  let head ← Program.lift witness.head
  match head with
  | none => pure freshness
  | some head =>
    -- A witness that holds a prefix of the local copy leaves the rest for this node to push.
    if reportsPrefix loaded head then pure freshness
    else do
      let chain ← Program.lift (candidate ledger witness)
      match chain with
      | none => pure freshness
      | some chain => takeServed setup lock ledger witness freshness loaded head chain

/-- Ask witnesses in turn. -/
def askWitnesses (setup : Setup) (lock ledger : LedgerId) (freshness : Freshness) :
    List (Witness C) → OnCore C (SyncError C) Freshness
  | [] => pure freshness
  | witness :: witnesses => do
    let freshness ← freshenFrom setup lock ledger freshness witness
    askWitnesses setup lock ledger freshness witnesses

/-- Ask every witness before an append, for a caller that holds an append lock. -/
def ensureFreshLocked (setup : Setup) (lock ledger : LedgerId) (witnesses : List (Witness C)) :
    OnCore C (SyncError C) Freshness := askWitnesses setup lock ledger .upToDate witnesses

/-! ## Fetching -/

/-- The active keys of a home: what reading the `active.key` of an identity gives. -/
abbrev ActiveKeys (C : Crypto) := IdentityId → Option (SecretKey C)

namespace NodeHome

/-- Every identity of a home that holds an active key of its own, sorted. -/
def keyedIdentities (home : NodeHome C) : List IdentityId :=
  home.identities.keys.filter fun identity => home.keysItself identity

/-- The active key that signs for an identity. -/
def identityActiveKey (home : NodeHome C) (keys : ActiveKeys C) (identity : IdentityId) :
    Option (SecretKey C) := keys (home.signingIdentity identity)

/-- The local identity whose own active key a fold names a controller of a ledger. Ties go to the
lowest id. -/
def localController (home : NodeHome C) (keys : ActiveKeys C) (ledger : LedgerId)
    (state : LedgerState C) : Option IdentityId :=
  let controllers := state.controllerKeys
  if controllers = [] then none
  else
    home.keyedIdentities.find? fun identity =>
      decide (identity ≠ ledger) && (home.identityActiveKey keys identity).any fun secret =>
        decide (secret.publicKey ∈ controllers)

/-- Record whether a stored ledger is one this home may append to, and answer the local identity
whose key signs for it. -/
def linkLocalControl (home : NodeHome C) (keys : ActiveKeys C) (loaded : LoadedLedger C) :
    Option IdentityId × NodeHome C :=
  if home.keysItself loaded.ledger then (none, home)
  else
    let controller := home.localController keys loaded.ledger loaded.state
    (controller, home.linkControl loaded.ledger controller)

end NodeHome

/-- Why a fetch failed. -/
inductive FetchError (C : Crypto) where
  | sync (error : SyncError C)
  /-- The source does not hold the ledger. -/
  | ledgerNotHeld (ledger : LedgerId) (source : EndpointId C)
  deriving DecidableEq

/-- What one ledger fetch produced. -/
structure Fetched (C : Crypto) where
  ledger : LedgerId
  source : EndpointId C
  /-- Events the source served. -/
  eventCount : Nat
  /-- Events this fetch newly stored. -/
  stored : Nat
  /-- The head after storing. -/
  headSeq : Nat
  headEvent : EventId
  fetchedAtMs : Nat
  /-- The local identity whose key signs for this ledger. -/
  controlledBy : Option IdentityId

/-- Fetch a ledger from one source, verify it from nothing and store it. -/
def LedgerStorage.fetch (s : LedgerStorage C) (keys : ActiveKeys C) (ledger : LedgerId)
    (source : Witness C) (now : Nat) : Outcome (FetchError C) (Fetched C) × LedgerStorage C :=
  match candidate ledger source with
  | .error (.panic site) => (Outcome.panic site, s)
  | .error (.reject error) => (Outcome.reject (.sync error), s)
  | .ok none => (Outcome.reject (.ledgerNotHeld ledger source.endpoint), s)
  | .ok (some candidate) =>
    -- The append lock of the ledger is held from here on.
    match Program.run StoreOp.exec (storeEvents s.setup ledger
      ⟨ledger, candidate.events, some source.endpoint, source.stored⟩) s with
    | (.error (.panic site), t) => (Outcome.panic site, t)
    | (.error (.reject error), t) => (Outcome.reject (.sync (.core error)), t)
    | (.ok stored, t) =>
      let linked := t.home.linkLocalControl keys candidate
      (.ok
        { ledger := ledger
          source := source.endpoint
          eventCount := candidate.events.length
          stored := stored
          headSeq := candidate.headSeq
          headEvent := candidate.headEvent
          fetchedAtMs := now
          controlledBy := linked.1 },
        { t with home := linked.2 })

end Mabel.Node
