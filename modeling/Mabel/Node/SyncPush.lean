import Mabel.Ledger.Link
import Mabel.Net.Client
import Mabel.Node.Bindings
import Mabel.Node.Peers
import Mabel.Node.Sync

/-!
# Pushing a ledger to its witnesses

A push offers every event of a ledger to one endpoint after another and reports what came of each: an
endpoint that cannot be reached is a row of the report, never a failure. What answered is kept as a
hint of where to look next time. Where events were stored, the witness identities that the ledger
names are asked for, to learn which of the endpoints their own ledgers vouch for.
-/

namespace Mabel.Net

/-! ## Errors a person reads -/

/-- The name of a rejection code. -/
def RejectCode.asStrName : RejectCode → String
  | .unspecified => "REJECT_CODE_UNSPECIFIED"
  | .malformed => "MALFORMED"
  | .tooLarge => "TOO_LARGE"
  | .invalid => "INVALID"
  | .fork => "FORK"
  | .unsupported => "UNSUPPORTED"
  | .notAdmitted => "NOT_ADMITTED"
  | .busy => "BUSY"

/-- A rejection on one line. -/
def Rejection.display (rejection : Rejection) : String :=
  rejection.code.asStrName ++ (if rejection.atSeq ≠ 0 then s!" at seq {rejection.atSeq}" else "") ++
    (if rejection.msg ≠ "" then s!": {rejection.msg}" else "")

/-- A failed call on one line. -/
def ClientError.display : ClientError → String
  | .connection => "the connection failed"
  | .responseTooLarge => s!"the response frame is over the {maxFrameBytes}-byte cap"
  | .malformed error => s!"the response is not a valid Response: {error.display}"
  | .rejected rejection => s!"the peer rejected the request: {rejection.display}"
  | .unexpectedResponse sent got => s!"the peer answered {got} to a {sent} request"
  | .protocol msg => s!"the peer broke the protocol: {msg}"
  | .pushTooLarge events bytes =>
    s!"the push carries {events} events and {bytes} bytes, over the " ++
      s!"{maxPushEvents}-event and {maxPushBytes}-byte caps"

/-- Why a peer did not answer. -/
inductive NetError where
  /-- The endpoint could not reach the peer. -/
  | connect
  | call (error : ClientError)
  deriving DecidableEq, Repr

/-- The one line a person reads about a peer that did not answer. -/
def peerMessage {C : Crypto} (endpoint : EndpointId C) : NetError → String
  | .connect => s!"no route to {renderId endpoint.raw}: connecting to the peer failed"
  | .call error => s!"{renderId endpoint.raw} did not answer: {error.display}"

end Mabel.Net

namespace Mabel.Node

open Wire Net

variable {C : Crypto} {σ : Type}

/-! ## Reports -/

/-- What a witness did with a push. -/
inductive PushStatus where
  /-- The witness stored the events, or already held them. -/
  | accepted
  | rejected
  /-- No answer from the endpoint. -/
  | unreachable
  deriving DecidableEq, Repr

/-- One endpoint's outcome inside a push report. -/
structure PushResult where
  endpoint : String
  status : PushStatus
  /-- Whether a witness identity's own ledger names this endpoint, on evidence that did not come
  from the endpoint itself. -/
  binding : Binding
  /-- The head it reports. -/
  headSeq : Option Nat
  /-- Events it stored from this push. -/
  stored : Nat
  rejectCode : Option String
  atSeq : Option Nat
  message : Option String
  deriving DecidableEq, Repr

namespace PushResult

/-- The row of an endpoint that did not answer. -/
def unreachable (endpoint : EndpointId C) (error : NetError) : PushResult where
  endpoint := renderId endpoint.raw
  status := .unreachable
  binding := .hinted
  headSeq := none
  stored := 0
  rejectCode := none
  atSeq := none
  message := some s!"Network error: {peerMessage endpoint error}"

/-- The row of an endpoint that was asked. -/
def ofAnswer (endpoint : EndpointId C) : Except ClientError PushOutcome → PushResult
  | .ok outcome =>
    { endpoint := renderId endpoint.raw
      status := .accepted
      binding := .hinted
      headSeq := some outcome.headSeq
      stored := outcome.stored
      rejectCode := none
      atSeq := none
      message := none }
  | .error (.rejected rejection) =>
    { endpoint := renderId endpoint.raw
      status := .rejected
      binding := .hinted
      headSeq := none
      stored := 0
      rejectCode := some rejection.code.asStrName
      atSeq := some rejection.atSeq
      message := some rejection.msg }
  | .error error => unreachable endpoint (.call error)

end PushResult

/-- What a push reports. -/
structure PushReport where
  ledger : LedgerId
  /-- The head this node holds. -/
  headSeq : Nat
  headEvent : EventId
  /-- One entry per endpoint, in the order they were tried. -/
  results : List PushResult
  deriving DecidableEq

/-! ## Operations -/

/-- What comes of dialling a peer under the request deadline. -/
inductive Dial where
  | connected
  | unreachable
  | late
  deriving DecidableEq, Repr

/-- One operation of a push. -/
inductive PushOp (C : Crypto) where
  | store (op : StoreOp C)
  | connect (peer : EndpointId C)
  /-- Send a frame over the connection to a peer. -/
  | send (peer : EndpointId C) (frame : Bytes)
  | now
  | readPeers
  | writePeers (peers : Peers C)
  | readBindings (identity : IdentityId)
  | recordBinding (observation : Observation C)

/-- What an operation replies. A file that cannot be read is no reply. -/
def PushOp.Reply : PushOp C → Type
  | .store op => op.Reply
  | .connect _ => Dial
  | .send .. => Option Bytes
  | .now => Nat
  | .readPeers => Option (Peers C)
  | .writePeers _ => Unit
  | .readBindings _ => Option (Option (Bindings C))
  | .recordBinding _ => Unit

/-- What is outside the wallet: the peers, the clock and whether its files can be used. -/
structure PushWorld (C : Crypto) (σ : Type) where
  dial : EndpointId C → σ → Dial × σ
  peer : EndpointId C → Peer σ
  now : σ → Nat × σ
  readsPeers : σ → Bool
  writesPeers : σ → Bool
  readsBindings : IdentityId → σ → Bool
  writesBindings : IdentityId → σ → Bool

/-- What a push works on. -/
structure PushState (C : Crypto) (σ : Type) where
  home : LedgerStorage C
  /-- `peers.json`. -/
  peers : Peers C
  /-- The files under `bindings/`. -/
  bindings : BindingsDir C
  net : σ

/-- What an operation does. A write that fails is logged and nothing else. -/
def PushOp.exec (world : PushWorld C σ) : (op : PushOp C) → PushState C σ → op.Reply × PushState C σ
  | .store op, s => ((op.exec s.home).1, { s with home := (op.exec s.home).2 })
  | .connect peer, s => ((world.dial peer s.net).1, { s with net := (world.dial peer s.net).2 })
  | .send peer frame, s =>
    ((world.peer peer frame s.net).1, { s with net := (world.peer peer frame s.net).2 })
  | .now, s => ((world.now s.net).1, { s with net := (world.now s.net).2 })
  | .readPeers, s => (if world.readsPeers s.net then some s.peers else none, s)
  | .writePeers peers, s => ((), if world.writesPeers s.net then { s with peers := peers } else s)
  | .readBindings identity, s =>
    (if world.readsBindings identity s.net then some (s.bindings.get? identity) else none, s)
  | .recordBinding observation, s =>
    ((), if world.readsBindings observation.identity s.net &&
        world.writesBindings observation.identity s.net then
      { s with bindings := (s.bindings.record observation).2 }
    else s)

/-- Why a push was not reported. -/
inductive PushError (C : Crypto) where
  | noWitnessConfigured (ledger : LedgerId)
  | wallet (error : WalletError C)
  /-- A peer never came to the end of a ledger. -/
  | unfinished
  deriving DecidableEq

/-- A program of a push. -/
abbrev OnPush (C : Crypto) (α : Type) := Program (PushOp C) PushOp.Reply (PushError C) α

/-- Work on the home. -/
def onHome {ε α : Type} : OnNode C ε α → Program (PushOp C) PushOp.Reply ε α
  | .done result => .done result
  | .perform op next => .perform (.store op) fun reply => onHome (next reply)

/-- A call over the connection to a peer. -/
def onPeer {α : Type} (peer : EndpointId C) : Call α → Program (PushOp C) PushOp.Reply Stop α
  | .done result => .done result
  | .perform frame next => .perform (.send peer frame) fun reply => onPeer peer (next reply)

/-- How a call ended, if it did. -/
def settled {α : Type} : Outcome Stop α → Outcome (PushError C) (Except ClientError α)
  | .ok a => .ok (.ok a)
  | .error (.reject (.failed error)) => .ok (.error error)
  | .error (.reject .unfinished) => Outcome.reject .unfinished
  | .error (.panic site) => Outcome.panic site

/-- Make a call and take it as it ends. -/
def calling {α : Type} (peer : EndpointId C) (call : Call α) : OnPush C (Except ClientError α) := do
  let outcome ← (onPeer peer call).conclude id
  Program.lift (settled outcome)

/-! ## One peer -/

/-- The network side of a wallet, dialled per request. -/
structure WalletSync where
  /-- How long a dial may take, in seconds. -/
  timeout : Nat
  deriving DecidableEq, Repr

/-- `REQUEST_TIMEOUT`, in seconds. -/
def requestTimeout : Nat := 10

/-- `BINDING_SOURCES`: how many sources a push asks for a witness identity's own ledger. -/
def bindingSources : Nat := 3

namespace WalletSync

/-- A sync client under the request deadline. -/
def new : WalletSync := ⟨requestTimeout⟩

variable (sync : WalletSync)

/-- Connect to one peer under the request deadline. -/
def connect (peer : EndpointId C) : OnPush C (Option NetError) := do
  match ← Program.ask (PushOp.connect peer) with
  | .connected => pure none
  | .unreachable => pure (some .connect)
  | .late => pure (some (.call (.protocol
      s!"no route to {renderId peer.raw} after {sync.timeout}s")))

/-- One endpoint's outcome, never an error. -/
def pushOne (witness : EndpointId C) (ledger : LedgerId) (events : List Bytes) :
    OnPush C PushResult := do
  match ← sync.connect witness with
  | some error => pure (.unreachable witness error)
  | none => do
    let answer ← calling witness (Client.push C ledger events)
    pure (.ofAnswer witness answer)

/-- Push to endpoints in order. -/
def pushEach (ledger : LedgerId) (events : List Bytes) :
    List (EndpointId C) → OnPush C (List PushResult)
  | [] => pure []
  | witness :: witnesses => do
    let result ← sync.pushOne witness ledger events
    let results ← pushEach ledger events witnesses
    pure (result :: results)

/-- Every event one peer holds of a ledger, verified from nothing. -/
def candidate (rounds : Nat) (peer : EndpointId C) (ledger : LedgerId) :
    OnPush C (Except (SyncError C) (Option (LoadedLedger C))) := do
  match ← sync.connect peer with
  | some _ => pure (.error (.peerUnreachable peer))
  | none => do
    match ← calling peer (Client.getAll C rounds ledger 0) with
    | .error _ => pure (.error (.peerUnreachable peer))
    | .ok served =>
      let events := served.getD []
      if events = [] then pure (.ok none)
      else
        match verified peer ledger events with
        | .ok candidate => pure (.ok (some candidate))
        | .error (.reject error) => pure (.error error)
        | .error (.panic site) => Program.lift (Outcome.panic site)

end WalletSync

/-! ## Hints -/

/-- Note what came of one endpoint. A rejection is an answer about the ledger, not about the
machine, and an endpoint the caller named is left out. -/
def noteResult (ledger : LedgerId) (caller : List (EndpointId C)) (now : Nat) (peers : Peers C)
    (row : EndpointId C × PushResult) : Peers C :=
  if row.1 ∈ caller then peers
  else
    match row.2.status with
    | .accepted => peers.recordSuccess ledger row.1 now
    | .unreachable => (peers.recordFailure ledger row.1).2
    | .rejected => peers

/-- Write what a push found back into `peers.json`. -/
def recordHints (ledger : LedgerId) (witnesses caller : List (EndpointId C))
    (results : List PushResult) : OnPush C Unit := do
  match ← Program.ask PushOp.readPeers with
  | none => pure ()
  | some before => do
    let now ← Program.ask PushOp.now
    let noted := (witnesses.zip results).foldl (noteResult ledger caller now) before
    let peers := (noted.prune now).2
    if peers.ledgers = before.ledgers then pure () else Program.ask (PushOp.writePeers peers)

/-! ## Bindings -/

/-- The endpoints to ask for a witness identity's own ledger, each once, those this home did not just
push to first. -/
def sourcesFor (hints accepted : List (EndpointId C)) : List (EndpointId C) :=
  let sources := (hints ++ accepted).foldl (fun sources endpoint =>
    if endpoint ∈ sources then sources else sources ++ [endpoint]) []
  sources.insertionSort fun a b => a ∈ accepted → b ∈ accepted

/-- The endpoints that accepted a push. -/
def acceptedBy (witnesses : List (EndpointId C)) (results : List PushResult) :
    List (EndpointId C) :=
  ((witnesses.zip results).filter fun row => row.2.status = .accepted).map Prod.fst

/-- Label the rows of the endpoints that a record binds. -/
def labelled (bindings : Bindings C) (witnesses : List (EndpointId C)) (results : List PushResult) :
    List PushResult :=
  (witnesses.zip results).map fun row =>
    if bindings.binding row.1 = .verified then { row.2 with binding := .verified } else row.2

namespace WalletSync

variable (sync : WalletSync)

/-- Ask sources for a witness identity's ledger until one serves it, and record what it
advertises. -/
def askSources (rounds : Nat) (witness : IdentityId) : List (EndpointId C) → OnPush C Unit
  | [] => pure ()
  | source :: sources => do
    match ← sync.candidate rounds source witness with
    | .ok (some candidate) => do
      let now ← Program.ask PushOp.now
      Program.ask (PushOp.recordBinding ⟨witness, candidate.headSeq, candidate.headEvent,
        endpoints candidate.state, source, now, true⟩)
    | _ => askSources rounds witness sources

/-- Fetch one witness identity's own ledger and record what it advertises. -/
def observeWitnessLedger (rounds : Nat) (witness : IdentityId) (accepted : List (EndpointId C)) :
    OnPush C Unit := do
  match ← Program.ask PushOp.readPeers with
  | none => sync.askSources rounds witness ((sourcesFor [] accepted).take bindingSources)
  | some peers => do
    let now ← Program.ask PushOp.now
    sync.askSources rounds witness
      ((sourcesFor (peers.hintsAt witness now) accepted).take bindingSources)

/-- Label the rows of a report by the ledgers of witness identities. -/
def labelNamed (rounds : Nat) (stored : Bool) (witnesses accepted : List (EndpointId C)) :
    List IdentityId → List PushResult → OnPush C (List PushResult)
  | [], results => pure results
  | witness :: named, results => do
    (if stored then sync.observeWitnessLedger rounds witness accepted else pure ())
    match ← Program.ask (PushOp.readBindings witness) with
    | some (some bindings) =>
      labelNamed rounds stored witnesses accepted named (labelled bindings witnesses results)
    | _ => labelNamed rounds stored witnesses accepted named results

/-- Label what a push found. Nothing here can fail a push that ends. -/
def labelBindings (rounds : Nat) (loaded : LoadedLedger C) (witnesses : List (EndpointId C))
    (results : List PushResult) : OnPush C (List PushResult) :=
  let stored := results.any fun result => decide (result.status = .accepted ∧ result.stored > 0)
  sync.labelNamed rounds stored witnesses (acceptedBy witnesses results)
    (witnessIdentities loaded.state) results

/-- Push every event of a ledger to each witness in order, told which of them the caller named. -/
def pushFrom (rounds : Nat) (setup : Setup) (ledger : LedgerId)
    (witnesses caller : List (EndpointId C)) (rebuilt : Nat) : OnPush C PushReport := do
  Program.lift (Outcome.rejectIf (witnesses = []) (.noWitnessConfigured ledger))
  let loaded ← onHome ((onLedger ledger (load (setup.ledger ledger) rebuilt)).mapReject
    PushError.wallet)
  Program.lift (Outcome.mapReject PushError.wallet (requireValid loaded))
  let results ← sync.pushEach ledger loaded.events witnesses
  recordHints ledger witnesses caller results
  let results ← sync.labelBindings rounds loaded witnesses results
  pure ⟨ledger, loaded.headSeq, loaded.headEvent, results⟩

end WalletSync

end Mabel.Node
