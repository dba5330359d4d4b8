import Mabel.Core.Program
import Mabel.Graph.Budget
import Mabel.Graph.Crawl
import Mabel.Node.Peers
import Mabel.Verification.Verify

/-!
# One operation and what it resolves

The fetches of one top-level operation share a dial budget, the witnesses that were resolved and
those being resolved, and the hints file of the home. What else they look at may answer anything
at any time: the local copies, the configuration, the clock, the zone and every endpoint asked.

Resolving a witness dials nothing. Its endpoints are read from what the home already holds.
-/

namespace Mabel.Graph

open Node Crawl Verification

variable {C : Crypto}

/-! ## What a fetch looks at -/

/-- One configured witness and its bootstrap endpoints. -/
structure WitnessEntry (C : Crypto) where
  identity : IdentityId
  endpoints : List (EndpointId C)

/-- What a source answers for a ledger. -/
inductive Served (C : Crypto) where
  | chain (loaded : LoadedLedger C)
  /-- No answer, or none that is this ledger's fault. -/
  | nothing
  | unverified (detail : String)

/-- What stands outside an operation: each answer may depend on when it is asked for. -/
structure World (C : Crypto) where
  expired : Nat → Bool
  now : Nat → Nat
  holds : Nat → LedgerId → Except String Bool
  load : Nat → LedgerId → Except String (LoadedLedger C)
  config : Nat → Except String (List (WitnessEntry C))
  /-- The hostname the stored generation recorded. -/
  generationHostname : Nat → LedgerId → Option String
  lookupTxt : Nat → String → Option (List TxtRecord)
  candidate : Nat → EndpointId C → LedgerId → Served C
  /-- Whether a write of the hints file succeeds. -/
  keeps : Nat → Bool

/-- What the fetches of one operation share. -/
structure Operation (C : Crypto) where
  dials : DialBudget C
  /-- Endpoints of each witness, so that an identity is resolved once. -/
  resolved : SortedMap IdentityId (List (EndpointId C))
  /-- Identities being resolved right now. -/
  resolving : SortedMap IdentityId Unit
  resolutions : Nat
  /-- The hints file. -/
  peers : Except String (Peers C)
  /-- Looks at the world so far. -/
  looks : Nat
  /-- Every endpoint asked for a ledger. No code reads it. -/
  asked : List (EndpointId C)

/-- The start of an operation. -/
def Operation.start (peers : Except String (Peers C)) : Operation C :=
  ⟨.new, .empty, .empty, 0, peers, 0, []⟩

/-- Where the resolution of a witness stands. -/
inductive Resolving (C : Crypto) where
  | resolved (endpoints : List (EndpointId C))
  | underway
  | started

/-- One step of a fetch. -/
inductive FetchOp (C : Crypto) where
  | expired
  | now
  | holds (ledger : LedgerId)
  | load (ledger : LedgerId)
  | readConfig
  | generationHostname (ledger : LedgerId)
  | lookupTxt (name : String)
  | candidate (endpoint : EndpointId C) (ledger : LedgerId)
  | admitDial (source : SourceClass) (endpoint : EndpointId C)
  | startResolving (witness : IdentityId)
  | finishResolving (witness : IdentityId) (endpoints : Option (List (EndpointId C)))
  | readPeers
  /-- Rewrite the hints file under its lock, given two readings of the clock. -/
  | updatePeers (f : Peers C → Nat → Nat → Peers C)

/-- What a step replies. -/
def FetchOp.Reply : FetchOp C → Type
  | .expired => Bool
  | .now => Nat
  | .holds _ => Except String Bool
  | .load _ => Except String (LoadedLedger C)
  | .readConfig => Except String (List (WitnessEntry C))
  | .generationHostname _ => Option String
  | .lookupTxt _ => Option (List TxtRecord)
  | .candidate .. => Served C
  | .admitDial .. => Bool
  | .startResolving _ => Resolving C
  | .finishResolving .. => Unit
  | .readPeers => Except String (Peers C)
  | .updatePeers _ => Unit

/-- Look at the world once more. -/
def Operation.look (s : Operation C) : Operation C := { s with looks := s.looks + 1 }

/-- Perform one step. -/
def FetchOp.exec (world : World C) : (op : FetchOp C) → Operation C → op.Reply × Operation C
  | .expired, s => (world.expired s.looks, s.look)
  | .now, s => (world.now s.looks, s.look)
  | .holds ledger, s => (world.holds s.looks ledger, s.look)
  | .load ledger, s => (world.load s.looks ledger, s.look)
  | .readConfig, s => (world.config s.looks, s.look)
  | .generationHostname ledger, s => (world.generationHostname s.looks ledger, s.look)
  | .lookupTxt name, s => (world.lookupTxt s.looks name, s.look)
  | .candidate endpoint ledger, s =>
    (world.candidate s.looks endpoint ledger, { s.look with asked := s.asked ++ [endpoint] })
  | .admitDial source endpoint, s =>
    ((s.dials.admitDial source endpoint).1,
      { s with dials := (s.dials.admitDial source endpoint).2 })
  | .startResolving witness, s =>
    match s.resolved.get? witness with
    | some endpoints => (.resolved endpoints, s)
    | none =>
      if (s.resolving.get? witness).isSome then (.underway, s)
      else
        (.started, { s with
          resolving := s.resolving.insert witness ()
          resolutions := s.resolutions + 1 })
  | .finishResolving witness endpoints, s =>
    ((), { s with
      resolving := s.resolving.remove witness
      resolved := endpoints.elim s.resolved (s.resolved.insert witness) })
  | .readPeers, s => (s.peers, s)
  | .updatePeers f, s =>
    match s.peers with
    | .error _ => ((), s)
    | .ok peers =>
      ((), { s.look.look with
        peers := .ok
          (if world.keeps s.looks then f peers (world.now s.looks) (world.now (s.looks + 1))
          else peers) })

/-- A program over one operation. -/
abbrev OnOperation (C : Crypto) (ε α : Type) := Program (FetchOp C) FetchOp.Reply ε α

/-- An answer, or the error in its place. -/
def demanded {α : Type} : Except String α → OnOperation C String α
  | .ok a => pure a
  | .error detail => Program.lift (Outcome.reject detail)

namespace Ask

def expired {ε : Type} : OnOperation C ε Bool := Program.ask FetchOp.expired
def now {ε : Type} : OnOperation C ε Nat := Program.ask FetchOp.now
def holds (ledger : LedgerId) : OnOperation C String Bool :=
  Program.ask (FetchOp.holds ledger) >>= demanded
def load {ε : Type} (ledger : LedgerId) : OnOperation C ε (Except String (LoadedLedger C)) :=
  Program.ask (FetchOp.load ledger)
def config : OnOperation C String (List (WitnessEntry C)) :=
  Program.ask FetchOp.readConfig >>= demanded
def generationHostname {ε : Type} (ledger : LedgerId) : OnOperation C ε (Option String) :=
  Program.ask (FetchOp.generationHostname ledger)
def lookupTxt {ε : Type} (name : String) : OnOperation C ε (Option (List TxtRecord)) :=
  Program.ask (FetchOp.lookupTxt name)
def candidate {ε : Type} (endpoint : EndpointId C) (ledger : LedgerId) :
    OnOperation C ε (Served C) := Program.ask (FetchOp.candidate endpoint ledger)
def admitDial {ε : Type} (source : SourceClass) (endpoint : EndpointId C) : OnOperation C ε Bool :=
  Program.ask (FetchOp.admitDial source endpoint)
def startResolving {ε : Type} (witness : IdentityId) : OnOperation C ε (Resolving C) :=
  Program.ask (FetchOp.startResolving witness)
def finishResolving {ε : Type} (witness : IdentityId)
    (endpoints : Option (List (EndpointId C))) : OnOperation C ε Unit :=
  Program.ask (FetchOp.finishResolving witness endpoints)
def peers : OnOperation C String (Peers C) := Program.ask FetchOp.readPeers >>= demanded
def updatePeers {ε : Type} (f : Peers C → Nat → Nat → Peers C) : OnOperation C ε Unit :=
  Program.ask (FetchOp.updatePeers f)

end Ask

/-! ## Witnesses -/

/-- Add an endpoint that is not there yet. -/
def pushNew (endpoints : List (EndpointId C)) (endpoint : EndpointId C) : List (EndpointId C) :=
  if endpoint ∈ endpoints then endpoints else endpoints ++ [endpoint]

/-- The endpoints a local copy of a witness names, when it verifies. -/
def copyEndpoints (witness : IdentityId) : Except String (LoadedLedger C) → List (EndpointId C)
  | .ok loaded =>
    if loaded.events ≠ [] ∧ loaded.violation = none ∧ loaded.state.ledger = some witness then
      Node.endpoints loaded.state ++ loaded.state.witnessEndpoints
    else []
  | .error _ => []

/-- The bootstrap endpoints of a configured witness. -/
def bootstrapEndpoints (config : List (WitnessEntry C)) (witness : IdentityId) :
    List (EndpointId C) :=
  (config.find? fun entry => entry.identity = witness).elim [] WitnessEntry.endpoints

/-- Read the endpoints of a witness off what the home holds. -/
def resolveWitness (callerHints : List (EndpointId C)) (witness : IdentityId) :
    OnOperation C String (List (EndpointId C)) := do
  let peers ← Ask.peers
  let now ← Ask.now
  let copy ← Ask.load witness
  let config ← Ask.config
  pure ((callerHints ++ peers.hintsAt witness now ++ copyEndpoints witness copy ++
    bootstrapEndpoints config witness).foldl pushNew [])

/-- The endpoints of a witness, resolved once in an operation. One being resolved yields none. -/
def witnessEndpoints (callerHints : List (EndpointId C)) (witness : IdentityId) :
    OnOperation C String (List (EndpointId C)) := do
  match ← Ask.startResolving witness with
  | .resolved endpoints => pure endpoints
  | .underway => pure []
  | .started => do
    let resolved ← (resolveWitness callerHints witness).conclude id
    Ask.finishResolving witness resolved.toOption
    Program.lift resolved

end Mabel.Graph
