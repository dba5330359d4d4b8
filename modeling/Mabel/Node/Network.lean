import Mabel.Ledger.Correctness.Chain
import Mabel.Node.NodeStore

/-!
# Nodes that serve, and the chain they hold

Any number of nodes answer request frames, each over its own home and one frame at a time. Frames
may come from anybody, late, twice, out of order or not at all. The chain of one ledger grows where
its controllers sign; what is asked of everybody else is that they cannot sign in their name.
-/

namespace Mabel.Node

open Wire Net Machine

variable {C : Crypto} {ι : Type}

/-- A request frame that reaches a node. -/
structure Arrival (ι : Type) (C : Crypto) where
  node : ι
  frame : Bytes
  /-- Whether the node has a verification slot free. -/
  free : Bool
  provenance : Provenance C
  loads : LoadClock
  clock : Clock

/-- Nodes that serve, and the chain of one ledger as far as it is signed. -/
structure Network (ι : Type) (C : Crypto) where
  chain : List Bytes
  nodes : ι → LedgerStorage C

/-- Where an event applies to a beginning of the chain, it is the next event of the chain. Whoever
cannot sign for the controllers has no others. -/
def Authored (ledger : LedgerId) (chain : List Bytes) (event : Bytes) : Prop :=
  ∀ k ≤ chain.length, ∀ before after : LedgerState C, FoldRun (chain.take k) before →
    before.apply event = .ok after → after.ledger = some ledger → chain[k]? = some event

variable [DecidableEq ι]

/-- The node a frame reaches answers it. -/
def Network.deliver (net : Network ι C) (arrival : Arrival ι C) : Option Bytes × Network ι C :=
  let served := (nodeServer arrival.loads arrival.clock).serveStream arrival.free
    arrival.provenance arrival.frame (net.nodes arrival.node)
  (served.1, { net with nodes := Function.update net.nodes arrival.node served.2 })

/-- What can happen to a network: the chain is signed on, or any frame reaches any node. -/
inductive Network.Step (ledger : LedgerId) : Network ι C → Network ι C → Prop
  | signed {net : Network ι C} (event : Bytes)
      (hvalid : ∃ state, fold C (net.chain ++ [event]) = .ok (state, none)) :
    Network.Step ledger net { net with chain := net.chain ++ [event] }
  | arrived {net : Network ι C} (arrival : Arrival ι C)
      (hauthored : ∀ events, parseRequest C arrival.frame = .ok (.push ledger events) →
        ∀ event ∈ events, Authored (C := C) ledger net.chain event) :
    Network.Step ledger net (net.deliver arrival).2

end Mabel.Node
