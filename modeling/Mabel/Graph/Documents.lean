import Mabel.Core.SortedMap
import Mabel.Node.Verify
import Mathlib.Data.String.Basic

/-!
# The documents of a crawl

One document for every node, one summary for the whole of a crawl, and the paths a lookup reads
off them. Ids are spelled the way documents spell them.
-/

namespace Mabel.Crawl

open Node

/-! ## Nodes -/

/-- One outgoing attestation, as the signing ledger recorded it. -/
structure GraphEdge where
  subject : String
  attestationEvent : String
  seq : Nat
  deriving DecidableEq

/-- One local root and how far a node is from it, over the edges that were stored. -/
structure RootDepth where
  root : String
  depth : Nat
  deriving DecidableEq

/-- The attestation that put a node in the frontier. -/
structure DiscoveredVia where
  identity : String
  attestationEvent : String
  deriving DecidableEq

/-- One identity as one crawl saw it. -/
structure GraphNode where
  identityId : String
  declaredKind : Option DeclaredKind
  displayName : Option String
  hostname : Option String
  email : Option String
  headSeq : Option Nat
  headEvent : Option String
  /-- Edges from the nearest local root. -/
  depth : Nat
  /-- Every local root that reaches this node, ascending by root id. -/
  roots : List RootDepth
  discoveredVia : Option DiscoveredVia
  source : Option FetchSource
  fetchedAtMs : Option Nat
  status : NodeStatus
  equivocation : Option Equivocation
  detail : Option String
  edges : List GraphEdge
  deriving DecidableEq

/-! ## Generations -/

/-- Why a crawl stopped short of the graph it could have walked. -/
inductive TruncatedBy where
  /-- Attestations pointed past the depth the run was given. -/
  | depth
  | nodes
  | fetches
  /-- The whole-run clock ran out. -/
  | time
  deriving DecidableEq

/-- The counts and caps of one crawl. -/
structure GraphSummary where
  syncId : String
  lastSyncMs : Nat
  depth : Nat
  roots : List String
  nodeCount : Nat
  edgeCount : Nat
  fetchCount : Nat
  truncated : Bool
  truncatedBy : Option TruncatedBy
  equivocations : List String
  deriving DecidableEq

/-- One crawl, in memory. -/
structure Generation where
  summary : GraphSummary
  nodes : SortedMap String GraphNode

/-! ## Paths -/

/-- One step of a path: the ledger that attested, the identity it named and the attestation. -/
structure PathHop where
  fromId : String
  toId : String
  attestationEvent : String
  deriving DecidableEq

/-- One path, its hops in order. -/
structure GraphPath where
  hops : List PathHop
  deriving DecidableEq

/-- Edges in a path. -/
def GraphPath.degrees (path : GraphPath) : Nat := path.hops.length

end Mabel.Crawl
