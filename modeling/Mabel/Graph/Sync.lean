import Mabel.Graph.Correctness.Crawled
import Mabel.Graph.Correctness.Publishing

/-!
# Syncing the graph

A sync crawls outward from the identities of a home under the fixed caps and publishes what it
saw: one file for the summary of the crawl and one for each of its nodes. It runs when a person
asks for it and at no other time.
-/

namespace Mabel.Graph

open Node Crawl Wire Program

variable {C : Crypto}

/-! ## The files of a crawl -/

/-- What one file of a generation tells. -/
inductive Document where
  | node (node : Crawl.GraphNode)
  | summary (summary : Crawl.GraphSummary)
  deriving DecidableEq

/-- Every node of a crawl stands under its own identity. -/
theorem keyed_crawlWith (fetcher : Fetcher C) (options : CrawlOptions) (expired : Nat → Bool)
    (suffix : Bytes) (roots : List LedgerId) :
    (crawlWith fetcher options expired suffix roots).Keyed := by
  intro identity node hnode
  obtain ⟨ledger, depth, outcome, -, rfl, rfl⟩ := (get?_buildNodes identity node).mp hnode
  rfl

/-- The files of a crawl. -/
def published (generation : Crawl.Generation) (hkeyed : generation.Keyed) :
    Generation Document where
  summary := ⟨generation.summary.syncId, generation.summary.lastSyncMs,
    .summary generation.summary⟩
  nodes := ⟨generation.nodes.mapValues fun node => ⟨node.identityId, .node node⟩, by
    intro identity file h
    rw [SortedMap.get?_mapValues] at h
    obtain ⟨node, hnode, rfl⟩ := Option.map_eq_some_iff.mp h
    exact hkeyed identity node hnode⟩

/-! ## One sync -/

/-- Why a sync publishes nothing. -/
inductive SyncError where
  | usage (code message : String)
  | storage (error : GraphError)
  deriving DecidableEq

/-- One sync: the identities of the home, what reads the ledgers, the clocks, the random bytes of
the name and how the directories of a generation are listed. -/
structure SyncCall (C : Crypto) where
  roots : List LedgerId
  fetcher : Fetcher C
  startedAtMs : Nat
  started : startedAtMs ≤ u64Max
  expired : Nat → Bool
  suffix : Block 5
  listing : GraphStore.Listing

namespace SyncCall

/-- What a sync sees. -/
def generation (call : SyncCall C) : Crawl.Generation :=
  crawlWith call.fetcher (.new call.startedAtMs) call.expired call.suffix.bytes call.roots

/-- The files of a sync. -/
def documents (call : SyncCall C) : Generation Document :=
  published call.generation (keyed_crawlWith _ _ _ _ _)

/-- What a sync publishes. -/
def publishCall (call : SyncCall C) : PublishCall Document := (call.documents, call.listing)

end SyncCall

/-- One crawl from every local identity, whose files the pointer is swapped to. -/
def syncGraph (call : SyncCall C) : Program (GraphOp Document) GraphOp.Reply SyncError Unit :=
  if call.roots = [] then
    lift (Outcome.reject (.usage "no_local_identity" "this home holds no identity to crawl from"))
  else (GraphStore.publish call.listing call.documents).mapReject .storage

end Mabel.Graph
