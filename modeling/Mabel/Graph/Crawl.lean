import Mabel.Graph.Paths
import Mabel.Ledger.Link

/-!
# The crawl

A crawl walks outward from the local identities, one level after another in ascending id order.
Four caps bound it: the depth, the nodes, the fetches and a clock that is looked at before every
batch of fetches. What it saw becomes one document for every ledger it read, and a search from
each root over the documents tells which roots reach which nodes.

A fetcher answers for a ledger and the endpoints learned for it. Which ledgers were asked for is
recorded in a list of its own.
-/

namespace Mabel.Crawl

open Node Wire

variable {C : Crypto}

/-! ## Options -/

/-- `DEFAULT_DEPTH`: the depth when a caller names none. -/
def defaultDepth : Nat := 2

/-- `MIN_DEPTH`: the shallowest crawl a caller may ask for. -/
def minDepth : Nat := 1

/-- `MAX_DEPTH`: the deepest crawl a caller may ask for. -/
def maxDepth : Nat := 4

/-- `MAX_NODES`: the nodes one generation holds. -/
def maxNodes : Nat := 500

/-- `MAX_FETCHES`: the ledgers one run reads. -/
def maxFetches : Nat := 300

/-- `IN_FLIGHT`: the fetches running together within one level. -/
def inFlight : Nat := 8

/-- The caps and the clock one crawl runs under. -/
structure CrawlOptions where
  depth : Nat
  maxNodes : Nat
  maxFetches : Nat
  /-- Fetches running together within one level. -/
  inFlight : Nat
  startedAtMs : Nat
  syncId : Option String

/-- The fixed caps, starting at a time. -/
def CrawlOptions.new (startedAtMs : Nat) : CrawlOptions :=
  ⟨defaultDepth, Crawl.maxNodes, Crawl.maxFetches, Crawl.inFlight, startedAtMs, none⟩

/-- The depth a run uses: what was asked for, held inside 1 through 4. -/
def CrawlOptions.boundedDepth (options : CrawlOptions) : Nat :=
  if options.depth < minDepth then minDepth
  else if options.depth > maxDepth then maxDepth
  else options.depth

/-- A generation name: the start timestamp, zero-padded so names sort by age, and a random
suffix. -/
def mintSyncId (startedAtMs : Nat) (suffix : Bytes) : String :=
  let digits := toString startedAtMs
  String.ofList (List.replicate (13 - digits.length) '0') ++ digits ++ "-" ++
    (Base32.encode suffix).toLower

/-! ## Fetching -/

/-- What answers for a ledger, given the endpoints learned for it. -/
structure Fetcher (C : Crypto) where
  fetchCandidate : LedgerId → List (EndpointId C) → FetchOutcome C
  /-- An outcome is about the ledger that was asked for. -/
  own : ∀ ledger learned, (fetchCandidate ledger learned).ledger = ledger

/-- What a crawl has seen. -/
structure Walk (C : Crypto) where
  /-- What came of each ledger, with the level it was read in. -/
  outcomes : SortedMap LedgerId (Nat × FetchOutcome C)
  provenance : SortedMap LedgerId DiscoveredVia
  /-- The endpoints learned for each ledger. -/
  hints : SortedMap LedgerId (List (EndpointId C))
  fetchCount : Nat
  hardStop : Option TruncatedBy
  depthCut : Bool
  /-- How often the clock was looked at. -/
  checks : Nat
  /-- Every ledger the fetcher was asked for. No code reads it. -/
  fetched : List LedgerId

/-- The start of a crawl. -/
def Walk.start : Walk C :=
  ⟨SortedMap.empty, SortedMap.empty, SortedMap.empty, 0, none, false, 0, []⟩

/-- Stop for a reason, unless there is one. -/
def Walk.stop (walk : Walk C) (reason : TruncatedBy) : Walk C :=
  { walk with hardStop := some (walk.hardStop.getD reason) }

/-- The slices of a list of at most a width, given as many rounds as it has elements. -/
def chunksFrom {α : Type} (width : Nat) : Nat → List α → List (List α)
  | 0, _ => []
  | rounds + 1, l => if l = [] then [] else l.take width :: chunksFrom width rounds (l.drop width)

/-- The slices of a list of at most a width. -/
def chunks {α : Type} (width : Nat) (l : List α) : List (List α) := chunksFrom width l.length l

/-- Read the ledgers of one batch together. -/
def fetchBatch (fetcher : Fetcher C) (depth : Nat) (walk : Walk C) (batch : List LedgerId) :
    Walk C :=
  let outcomes := batch.map fun ledger =>
    fetcher.fetchCandidate ledger ((walk.hints.get? ledger).getD [])
  { walk with
    fetchCount := walk.fetchCount + batch.length
    fetched := walk.fetched ++ batch
    outcomes := outcomes.foldl (fun found outcome => found.insert outcome.ledger (depth, outcome))
      walk.outcomes }

/-- Read batch after batch until the clock runs out: whether it did, and what was seen. -/
def fetchBatches (fetcher : Fetcher C) (expired : Nat → Bool) (depth : Nat) :
    List (List LedgerId) → Walk C → Bool × Walk C
  | [], walk => (false, walk)
  | batch :: batches, walk =>
    let checked := { walk with checks := walk.checks + 1 }
    if expired walk.checks then (true, checked.stop .time)
    else fetchBatches fetcher expired depth batches (fetchBatch fetcher depth checked batch)

/-! ## The next level -/

/-- Read an endpoint id a document rendered. -/
def parseEndpointId (C : Crypto) (id : String) : Option (EndpointId C) :=
  ((Base32.decode id.toUpper).bind (Block.ofBytes? idBytes)).bind (PublicKey.fromBytes C)

/-- The endpoint asked, absent for a local read. -/
def endpointOf : FetchSource → Option String
  | .localCopy => none
  | .callerHint endpoint => some endpoint
  | .peerHint endpoint => some endpoint
  | .nodeWitness _ endpoint => some endpoint
  | .ledgerEndpoint endpoint => some endpoint
  | .witnessIdentity _ endpoint => some endpoint
  | .legacyWitnessHint endpoint => some endpoint
  | .dnsEndpoint _ endpoint => some endpoint

/-- A set of ledgers, ascending. -/
abbrev LedgerSet := SortedMap LedgerId Unit

/-- The set a list of ledgers spells. -/
def LedgerSet.of (ledgers : List LedgerId) : LedgerSet :=
  ledgers.foldl (fun set ledger => set.insert ledger ()) SortedMap.empty

/-- Note a subject a ledger attests to for the next level, unless it was read. Where the ledger
was served is a plausible place to find the subject. -/
def expandEdge (depth depthCap : Nat) (ledger : LedgerId) (source : Option (EndpointId C))
    (found : Walk C × LedgerSet) (edge : TrustEdge) : Walk C × LedgerSet :=
  let (walk, next) := found
  if (walk.outcomes.get? edge.subject).isSome then found
  else if depth ≥ depthCap then ({ walk with depthCut := true }, next)
  else
    let provenance :=
      if (walk.provenance.get? edge.subject).isSome then walk.provenance
      else walk.provenance.insert edge.subject
        ⟨ledger.display, edge.attestationEvent.display⟩
    let hints :=
      match source with
      | none => walk.hints
      | some endpoint =>
        let learned := (walk.hints.get? edge.subject).getD []
        walk.hints.insert edge.subject
          (if endpoint ∈ learned then learned else learned ++ [endpoint])
    ({ walk with provenance, hints }, next.insert edge.subject ())

/-- Note the subjects one ledger attests to. -/
def expandLedger (depth depthCap : Nat) (found : Walk C × LedgerSet) (ledger : LedgerId) :
    Walk C × LedgerSet :=
  match found.1.outcomes.get? ledger with
  | none => found
  | some (_, outcome) =>
    let source := (outcome.source.bind endpointOf).bind (parseEndpointId C)
    match outcome.summary with
    | none => found
    | some summary => summary.trust.foldl (expandEdge depth depthCap ledger source) found

/-! ## The levels -/

/-- Cut a level to what the caps on nodes and fetches leave, and note which cap cut it. -/
def cutLevel (options : CrawlOptions) (walk : Walk C) (frontier : List LedgerId) :
    Walk C × List LedgerId :=
  let (walk, level) :=
    if walk.outcomes.entries.length + frontier.length > options.maxNodes then
      (walk.stop .nodes, frontier.take (options.maxNodes - walk.outcomes.entries.length))
    else (walk, frontier)
  if walk.fetchCount + level.length > options.maxFetches then
    (walk.stop .fetches, level.take (options.maxFetches - walk.fetchCount))
  else (walk, level)

/-- Walk level after level. -/
def walkLevels (fetcher : Fetcher C) (options : CrawlOptions) (expired : Nat → Bool) :
    (remaining depth : Nat) → List LedgerId → Walk C → Walk C
  | 0, _, _, walk => walk
  | remaining + 1, depth, frontier, walk =>
    if frontier = [] then walk
    else
      let (walk, level) := cutLevel options walk frontier
      let stopAfterLevel := walk.hardStop.isSome
      match fetchBatches fetcher expired depth (chunks (max options.inFlight 1) level) walk with
      | (true, walk) => walk
      | (false, walk) =>
        let (walk, next) :=
          level.foldl (expandLedger depth options.boundedDepth) (walk, SortedMap.empty)
        if stopAfterLevel then walk
        else walkLevels fetcher options expired remaining (depth + 1) next.keys walk

/-- The whole walk: a level for every depth up to the bounded one. -/
def walkFrom (fetcher : Fetcher C) (options : CrawlOptions) (expired : Nat → Bool)
    (roots : List LedgerId) : Walk C :=
  walkLevels fetcher options expired (options.boundedDepth + 1) 0 (LedgerSet.of roots).keys .start

/-! ## The documents -/

/-- The document of one ledger, before it is known which roots reach it. -/
def nodeOf (ledger : LedgerId) (depth : Nat) (outcome : FetchOutcome C)
    (discoveredVia : Option DiscoveredVia) : GraphNode where
  identityId := ledger.display
  declaredKind := outcome.summary.map LedgerSummary.declaredKind
  displayName := outcome.summary.bind LedgerSummary.displayName
  hostname := outcome.summary.bind LedgerSummary.hostname
  email := outcome.summary.bind LedgerSummary.email
  headSeq := outcome.summary.map LedgerSummary.headSeq
  headEvent := outcome.summary.map fun summary => summary.headEvent.display
  depth := depth
  roots := []
  discoveredVia := discoveredVia
  source := outcome.source
  fetchedAtMs :=
    if outcome.status = .ok ∨ outcome.status = .equivocation then some outcome.fetchedAtMs
    else none
  status := outcome.status
  equivocation := outcome.equivocation
  detail := outcome.detail
  edges := (outcome.summary.elim [] LedgerSummary.trust).map fun edge =>
    ⟨edge.subject.display, edge.attestationEvent.display, edge.seq⟩

/-- Edges from an id to every node it reaches, breadth-first. -/
def distances (nodes : SortedMap String GraphNode) (start : String) : SortedMap String Nat :=
  Search.distances
    (fun identity =>
      match nodes.get? identity with
      | none => []
      | some node => (node.edges.map GraphEdge.subject).filter fun subject =>
        (nodes.get? subject).isSome)
    (nodes.entries.length + 1) start

/-- Record one more root that reaches a node. -/
def pushReach (reach : SortedMap String (List RootDepth)) (e : String × RootDepth) :
    SortedMap String (List RootDepth) :=
  reach.insert e.1 ((reach.get? e.1).getD [] ++ [e.2])

/-- Which nodes a root reaches, if it is a node itself. -/
def reachOf (nodes : SortedMap String GraphNode) (root : LedgerId) : List (String × RootDepth) :=
  if (nodes.get? root.display).isSome then
    (distances nodes root.display).entries.map fun e => (e.1, ⟨root.display, e.2⟩)
  else []

/-- Record on every node which roots reach it and at what distance. -/
def fillRoots (nodes : SortedMap String GraphNode) (roots : LedgerSet) :
    SortedMap String GraphNode :=
  let reach := (roots.keys.flatMap (reachOf nodes)).foldl pushReach SortedMap.empty
  reach.entries.foldl (fun nodes e =>
    nodes.adjust e.1 fun node =>
      { node with roots := e.2.insertionSort fun left right => left.root ≤ right.root }) nodes

/-- Turn the outcomes into documents. -/
def buildNodes (walk : Walk C) (roots : LedgerSet) : SortedMap String GraphNode :=
  fillRoots (walk.outcomes.entries.foldl (fun nodes e =>
    nodes.insert e.1.display (nodeOf e.1 e.2.1 e.2.2 (walk.provenance.get? e.1)))
      SortedMap.empty) roots

/-- The counts and caps of a run. -/
def buildSummary (options : CrawlOptions) (suffix : Bytes) (roots : LedgerSet)
    (nodes : SortedMap String GraphNode) (fetchCount : Nat) (truncatedBy : Option TruncatedBy) :
    GraphSummary where
  syncId := options.syncId.getD (mintSyncId options.startedAtMs suffix)
  lastSyncMs := options.startedAtMs
  depth := options.boundedDepth
  roots := roots.keys.map IdentityId.display
  nodeCount := nodes.entries.length
  edgeCount := (nodes.entries.map fun e => e.2.edges.length).sum
  fetchCount := fetchCount
  truncated := truncatedBy.isSome
  truncatedBy := truncatedBy
  equivocations := (nodes.entries.filter fun e => e.2.equivocation.isSome).map fun e =>
    e.2.identityId

/-- Why a walk stopped short, if it did. -/
def Walk.truncatedBy (walk : Walk C) : Option TruncatedBy :=
  match walk.hardStop with
  | some reason => some reason
  | none => if walk.depthCut then some .depth else none

/-- Crawl outward from some roots. The deadline is shared with whoever started it, so it may
expire at any look at the clock. -/
def crawlWith (fetcher : Fetcher C) (options : CrawlOptions) (expired : Nat → Bool)
    (suffix : Bytes) (roots : List LedgerId) : Generation :=
  let walk := walkFrom fetcher options expired roots
  let nodes := buildNodes walk (LedgerSet.of roots)
  ⟨buildSummary options suffix (LedgerSet.of roots) nodes walk.fetchCount walk.truncatedBy, nodes⟩

end Mabel.Crawl
