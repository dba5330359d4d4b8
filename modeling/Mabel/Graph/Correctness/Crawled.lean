import Mabel.Graph.Correctness.Crawling

/-!
# What a generation tells of a crawl

Every ledger that was read has one document, under the id it renders to, and the stored edges
between documents are the attestations between ledgers that were read. So what the walk knows of
levels and of what it left out is what the generation tells, and the roots each document lists
come from a search over the documents themselves.
-/

namespace Mabel.Crawl

open Node Wire Search

variable {C : Crypto} {roots : List LedgerId} {walk : Walk C}

/-- A set made of ledgers has these. -/
theorem mem_ledgerSet (ledgers : List LedgerId) (a : LedgerId) :
    a ∈ (LedgerSet.of ledgers).keys ↔ a ∈ ledgers := by
  have hfold : ∀ (l : List LedgerId) (set : LedgerSet),
      ((l.foldl (fun set ledger => set.insert ledger ()) set).get? a).isSome ↔
        a ∈ l ∨ (set.get? a).isSome := by
    intro l
    induction l with
    | nil => simp
    | cons b l ih =>
      intro set
      rw [List.foldl_cons, ih, SortedMap.get?_insert, List.mem_cons]
      split_ifs with hab
      · simp [hab]
      · simp [hab]
  rw [SortedMap.mem_keys, ← Option.isSome_iff_exists, LedgerSet.of, hfold]
  simp

/-- A crawl starts with its roots as the first level. -/
theorem atLevel_start (options : CrawlOptions) (roots : List LedgerId) :
    AtLevel options roots 0 (LedgerSet.of roots).keys (Walk.start : Walk C) := by
  refine ⟨⟨rfl, rfl, by simp [Walk.start], List.nodup_nil⟩, read_start, by simp [label, Walk.start],
    Nat.zero_le _, Nat.zero_le _, rfl, SortedMap.nodup_keys _, fun _ a => ?_, by simp [Walk.start]⟩
  rw [mem_ledgerSet]
  constructor
  · exact fun ha => ⟨rfl, .inl ⟨rfl, ha⟩⟩
  · rintro ⟨-, ⟨-, ha⟩ | ⟨n, c, -, hc, -⟩⟩
    · exact ha
    · simp [label, Walk.start] at hc

theorem walkFrom_finished (fetcher : Fetcher C) (options : CrawlOptions) (expired : Nat → Bool)
    (roots : List LedgerId) : Finished options roots (walkFrom fetcher options expired roots) :=
  walkLevels_spec _ (atLevel_start options roots) (Nat.zero_add _)

/-! ## One document for every ledger -/

/-- The documents before it is known which roots reach them. -/
def baseNodes (walk : Walk C) : SortedMap String GraphNode :=
  walk.outcomes.entries.foldl (fun nodes e =>
    nodes.insert e.1.display (nodeOf e.1 e.2.1 e.2.2 (walk.provenance.get? e.1))) SortedMap.empty

/-- The base nodes are those of the outcomes. -/
theorem get?_baseNodes (identity : String) (node : GraphNode) :
    (baseNodes walk).get? identity = some node ↔ ∃ ledger depth outcome,
      walk.outcomes.get? ledger = some (depth, outcome) ∧ ledger.display = identity ∧
      nodeOf ledger depth outcome (walk.provenance.get? ledger) = node := by
  have hnodup : (walk.outcomes.entries.map fun e => e.1.display).Nodup := by
    have hkeys := walk.outcomes.nodup_keys.map IdentityId.display_injective
    rwa [SortedMap.keys, List.map_map] at hkeys
  rw [baseNodes, SortedMap.get?_foldl_insert _ hnodup]
  simp only [SortedMap.get?_empty, reduceCtorEq, and_false, or_false, Prod.exists,
    ← SortedMap.get?_eq_some]

/-- What a search over the documents records for each of them. -/
def reached (nodes : SortedMap String GraphNode) (roots : LedgerSet) (identity : String) :
    List RootDepth :=
  ((roots.keys.flatMap (reachOf nodes)).filter fun e => decide (e.1 = identity)).map Prod.snd

/-- Pushing reached roots adds each one's own. -/
theorem foldl_pushReach (es : List (String × RootDepth)) (identity : String) :
    ∀ reach : SortedMap String (List RootDepth),
      ((es.foldl pushReach reach).get? identity).getD [] = (reach.get? identity).getD [] ++
        (es.filter fun e => decide (e.1 = identity)).map Prod.snd := by
  induction es with
  | nil => simp
  | cons e es ih =>
    intro reach
    rw [List.foldl_cons, ih, pushReach, SortedMap.get?_insert]
    by_cases he : identity = e.1
    · subst he
      simp
    · simp [he, Ne.symm he]

/-- Filling the roots in changes nothing else of a node. -/
theorem get?_fillRoots (nodes : SortedMap String GraphNode) (roots : LedgerSet)
    (hempty : ∀ identity node, nodes.get? identity = some node → node.roots = [])
    (identity : String) :
    (fillRoots nodes roots).get? identity = (nodes.get? identity).map fun node =>
      { node with
        roots := (reached nodes roots identity).insertionSort
          fun left right => left.root ≤ right.root } := by
  have hreached : reached nodes roots identity =
      (((roots.keys.flatMap (reachOf nodes)).foldl pushReach SortedMap.empty).get?
        identity).getD [] := by
    rw [foldl_pushReach, reached]
    rfl
  rw [hreached, fillRoots]
  rw [SortedMap.get?_foldl_adjust fun (found : List RootDepth) (node : GraphNode) =>
    { node with roots := found.insertionSort fun left right => left.root ≤ right.root }]
  cases hnode : nodes.get? identity with
  | none => rfl
  | some node =>
    rw [Option.map_some, Option.map_some]
    congr 1
    cases ((roots.keys.flatMap (reachOf nodes)).foldl pushReach SortedMap.empty).get? identity with
    | none =>
      have := hempty identity node hnode
      cases node
      simp only at this
      simp [this]
    | some found => rfl

/-- Filling the roots in keeps the nodes' number. -/
theorem length_fillRoots (nodes : SortedMap String GraphNode) (roots : LedgerSet) :
    (fillRoots nodes roots).entries.length = nodes.entries.length :=
  SortedMap.length_foldl_adjust (fun (found : List RootDepth) (node : GraphNode) =>
    { node with roots := found.insertionSort fun left right => left.root ≤ right.root }) _ nodes

/-- The document of a ledger that was read, with the roots that reach it. -/
def documentOf (walk : Walk C) (roots : List LedgerId) (ledger : LedgerId) (depth : Nat)
    (outcome : FetchOutcome C) : GraphNode :=
  { nodeOf ledger depth outcome (walk.provenance.get? ledger) with
    roots := (reached (baseNodes walk) (LedgerSet.of roots) ledger.display).insertionSort
      fun left right => left.root ≤ right.root }

/-- The built nodes are the documents of the outcomes. -/
theorem get?_buildNodes (identity : String) (node : GraphNode) :
    (buildNodes walk (LedgerSet.of roots)).get? identity = some node ↔
      ∃ ledger depth outcome, walk.outcomes.get? ledger = some (depth, outcome) ∧
        ledger.display = identity ∧ documentOf walk roots ledger depth outcome = node := by
  have hempty : ∀ identity node, (baseNodes walk).get? identity = some node →
      node.roots = [] := by
    intro identity node hnode
    obtain ⟨ledger, depth, outcome, -, -, rfl⟩ := (get?_baseNodes identity node).mp hnode
    rfl
  have hget := get?_fillRoots (baseNodes walk) (LedgerSet.of roots) hempty identity
  change (fillRoots (baseNodes walk) (LedgerSet.of roots)).get? identity = some node ↔ _
  rw [hget, Option.map_eq_some_iff]
  constructor
  · rintro ⟨base, hbase, rfl⟩
    obtain ⟨ledger, depth, outcome, hread, rfl, rfl⟩ := (get?_baseNodes identity base).mp hbase
    exact ⟨ledger, depth, outcome, hread, rfl, rfl⟩
  · rintro ⟨ledger, depth, outcome, hread, rfl, rfl⟩
    exact ⟨_, (get?_baseNodes _ _).mpr ⟨ledger, depth, outcome, hread, rfl, rfl⟩, rfl⟩

/-- The generation a walk leaves. -/
def generationOf (walk : Walk C) (roots : List LedgerId) (summary : GraphSummary) : Generation :=
  ⟨summary, buildNodes walk (LedgerSet.of roots)⟩

variable {summary : GraphSummary}

/-- The crawl holds the ledgers with an outcome. -/
theorem holds_iff {identity : String} : (generationOf walk roots summary).Holds identity ↔
    ∃ ledger, ledger.display = identity ∧ (walk.outcomes.get? ledger).isSome := by
  rw [Generation.Holds, Option.isSome_iff_exists]
  constructor
  · rintro ⟨node, hnode⟩
    obtain ⟨ledger, depth, outcome, hread, hid, -⟩ := (get?_buildNodes identity node).mp hnode
    exact ⟨ledger, hid, by simp [hread]⟩
  · rintro ⟨ledger, hid, hread⟩
    obtain ⟨⟨depth, outcome⟩, hread⟩ := Option.isSome_iff_exists.mp hread
    exact ⟨_, (get?_buildNodes identity _).mpr ⟨ledger, depth, outcome, hread, hid, rfl⟩⟩

/-- A ledger is held when it has an outcome. -/
theorem holds_display {ledger : LedgerId} :
    (generationOf walk roots summary).Holds ledger.display ↔
      (walk.outcomes.get? ledger).isSome := by
  rw [holds_iff]
  constructor
  · rintro ⟨other, hother, hread⟩
    exact IdentityId.display_injective hother ▸ hread
  · exact fun h => ⟨ledger, rfl, h⟩

/-- The stored edges between documents are the attestations between ledgers that were read. -/
theorem mem_successors_iff {x y : String} :
    y ∈ (generationOf walk roots summary).successors x ↔
      ∃ a b, x = a.display ∧ y = b.display ∧ Names walk.outcomes a b ∧
        (label walk.outcomes b).isSome := by
  rw [Generation.mem_successors]
  constructor
  · rintro ⟨⟨node, hnode, edge, hedge, rfl⟩, hholds⟩
    obtain ⟨a, depth, outcome, hread, rfl, rfl⟩ := (get?_buildNodes x node).mp hnode
    obtain ⟨trust, htrust, rfl⟩ := List.mem_map.mp hedge
    refine ⟨a, trust.subject, rfl, rfl, ⟨depth, outcome, hread, trust, htrust, rfl⟩, ?_⟩
    exact isSome_label.mpr (holds_display.mp hholds)
  · rintro ⟨a, b, rfl, rfl, ⟨depth, outcome, hread, trust, htrust, rfl⟩, hlabel⟩
    refine ⟨⟨_, (get?_buildNodes _ _).mpr ⟨a, depth, outcome, hread, rfl, rfl⟩, _,
      List.mem_map_of_mem htrust, rfl⟩, ?_⟩
    exact holds_display.mpr (isSome_label.mp hlabel)

/-! ## Which roots reach what -/

/-- The search from a root goes by the edges the generation stores. -/
theorem distances_baseNodes (start : String) : distances (baseNodes walk) start =
    (generationOf walk roots summary).distancesFrom start := by
  have hlength : (baseNodes walk).entries.length =
      (generationOf walk roots summary).nodes.entries.length :=
    (length_fillRoots (baseNodes walk) (LedgerSet.of roots)).symm
  have hget : ∀ identity, (generationOf walk roots summary).nodes.get? identity =
      ((baseNodes walk).get? identity).map fun node =>
        { node with
          roots := (reached (baseNodes walk) (LedgerSet.of roots) identity).insertionSort
            fun left right => left.root ≤ right.root } := by
    refine fun identity => get?_fillRoots (baseNodes walk) (LedgerSet.of roots) ?_ identity
    intro identity node hnode
    obtain ⟨ledger, depth, outcome, -, -, rfl⟩ := (get?_baseNodes identity node).mp hnode
    rfl
  unfold distances Generation.distancesFrom
  rw [hlength]
  congr 1
  funext identity
  unfold Generation.successors
  rw [hget]
  cases (baseNodes walk).get? identity with
  | none => rfl
  | some node =>
    simp only [Option.map_some]
    refine List.filter_congr fun subject _ => ?_
    simp [Generation.Holds, hget]

/-- A root reaches an identity at its distance from it. -/
theorem mem_reached {identity : String} {entry : RootDepth} :
    entry ∈ reached (baseNodes walk) (LedgerSet.of roots) identity ↔
      ∃ root ∈ roots, entry.root = root.display ∧
        (generationOf walk roots summary).Holds root.display ∧
        IsDist (fun a b => b ∈ (generationOf walk roots summary).successors a) {root.display}
          identity entry.depth := by
  have hholds : ∀ root : LedgerId, ((baseNodes walk).get? root.display).isSome ↔
      (generationOf walk roots summary).Holds root.display := by
    intro root
    rw [holds_display, Option.isSome_iff_exists, Option.isSome_iff_exists]
    constructor
    · rintro ⟨node, hnode⟩
      obtain ⟨ledger, depth, outcome, hread, hid, -⟩ := (get?_baseNodes _ node).mp hnode
      exact ⟨_, IdentityId.display_injective hid ▸ hread⟩
    · rintro ⟨⟨depth, outcome⟩, hread⟩
      exact ⟨_, (get?_baseNodes _ _).mpr ⟨root, depth, outcome, hread, rfl, rfl⟩⟩
  have hdist : ∀ (root : LedgerId) (depth : Nat),
      (identity, depth) ∈ (distances (baseNodes walk) root.display).entries ↔
        IsDist (fun a b => b ∈ (generationOf walk roots summary).successors a) {root.display}
          identity depth := by
    intro root depth
    rw [← SortedMap.get?_eq_some, @distances_baseNodes C roots walk summary,
      Generation.get?_distancesFrom]
  unfold reached
  simp only [List.mem_map, List.mem_filter, List.mem_flatMap, mem_ledgerSet, decide_eq_true_eq]
  constructor
  · rintro ⟨e, ⟨⟨root, hroot, he⟩, rfl⟩, rfl⟩
    unfold reachOf at he
    split_ifs at he with hnode
    · obtain ⟨⟨id, depth⟩, hentry, rfl⟩ := List.mem_map.mp he
      exact ⟨root, hroot, rfl, (hholds root).mp hnode, (hdist root depth).mp hentry⟩
    · exact absurd he List.not_mem_nil
  · rintro ⟨root, hroot, hid, hnode, hsteps⟩
    refine ⟨(identity, entry), ⟨⟨root, hroot, ?_⟩, rfl⟩, rfl⟩
    unfold reachOf
    rw [if_pos ((hholds root).mpr hnode)]
    refine List.mem_map.mpr ⟨(identity, entry.depth), (hdist root entry.depth).mpr hsteps, ?_⟩
    rw [← hid]

/-- No root is recorded twice. -/
theorem nodup_reached (nodes : SortedMap String GraphNode) (roots : LedgerSet)
    (identity : String) :
    (reached nodes roots identity).Pairwise fun left right => left.root ≠ right.root := by
  have hroot : ∀ root : LedgerId, ∀ e ∈ reachOf nodes root, e.2.root = root.display := by
    intro root e he
    unfold reachOf at he
    split_ifs at he
    · obtain ⟨entry, -, rfl⟩ := List.mem_map.mp he
      rfl
    · exact absurd he List.not_mem_nil
  have hall : (roots.keys.flatMap (reachOf nodes)).Pairwise
      fun e e' => e.1 = e'.1 → e.2.root ≠ e'.2.root := by
    refine List.pairwise_flatMap.mpr ⟨fun root _ => ?_, ?_⟩
    · unfold reachOf
      split_ifs
      · refine List.pairwise_map.mpr ((distances nodes root.display).sorted.imp ?_)
        exact fun hlt heq => absurd heq hlt.ne
      · exact .nil
    · refine roots.nodup_keys.imp fun hne e he e' he' _ heq => hne (IdentityId.display_injective ?_)
      rw [← hroot _ e he, ← hroot _ e' he', heq]
  unfold reached
  refine List.pairwise_map.mpr ((hall.filter _).imp_of_mem fun he he' h => h ?_)
  rw [of_decide_eq_true (List.mem_filter.mp he).2, of_decide_eq_true (List.mem_filter.mp he').2]

/-- The roots of a document ascend. -/
theorem sorted_roots {l : List RootDepth} (h : l.Pairwise fun left right => left.root ≠ right.root) :
    (l.insertionSort fun left right => left.root ≤ right.root).Pairwise
      fun left right => left.root < right.root := by
  have : Std.Total fun left right : RootDepth => left.root ≤ right.root :=
    ⟨fun left right => le_total left.root right.root⟩
  have : IsTrans RootDepth fun left right => left.root ≤ right.root := ⟨fun _ _ _ => le_trans⟩
  have hne := ((List.perm_insertionSort (fun left right : RootDepth => left.root ≤ right.root)
    l).pairwise_iff fun {_ _} => Ne.symm).mpr h
  refine ((List.pairwise_insertionSort (fun left right : RootDepth => left.root ≤ right.root)
    l).and hne).imp fun h => lt_of_le_of_ne h.1 h.2

/-! ## The generation of a crawl -/

/-- What a crawl tells is exact. No ledger is read twice and the counts respect the caps; a node
is a root or what another node attests to, and its depth is its distance from the roots over the
edges that were stored and within the depth of the run; its roots are those that reach it, with
their distances; and the crawl says it was not truncated just when every root and every subject
of a stored edge is a node. -/
theorem crawl_exact (fetcher : Fetcher C) (options : CrawlOptions) (expired : Nat → Bool)
    (suffix : Bytes) (roots : List LedgerId) :
    let fetched := (walkFrom fetcher options expired roots).fetched
    let generation := crawlWith fetcher options expired suffix roots
    let rootIds := {identity | ∃ root ∈ roots, IdentityId.display root = identity}
    let edges := fun a b => b ∈ generation.successors a
    (fetched.Nodup ∧ generation.summary.fetchCount = fetched.length ∧
      generation.summary.fetchCount ≤ options.maxFetches ∧
      generation.summary.nodeCount = generation.nodes.entries.length ∧
      generation.summary.nodeCount ≤ options.maxNodes) ∧
    (∀ identity node, generation.nodes.get? identity = some node →
      (identity ∈ rootIds ∨ ∃ other ≠ identity, edges other identity) ∧
      IsDist edges rootIds identity node.depth ∧ node.depth ≤ options.boundedDepth) ∧
    (∀ identity node, generation.nodes.get? identity = some node →
      node.roots.Pairwise (fun left right => left.root < right.root) ∧
      ∀ root depth, ⟨root, depth⟩ ∈ node.roots ↔
        root ∈ rootIds ∧ IsDist edges {root} identity depth) ∧
    (generation.summary.truncated = false ↔ (∀ identity ∈ rootIds, generation.Holds identity) ∧
      ∀ identity node, generation.nodes.get? identity = some node →
        ∀ edge ∈ node.edges, generation.Holds edge.subject) := by
  intro fetched generation rootIds edges
  have hfinished := walkFrom_finished fetcher options expired roots
  obtain ⟨level, hread⟩ := hfinished.read
  set walk := walkFrom fetcher options expired roots with hwalk
  have hsuccessors : ∀ x y, edges x y ↔ ∃ a b, x = a.display ∧ y = b.display ∧
      Names walk.outcomes a b ∧ (label walk.outcomes b).isSome := fun x y => mem_successors_iff
  have hdistance : ∀ a n, label walk.outcomes a = some n → IsDist edges rootIds a.display n :=
    fun a n ha => (isDist_image hsuccessors IdentityId.display_injective).mpr (hread.isDist ha)
  refine ⟨⟨hfinished.counted.nodup, ?_, hfinished.fetches, rfl, ?_⟩, ?_, ?_, ?_⟩
  · exact hfinished.counted.count.trans hfinished.counted.length.symm
  · refine le_trans ?_ hfinished.nodes
    refine (length_fillRoots (baseNodes walk) (LedgerSet.of roots)).le.trans ?_
    refine (SortedMap.length_foldl_insert_le (fun e => e.1.display) _
      walk.outcomes.entries _).trans ?_
    exact (Nat.zero_add _).le
  · intro identity node hnode
    obtain ⟨ledger, depth, outcome, hget, rfl, rfl⟩ := (get?_buildNodes identity node).mp hnode
    have hlabel : label walk.outcomes ledger = some depth := by rw [label, hget]; rfl
    have hdist := hdistance ledger depth hlabel
    refine ⟨?_, hdist, hfinished.le ledger depth hlabel⟩
    cases depth with
    | zero => exact .inl (isDist_zero.mp hdist)
    | succ depth =>
      obtain ⟨other, hother, hedge⟩ := hdist.pred
      refine .inr ⟨other, ?_, hedge⟩
      rintro rfl
      exact absurd (hother.unique hdist) (Nat.succ_ne_self depth).symm
  · intro identity node hnode
    obtain ⟨ledger, depth, outcome, hget, rfl, rfl⟩ := (get?_buildNodes identity node).mp hnode
    refine ⟨sorted_roots (nodup_reached _ _ _), fun root depth => ?_⟩
    refine (List.mem_insertionSort _).trans
      ((@mem_reached C roots walk generation.summary _ _).trans ?_)
    constructor
    · rintro ⟨root, hroot, rfl, -, hdist⟩
      exact ⟨⟨root, hroot, rfl⟩, hdist⟩
    · rintro ⟨⟨root, hroot, rfl⟩, hdist⟩
      refine ⟨root, hroot, rfl, ?_, hdist⟩
      -- A root without a node has no edges, so it reaches only itself.
      by_contra hnot
      have hself := hdist.steps.eq_of_stuck (Generation.not_mem_successors hnot)
      have hread : (walk.outcomes.get? ledger).isSome := by rw [hget]; rfl
      exact hnot (hself ▸ holds_display.mpr hread)
  · have htruncated : generation.summary.truncated = false ↔ walk.truncatedBy = none :=
      Option.isSome_eq_false_iff.trans Option.isNone_iff_eq_none
    rw [htruncated, hfinished.truncated]
    constructor
    · rintro ⟨hstarts, hsteps⟩
      refine ⟨?_, fun identity node hnode edge hedge => ?_⟩
      · rintro _ ⟨root, hroot, rfl⟩
        exact holds_display.mpr (isSome_label.mp (hstarts root hroot))
      · obtain ⟨a, depth, outcome, hget, rfl, rfl⟩ := (get?_buildNodes identity node).mp hnode
        obtain ⟨trust, htrust, rfl⟩ := List.mem_map.mp hedge
        refine holds_display.mpr (isSome_label.mp (hsteps a trust.subject ?_))
        exact ⟨depth, outcome, hget, trust, htrust, rfl⟩
    · rintro ⟨hstarts, hsteps⟩
      refine ⟨fun root hroot => ?_, ?_⟩
      · exact isSome_label.mpr (holds_display.mp (hstarts _ ⟨root, hroot, rfl⟩))
      · rintro a b ⟨depth, outcome, hget, trust, htrust, rfl⟩
        refine isSome_label.mpr (holds_display.mp (hsteps a.display _
          ((get?_buildNodes _ _).mpr ⟨a, depth, outcome, hget, rfl, rfl⟩) _
          (List.mem_map_of_mem htrust)))

/-! ## A sample crawl -/

def sampleId (n : Nat) : LedgerId := ⟨.ofNat idBytes n⟩

/-- A ledger that verified and attests to some subjects. -/
def trusting (ledger : LedgerId) (subjects : List LedgerId) : FetchOutcome Crypto.sample :=
  let head : EventId := ⟨.ofNat idBytes 0⟩
  .verified 0 ⟨ledger, .person, none, none, none, subjects.length, head, [], [], [],
    subjects.zipIdx.map fun e => ⟨e.1, head, e.2 + 1⟩⟩ .localCopy [.localCopy]

/-- The first ledger attests to the second and the third, the second to the third and the third to
the first and to a fourth. -/
def sampleFetcher : Fetcher Crypto.sample where
  fetchCandidate ledger _ :=
    if ledger = sampleId 1 then trusting ledger [sampleId 2, sampleId 3]
    else if ledger = sampleId 2 then trusting ledger [sampleId 3]
    else if ledger = sampleId 3 then trusting ledger [sampleId 1, sampleId 4]
    else .unreachable 0 ledger [.localCopy]
  own ledger _ := by split_ifs <;> rfl

/-- A crawl of one level. -/
def sampleOptions : CrawlOptions := ⟨1, 8, 8, 2, 1, some "0000000000001-a"⟩

def sampleWalk : Walk Crypto.sample :=
  walkFrom sampleFetcher sampleOptions (fun _ => false) [sampleId 1]

def sampleCrawl : Generation :=
  crawlWith sampleFetcher sampleOptions (fun _ => false) [] [sampleId 1]

/-- What the sample walk read. -/
theorem read_sampleWalk : sampleWalk.fetchCount = 3 ∧ sampleWalk.truncatedBy = some .depth ∧
    (sampleWalk.outcomes.get? (sampleId 1)).isSome ∧
    sampleWalk.outcomes.get? (sampleId 3) =
      some (1, trusting (sampleId 3) [sampleId 1, sampleId 4]) := by
  decide +kernel

/-- The third ledger is one edge from the first, and the fourth, to which it attests, is cut off by
the depth. -/
theorem crawl_exact_sampleCrawl :
    sampleCrawl.summary.fetchCount = 3 ∧ sampleCrawl.summary.truncatedBy = some .depth ∧
    IsDist (fun a b => b ∈ sampleCrawl.successors a)
      {identity | ∃ root ∈ [sampleId 1], IdentityId.display root = identity}
      (sampleId 3).display 1 ∧
    ∃ identity node, sampleCrawl.nodes.get? identity = some node ∧
      ∃ edge ∈ node.edges, ¬ sampleCrawl.Holds edge.subject := by
  obtain ⟨hcount, hcut, hroot, hread⟩ := read_sampleWalk
  have hexact := crawl_exact sampleFetcher sampleOptions (fun _ => false) [] [sampleId 1]
  refine ⟨hcount, hcut, ?_, ?_⟩
  · have hthird := (@get?_buildNodes _ [sampleId 1] _ (sampleId 3).display _).mpr
      ⟨sampleId 3, 1, _, hread, rfl, rfl⟩
    exact (hexact.2.1 _ _ hthird).2.1
  · by_contra hnone
    have hwhole : sampleCrawl.summary.truncated = false := by
      refine hexact.2.2.2.mpr ⟨?_, fun identity node hnode edge hedge => ?_⟩
      · rintro identity ⟨root, hmem, rfl⟩
        rw [List.mem_singleton.mp hmem]
        exact holds_display.mpr hroot
      · by_contra hmissing
        exact hnone ⟨identity, node, hnode, edge, hedge, hmissing⟩
    have htruncated : sampleCrawl.summary.truncated = sampleWalk.truncatedBy.isSome := rfl
    rw [htruncated, hcut] at hwhole
    simp at hwhole

end Mabel.Crawl
