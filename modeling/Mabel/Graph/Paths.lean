import Mabel.Core.Search
import Mabel.Graph.Documents
import Mathlib.Data.List.Sort

/-!
# Shortest paths of a generation

A lookup measures the distance to the target backwards from it, and walks forward along edges
that reduce the distance left, in ascending order of what they lead to, until it has as many
paths as it was asked for. The degrees of separation come from a search of their own, forward
from the start.
-/

namespace Mabel.Crawl

namespace Generation

/-- Whether a crawl holds a node for an id. -/
def Holds (generation : Generation) (identity : String) : Prop :=
  (generation.nodes.get? identity).isSome

instance (generation : Generation) (identity : String) : Decidable (generation.Holds identity) :=
  inferInstanceAs (Decidable (_ = true))

/-! ## Distances -/

/-- The subjects of a node's edges that are nodes themselves. -/
def successors (generation : Generation) (identity : String) : List String :=
  match generation.nodes.get? identity with
  | none => []
  | some node => (node.edges.map GraphEdge.subject).filter fun subject => generation.Holds subject

/-- What the index of incoming edges lists under an id: the node of every edge that leads to it,
if it is a node itself. -/
def incoming (generation : Generation) (identity : String) : List String :=
  if generation.Holds identity then
    generation.nodes.entries.flatMap fun e =>
      (e.2.edges.filter fun edge => edge.subject == identity).map fun _ => e.2.identityId
  else []

/-- Breadth-first distance from an id to every node it reaches. -/
def distancesFrom (generation : Generation) (start : String) : SortedMap String Nat :=
  Search.distances generation.successors (generation.nodes.entries.length + 1) start

/-- Breadth-first distance to an id from every node that reaches it. -/
def distancesTo (generation : Generation) (target : String) : SortedMap String Nat :=
  Search.distances generation.incoming (generation.nodes.entries.length + 1) target

/-! ## The walk -/

/-- The edges of a node in ascending order of their subjects. -/
def sortedEdges (node : GraphNode) : List GraphEdge :=
  node.edges.insertionSort fun left right => left.subject ≤ right.subject

/-- Collect shortest paths by walking forward, only ever taking an edge that reduces the distance
left to the target. -/
def walk (generation : Generation) (remaining : SortedMap String Nat) (limit : Nat) :
    (distance : Nat) → (identity : String) → List PathHop → List GraphPath → List GraphPath
  | 0, _, hops, found => if found.length ≥ limit then found else found ++ [⟨hops⟩]
  | distance + 1, identity, hops, found =>
    if found.length ≥ limit then found
    else
      match generation.nodes.get? identity with
      | none => found
      | some node =>
        (sortedEdges node).foldl (fun found edge =>
          if found.length ≥ limit then found
          else if remaining.get? edge.subject ≠ some distance then found
          else walk generation remaining limit distance edge.subject
            (hops ++ [⟨identity, edge.subject, edge.attestationEvent⟩]) found) found

/-- Up to a number of shortest paths between two ids, over the edges the crawl stored. -/
def pathsUpTo (generation : Generation) (start target : String) (limit : Nat) : List GraphPath :=
  if limit = 0 ∨ ¬ generation.Holds start ∨ ¬ generation.Holds target then []
  else if start = target then [⟨[]⟩]
  else
    let remaining := generation.distancesTo target
    match remaining.get? start with
    | none => []
    | some distance => walk generation remaining limit distance start [] []

/-- Edges on a shortest path between two ids, if the crawl found one. -/
def degrees (generation : Generation) (start target : String) : Option Nat :=
  if start = target then (if generation.Holds start then some 0 else none)
  else (generation.distancesFrom start).get? target

/-! ## What a shortest path is -/

/-- Every node is kept under its own id. -/
def Keyed (generation : Generation) : Prop :=
  ∀ identity node, generation.nodes.get? identity = some node → node.identityId = identity

/-- No node attests twice to one subject. -/
def DistinctSubjects (generation : Generation) : Prop :=
  ∀ identity node, generation.nodes.get? identity = some node →
    (node.edges.map GraphEdge.subject).Nodup

/-- A generation is keyed when every node stands under its own identity. -/
theorem keyed_iff {generation : Generation} : generation.Keyed ↔
    ∀ e ∈ generation.nodes.entries, e.2.identityId = e.1 :=
  ⟨fun h e he => h e.1 e.2 (SortedMap.get?_eq_some.mpr he),
    fun h identity node hnode => h (identity, node) (SortedMap.get?_eq_some.mp hnode)⟩

/-- Subjects are distinct when no node names one twice. -/
theorem distinctSubjects_iff {generation : Generation} : generation.DistinctSubjects ↔
    ∀ e ∈ generation.nodes.entries, (e.2.edges.map GraphEdge.subject).Nodup :=
  ⟨fun h e he => h e.1 e.2 (SortedMap.get?_eq_some.mpr he),
    fun h identity node hnode => h (identity, node) (SortedMap.get?_eq_some.mp hnode)⟩

instance (generation : Generation) : Decidable generation.Keyed := decidable_of_iff' _ keyed_iff

instance (generation : Generation) : Decidable generation.DistinctSubjects :=
  decidable_of_iff' _ distinctSubjects_iff

/-- Hops along stored edges lead from one node to another. -/
inductive IsPath (generation : Generation) (target : String) : String → List PathHop → Prop where
  | nil (h : generation.Holds target) : IsPath generation target target []
  | cons {identity : String} {node : GraphNode} {edge : GraphEdge} {hops : List PathHop}
      (hnode : generation.nodes.get? identity = some node) (hedge : edge ∈ node.edges)
      (hrest : IsPath generation target edge.subject hops) :
      IsPath generation target identity
        (⟨identity, edge.subject, edge.attestationEvent⟩ :: hops)

/-- Hops that lead from one node to another, and no fewer do. -/
structure IsShortest (generation : Generation) (start target : String) (hops : List PathHop) :
    Prop where
  path : generation.IsPath target start hops
  least : ∀ other, generation.IsPath target start other → hops.length ≤ other.length

end Generation

/-- The ids a path from a start visits. -/
def GraphPath.visited (start : String) (path : GraphPath) : List String :=
  start :: path.hops.map PathHop.toId

namespace Generation

variable {generation : Generation} {start target identity : String} {hops : List PathHop}

/-! ## Edges between nodes -/

/-- The successors of an identity are the subjects of its edges that are held. -/
theorem mem_successors {subject : String} : subject ∈ generation.successors identity ↔
    (∃ node, generation.nodes.get? identity = some node ∧
      ∃ edge ∈ node.edges, edge.subject = subject) ∧ generation.Holds subject := by
  unfold successors
  cases hnode : generation.nodes.get? identity with
  | none => simp
  | some node =>
    simp only [List.mem_filter, List.mem_map, decide_eq_true_eq, Option.some.injEq,
      exists_eq_left']

/-- The incoming identities are those whose successors hold it. -/
theorem mem_incoming (hkeyed : generation.Keyed) {subject : String} :
    identity ∈ generation.incoming subject ↔ subject ∈ generation.successors identity := by
  rw [mem_successors]
  unfold incoming
  by_cases hsubject : generation.Holds subject
  · rw [if_pos hsubject, and_iff_left hsubject]
    simp only [List.mem_flatMap, List.mem_map, List.mem_filter, beq_iff_eq]
    constructor
    · rintro ⟨⟨key, node⟩, hentry, edge, ⟨hedge, heq⟩, rfl⟩
      have hnode := SortedMap.get?_eq_some.mpr hentry
      exact ⟨node, (hkeyed key node hnode).symm ▸ hnode, edge, hedge, heq⟩
    · rintro ⟨node, hnode, edge, hedge, heq⟩
      exact ⟨(identity, node), SortedMap.get?_eq_some.mp hnode, edge, ⟨hedge, heq⟩,
        hkeyed identity node hnode⟩
  · simp [hsubject]

/-- A path starts at a held identity. -/
theorem IsPath.holds (h : generation.IsPath target identity hops) :
    generation.Holds identity := by
  cases h with
  | nil h => exact h
  | cons hnode => simp [Holds, hnode]

/-- A path ends at a held identity. -/
theorem IsPath.holds_target (h : generation.IsPath target identity hops) :
    generation.Holds target := by
  induction h with
  | nil h => exact h
  | cons _ _ _ ih => exact ih

/-- How many hops lead to a target is how many steps lead back from it. -/
theorem exists_isPath_iff (hkeyed : generation.Keyed) (htarget : generation.Holds target)
    {n : Nat} : (∃ hops, generation.IsPath target identity hops ∧ hops.length = n) ↔
      Search.Steps (fun a b => b ∈ generation.incoming a) {target} n identity := by
  constructor
  · rintro ⟨hops, hpath, rfl⟩
    induction hpath with
    | nil => exact .start rfl
    | @cons identity node edge hops hnode hedge hrest ih =>
      refine ih.step ((mem_incoming hkeyed).mpr (mem_successors.mpr ?_))
      exact ⟨⟨node, hnode, edge, hedge, rfl⟩, hrest.holds⟩
  · intro h
    induction h with
    | start h =>
      obtain rfl := Set.mem_singleton_iff.mp h
      exact ⟨[], .nil htarget, rfl⟩
    | step _ hstep ih =>
      obtain ⟨hops, hpath, rfl⟩ := ih
      obtain ⟨⟨node, hnode, edge, hedge, rfl⟩, -⟩ :=
        mem_successors.mp ((mem_incoming hkeyed).mp hstep)
      exact ⟨_, .cons hnode hedge hpath, rfl⟩

/-- Nothing comes in at an identity that is not held. -/
theorem not_mem_incoming (htarget : ¬ generation.Holds target) (identity : String) :
    identity ∉ generation.incoming target := by
  rw [incoming, if_neg htarget]
  exact List.not_mem_nil

/-- Nothing follows an identity that is not held. -/
theorem not_mem_successors (hstart : ¬ generation.Holds start) (identity : String) :
    identity ∉ generation.successors start := by
  rw [mem_successors]
  rintro ⟨⟨node, hnode, -⟩, -⟩
  exact hstart (by simp [Holds, hnode])

/-! ## The two searches -/

/-- The ids of a crawl, and one more. -/
def ids (generation : Generation) (start : String) : Finset String :=
  insert start generation.nodes.keys.toFinset

/-- There are at most as many identities as nodes, and the start. -/
theorem card_ids (generation : Generation) (start : String) :
    (generation.ids start).card ≤ generation.nodes.entries.length + 1 := by
  refine (Finset.card_insert_le _ _).trans (Nat.succ_le_succ ?_)
  refine (List.toFinset_card_le _).trans ?_
  rw [SortedMap.keys, List.length_map]

/-- A held identity is one of them. -/
theorem mem_ids (h : generation.Holds identity) (start : String) :
    identity ∈ generation.ids start := by
  refine Finset.mem_insert_of_mem (List.mem_toFinset.mpr (SortedMap.mem_keys.mpr ?_))
  exact Option.isSome_iff_exists.mp h

/-- The distances from an identity are those of the search along the edges. -/
theorem get?_distancesFrom (start identity : String) (n : Nat) :
    (generation.distancesFrom start).get? identity = some n ↔
      Search.IsDist (fun a b => b ∈ generation.successors a) {start} identity n :=
  Search.get?_distances (generation.ids start) (Finset.mem_insert_self _ _)
    (fun _ _ h => mem_ids (mem_successors.mp h).2 start) (generation.card_ids start) identity n

/-- The distances to an identity are those of the search against the edges. -/
theorem get?_distancesTo (hkeyed : generation.Keyed) (target identity : String) (n : Nat) :
    (generation.distancesTo target).get? identity = some n ↔
      Search.IsDist (fun a b => b ∈ generation.incoming a) {target} identity n := by
  refine Search.get?_distances (generation.ids target) (Finset.mem_insert_self _ _)
    (fun a b h => mem_ids ?_ target) (generation.card_ids target) identity n
  obtain ⟨⟨node, hnode, -⟩, -⟩ := mem_successors.mp ((mem_incoming hkeyed).mp h)
  simp [Holds, hnode]

/-- The two searches agree. -/
theorem get?_distancesFrom_eq (hkeyed : generation.Keyed) (start target : String) :
    (generation.distancesFrom start).get? target = (generation.distancesTo target).get? start := by
  have hswap : (fun a b => b ∈ generation.incoming a) =
      fun a b => a ∈ generation.successors b := by
    funext a b
    exact propext (mem_incoming hkeyed)
  refine Option.ext fun n => ?_
  rw [get?_distancesFrom, get?_distancesTo hkeyed, hswap]
  exact Search.isDist_swap.symm

/-- The distance to a target is the length of the shortest paths to it. -/
theorem get?_distancesTo_eq_some (hkeyed : generation.Keyed) (htarget : generation.Holds target)
    {n : Nat} : (generation.distancesTo target).get? start = some n ↔
      ∃ hops, generation.IsShortest start target hops ∧ hops.length = n := by
  rw [get?_distancesTo hkeyed]
  constructor
  · intro h
    obtain ⟨hops, hpath, rfl⟩ := (exists_isPath_iff hkeyed htarget).mpr h.steps
    refine ⟨hops, ⟨hpath, fun other hother => ?_⟩, rfl⟩
    exact h.least _ ((exists_isPath_iff hkeyed htarget).mp ⟨other, hother, rfl⟩)
  · rintro ⟨hops, hshortest, rfl⟩
    refine ⟨(exists_isPath_iff hkeyed htarget).mp ⟨hops, hshortest.path, rfl⟩, fun m hm => ?_⟩
    obtain ⟨other, hother, rfl⟩ := (exists_isPath_iff hkeyed htarget).mpr hm
    exact hshortest.least other hother

/-! ## Every shortest path -/

/-- All that is left of the shortest paths to a target from a node, given the distances left. -/
def allWalks (generation : Generation) (remaining : SortedMap String Nat) :
    (distance : Nat) → (identity : String) → List (List PathHop)
  | 0, _ => [[]]
  | distance + 1, identity =>
    match generation.nodes.get? identity with
    | none => []
    | some node =>
      (sortedEdges node).flatMap fun edge =>
        if remaining.get? edge.subject = some distance then
          (allWalks generation remaining distance edge.subject).map
            (⟨identity, edge.subject, edge.attestationEvent⟩ :: ·)
        else []

/-- Steps that each append and cut at a limit append everything and cut once. -/
theorem foldl_take {α β : Type} {f : List β → α → List β} {g : α → List β} {limit : Nat}
    (h : ∀ found a, found.length ≤ limit → f found a = (found ++ g a).take limit) (l : List α) :
    ∀ found, found.length ≤ limit → l.foldl f found = (found ++ l.flatMap g).take limit := by
  induction l with
  | nil =>
    intro found hfound
    rw [List.foldl_nil, List.flatMap_nil, List.append_nil, List.take_of_length_le hfound]
  | cons a l ih =>
    intro found hfound
    rw [List.foldl_cons, h found a hfound, ih _ (List.length_take_le _ _), List.flatMap_cons,
      ← List.append_assoc, List.take_append, @List.take_append _ (found ++ g a),
      List.take_take, min_self, List.length_take]
    congr 2
    omega

/-- The walk finds the first of all shortest paths, up to the limit. -/
theorem walk_eq (remaining : SortedMap String Nat) {limit : Nat} (distance : Nat) :
    ∀ (identity : String) (hops : List PathHop) (found : List GraphPath), found.length ≤ limit →
      generation.walk remaining limit distance identity hops found =
        (found ++ (generation.allWalks remaining distance identity).map fun rest =>
          GraphPath.mk (hops ++ rest)).take limit := by
  induction distance with
  | zero =>
    intro identity hops found hfound
    unfold walk allWalks
    split_ifs with hfull
    · rw [List.take_left' (by omega)]
    · rw [List.map_singleton, List.append_nil, List.take_of_length_le]
      rw [List.length_append, List.length_singleton]
      omega
  | succ distance ih =>
    intro identity hops found hfound
    unfold walk allWalks
    split_ifs with hfull
    · rw [List.take_left' (by omega)]
    · cases generation.nodes.get? identity with
      | none => simp [List.take_of_length_le hfound]
      | some node =>
        rw [List.map_flatMap]
        refine foldl_take (fun found edge hfound => ?_) _ found hfound
        by_cases hnext : remaining.get? edge.subject = some distance
        · rw [if_neg (not_not.mpr hnext), if_pos hnext, ih _ _ found hfound, List.map_map]
          split_ifs with hfull
          · rw [List.take_left' (by omega)]
          · simp [Function.comp_def]
        · rw [if_pos hnext, if_neg hnext, List.map_nil, List.append_nil, ite_self,
            List.take_of_length_le hfound]

/-- The walks over the distances to a target are its shortest paths. -/
theorem mem_allWalks (hkeyed : generation.Keyed) (htarget : generation.Holds target)
    (distance : Nat) : ∀ {identity : String} {hops : List PathHop},
      (generation.distancesTo target).get? identity = some distance →
        (hops ∈ generation.allWalks (generation.distancesTo target) distance identity ↔
          generation.IsPath target identity hops ∧ hops.length = distance) := by
  have hsteps : ∀ {identity : String} {n : Nat},
      (generation.distancesTo target).get? identity = some n ↔ _ :=
    get?_distancesTo hkeyed target _ _
  induction distance with
  | zero =>
    intro identity hops hdistance
    obtain rfl := Set.mem_singleton_iff.mp (Search.isDist_zero.mp (hsteps.mp hdistance))
    unfold allWalks
    rw [List.mem_singleton, List.length_eq_zero_iff]
    exact ⟨fun h => ⟨h ▸ .nil htarget, h⟩, fun h => h.2⟩
  | succ distance ih =>
    intro identity hops hdistance
    unfold allWalks
    constructor
    · intro h
      cases hnode : generation.nodes.get? identity with
      | none => simp [hnode] at h
      | some node =>
        simp only [hnode, List.mem_flatMap] at h
        obtain ⟨edge, hedge, h⟩ := h
        split_ifs at h with hnext
        · obtain ⟨rest, hrest, rfl⟩ := List.mem_map.mp h
          obtain ⟨hpath, hlength⟩ := (ih hnext).mp hrest
          refine ⟨.cons hnode ((List.perm_insertionSort _ _).mem_iff.mp hedge) hpath, ?_⟩
          rw [List.length_cons, hlength]
        · simp at h
    · rintro ⟨hpath, hlength⟩
      cases hpath with
      | nil => simp at hlength
      | @cons _ node edge rest hnode hedge hrest =>
        have hlength : rest.length = distance := Nat.succ.inj hlength
        have hdist := hsteps.mp hdistance
        -- A subject nearer to the target than the path shows would shorten the distance to here.
        have hnext : (generation.distancesTo target).get? edge.subject = some distance := by
          refine hsteps.mpr ⟨(exists_isPath_iff hkeyed htarget).mp ⟨rest, hrest, hlength⟩, ?_⟩
          intro m hm
          refine Nat.le_of_succ_le_succ (hdist.least _ (hm.step ?_))
          exact (mem_incoming hkeyed).mpr
            (mem_successors.mpr ⟨⟨node, hnode, edge, hedge, rfl⟩, hrest.holds⟩)
        simp only [hnode, List.mem_flatMap]
        refine ⟨edge, (List.perm_insertionSort _ _).mem_iff.mpr hedge, ?_⟩
        rw [if_pos hnext]
        exact List.mem_map.mpr ⟨rest, (ih hnext).mpr ⟨hrest, hlength⟩, rfl⟩

/-- Edges with distinct subjects are sorted strictly. -/
theorem sortedEdges_strict {node : GraphNode} (h : (node.edges.map GraphEdge.subject).Nodup) :
    (sortedEdges node).Pairwise fun left right => left.subject < right.subject := by
  have hsorted : (sortedEdges node).Pairwise fun left right => left.subject ≤ right.subject := by
    have : Std.Total fun left right : GraphEdge => left.subject ≤ right.subject :=
      ⟨fun left right => le_total left.subject right.subject⟩
    have : IsTrans GraphEdge fun left right => left.subject ≤ right.subject :=
      ⟨fun _ _ _ => le_trans⟩
    exact List.pairwise_insertionSort _ node.edges
  have hne : (sortedEdges node).Pairwise fun left right => left.subject ≠ right.subject := by
    refine List.pairwise_map.mp (List.Perm.nodup_iff ?_ |>.mpr h)
    exact (List.perm_insertionSort _ _).map GraphEdge.subject
  exact (hsorted.and hne).imp fun h => lt_of_le_of_ne h.1 h.2

/-- The walks come in lexicographic order of the ids they visit. -/
theorem allWalks_sorted (hdistinct : generation.DistinctSubjects)
    (remaining : SortedMap String Nat) (distance : Nat) : ∀ identity : String,
      (generation.allWalks remaining distance identity).Pairwise fun left right =>
        left.map PathHop.toId < right.map PathHop.toId := by
  induction distance with
  | zero => exact fun _ => List.pairwise_singleton _ _
  | succ distance ih =>
    intro identity
    unfold allWalks
    cases hnode : generation.nodes.get? identity with
    | none => exact .nil
    | some node =>
      refine List.pairwise_flatMap.mpr ⟨fun edge _ => ?_, ?_⟩
      · split_ifs
        · refine List.pairwise_map.mpr ((ih edge.subject).imp fun h => ?_)
          exact List.cons_lt_cons_iff.mpr (.inr ⟨rfl, h⟩)
        · exact .nil
      · refine (sortedEdges_strict (hdistinct identity node hnode)).imp ?_
        intro left right hlt x hx y hy
        split_ifs at hx hy
        · obtain ⟨x, -, rfl⟩ := List.mem_map.mp hx
          obtain ⟨y, -, rfl⟩ := List.mem_map.mp hy
          exact List.cons_lt_cons_iff.mpr (.inl hlt)
        all_goals simp at hx hy

/-- All shortest paths between two ids, in order. -/
def allPaths (generation : Generation) (start target : String) : List GraphPath :=
  if generation.Holds target then
    match (generation.distancesTo target).get? start with
    | none => []
    | some distance =>
      (generation.allWalks (generation.distancesTo target) distance start).map GraphPath.mk
  else []

/-- The search up to a limit is the first of all paths. -/
theorem pathsUpTo_eq (hkeyed : generation.Keyed) (start target : String) {limit : Nat}
    (hlimit : 1 ≤ limit) :
    generation.pathsUpTo start target limit = (generation.allPaths start target).take limit := by
  unfold pathsUpTo allPaths
  by_cases htarget : generation.Holds target
  · rw [if_pos htarget]
    by_cases hstart : generation.Holds start
    · rw [if_neg (by simp [hstart, htarget]; omega)]
      by_cases hsame : start = target
      · subst hsame
        have hzero : (generation.distancesTo start).get? start = some 0 :=
          (get?_distancesTo hkeyed start start 0).mpr (Search.isDist_zero.mpr rfl)
        rw [if_pos rfl, hzero]
        exact (List.take_of_length_le hlimit).symm
      · rw [if_neg hsame]
        cases hdistance : (generation.distancesTo target).get? start with
        | none => simp [hdistance]
        | some distance => simpa [hdistance] using walk_eq _ distance start [] [] (Nat.zero_le _)
    · rw [if_pos (.inr (.inl hstart))]
      cases hdistance : (generation.distancesTo target).get? start with
      | none => exact List.take_nil.symm
      | some distance =>
        obtain ⟨hops, hshortest, -⟩ := (get?_distancesTo_eq_some hkeyed htarget).mp hdistance
        exact absurd hshortest.path.holds hstart
  · rw [if_neg htarget, if_pos (.inr (.inr htarget)), List.take_nil]

/-- All paths are exactly the shortest ones. -/
theorem mem_allPaths (hkeyed : generation.Keyed) (path : GraphPath) :
    path ∈ generation.allPaths start target ↔
      generation.IsShortest start target path.hops := by
  unfold allPaths
  by_cases htarget : generation.Holds target
  · rw [if_pos htarget]
    cases hdistance : (generation.distancesTo target).get? start with
    | none =>
      simp only [List.not_mem_nil, false_iff]
      intro h
      have := (get?_distancesTo_eq_some hkeyed htarget).mpr ⟨_, h, rfl⟩
      simp [hdistance] at this
    | some distance =>
      obtain ⟨best, hbest, hlength⟩ := (get?_distancesTo_eq_some hkeyed htarget).mp hdistance
      obtain ⟨hops⟩ := path
      simp only [List.mem_map, GraphPath.mk.injEq, exists_eq_right]
      rw [mem_allWalks hkeyed htarget distance hdistance]
      constructor
      · rintro ⟨hpath, rfl⟩
        exact ⟨hpath, fun other hother => hlength ▸ hbest.least other hother⟩
      · intro h
        refine ⟨h.path, ?_⟩
        rw [← hlength]
        exact Nat.le_antisymm (h.least _ hbest.path) (hbest.least _ h.path)
  · rw [if_neg htarget]
    simp only [List.not_mem_nil, false_iff]
    exact fun h => htarget h.path.holds_target

/-- The degrees of separation are the hops of the shortest paths, if there are any. -/
theorem degrees_eq_some (hkeyed : generation.Keyed) {n : Nat} :
    generation.degrees start target = some n ↔
      ∃ hops, generation.IsShortest start target hops ∧ hops.length = n := by
  unfold degrees
  by_cases hsame : start = target
  · subst hsame
    rw [if_pos rfl]
    by_cases hstart : generation.Holds start
    · rw [if_pos hstart, Option.some.injEq]
      have hnil : generation.IsShortest start start [] := ⟨.nil hstart, fun _ _ => Nat.zero_le _⟩
      constructor
      · rintro rfl
        exact ⟨[], hnil, rfl⟩
      · rintro ⟨hops, h, rfl⟩
        exact (Nat.le_zero.mp (h.least [] hnil.path)).symm
    · rw [if_neg hstart]
      simp only [reduceCtorEq, false_iff, not_exists, not_and]
      exact fun hops h => absurd h.path.holds hstart
  · rw [if_neg hsame, get?_distancesFrom_eq hkeyed]
    by_cases htarget : generation.Holds target
    · exact get?_distancesTo_eq_some hkeyed htarget
    · constructor
      · intro h
        have hsteps := ((get?_distancesTo hkeyed _ _ _).mp h).steps
        exact absurd (hsteps.eq_of_stuck (not_mem_incoming htarget)) hsame
      · rintro ⟨hops, h, -⟩
        exact absurd h.path.holds_target htarget

/-- A lookup returns the first of all shortest paths in the order of the ids they visit, each as
long as the degrees of separation, which are known just when a path is found. -/
theorem shortest_paths_exact (generation : Generation) (hkeyed : generation.Keyed)
    (hdistinct : generation.DistinctSubjects) (start target : String) (limit : Nat)
    (hlimit : 1 ≤ limit) :
    (∃ all : List GraphPath,
      (∀ path, path ∈ all ↔ generation.IsShortest start target path.hops) ∧
      all.Pairwise (fun left right => left.visited start < right.visited start) ∧
      generation.pathsUpTo start target limit = all.take limit) ∧
    (∀ path ∈ generation.pathsUpTo start target limit,
      generation.degrees start target = some path.degrees) ∧
    ((generation.degrees start target).isSome ↔
      generation.pathsUpTo start target limit ≠ []) := by
  have heq := pathsUpTo_eq hkeyed start target hlimit
  refine ⟨⟨generation.allPaths start target, mem_allPaths hkeyed, ?_, heq⟩, ?_, ?_⟩
  · unfold allPaths
    split_ifs
    · cases (generation.distancesTo target).get? start with
      | none => exact .nil
      | some distance =>
        refine List.pairwise_map.mpr ((allWalks_sorted hdistinct _ distance start).imp ?_)
        exact fun h => List.cons_lt_cons_iff.mpr (.inr ⟨rfl, h⟩)
    · exact .nil
  · intro path hpath
    rw [heq] at hpath
    have hshortest := (mem_allPaths hkeyed path).mp (List.mem_of_mem_take hpath)
    exact (degrees_eq_some hkeyed).mpr ⟨path.hops, hshortest, rfl⟩
  · rw [heq, Option.isSome_iff_exists]
    constructor
    · rintro ⟨n, hn⟩ hnil
      obtain ⟨hops, hshortest, -⟩ := (degrees_eq_some hkeyed).mp hn
      have hmem := (mem_allPaths hkeyed ⟨hops⟩).mpr hshortest
      rcases List.take_eq_nil_iff.mp hnil with hzero | hnil
      · omega
      · simp [hnil] at hmem
    · intro hne
      obtain ⟨path, hpath⟩ := List.exists_mem_of_ne_nil _ hne
      have hshortest := (mem_allPaths hkeyed path).mp (List.mem_of_mem_take hpath)
      exact ⟨_, (degrees_eq_some hkeyed).mpr ⟨path.hops, hshortest, rfl⟩⟩

/-- A crawl in which `d` is two steps from `a` by way of `c` and of `b`, in this order of the
edges, and attests back to `a` and to an id that was not reached. -/
def sample : Generation where
  summary := ⟨"", 0, 2, ["a"], 4, 6, 4, true, some .depth, []⟩
  nodes :=
    let node (identity : String) (subjects : List String) : GraphNode :=
      ⟨identity, none, none, none, none, none, none, 0, [], none, none, none, .ok, none, none,
        subjects.map fun subject => ⟨subject, identity ++ subject, 0⟩⟩
    [node "a" ["c", "b"], node "b" ["d"], node "c" ["d"], node "d" ["a", "e"]].foldl
      (fun nodes node => nodes.insert node.identityId node) SortedMap.empty

/-- The sample's two shortest paths, found in order. -/
theorem shortest_paths_exact_sample :
    sample.pathsUpTo "a" "d" 3 =
      [⟨[⟨"a", "b", "ab"⟩, ⟨"b", "d", "bd"⟩]⟩, ⟨[⟨"a", "c", "ac"⟩, ⟨"c", "d", "cd"⟩]⟩] ∧
    (∃ all : List GraphPath,
      (∀ path, path ∈ all ↔ sample.IsShortest "a" "d" path.hops) ∧
      all.Pairwise (fun left right => left.visited "a" < right.visited "a") ∧
      sample.pathsUpTo "a" "d" 3 = all.take 3) ∧
    (∀ path ∈ sample.pathsUpTo "a" "d" 3, sample.degrees "a" "d" = some path.degrees) ∧
    ((sample.degrees "a" "d").isSome ↔ sample.pathsUpTo "a" "d" 3 ≠ []) :=
  ⟨by decide +kernel,
    shortest_paths_exact sample (by decide +kernel) (by decide +kernel) "a" "d" 3 (by decide)⟩

end Generation

end Mabel.Crawl
