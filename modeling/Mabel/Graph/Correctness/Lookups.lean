import Mabel.Graph.Correctness.Publishing

/-!
# Lookups see whole crawls

A lookup beside a publisher answers a crawl as it was published, or none, or an error, as long
as it lists the node files of the generation it resolved before collection removes one of them.
Nothing in the store sees to that: a lookup that is slower answers part of a crawl. With no
publisher at work a lookup answers the crawl published last.
-/

namespace Mabel.Graph

open Program

variable {δ : Type}

/-! ## With no publisher at work -/

/-- Reading node files that are all there. -/
theorem run_readNodes (s : GraphFiles δ) (syncId : String) (rest : List String) :
    ∀ (got : List String) (nodes : NodeMap δ),
      (∀ identity ∈ rest, ∃ node : GraphNode δ, node.identityId = identity ∧
        (s.nodesOf syncId).get? identity = some node) →
      (∀ identity, nodes.val.get? identity =
        if identity ∈ got then (s.nodesOf syncId).get? identity else none) →
      ∃ all : NodeMap δ, run GraphOp.exec (GraphStore.readNodes syncId rest nodes) s = (.ok all, s) ∧
        ∀ identity, all.val.get? identity =
          if identity ∈ got ++ rest then (s.nodesOf syncId).get? identity else none := by
  induction rest with
  | nil =>
    intro got nodes _ hnodes
    refine ⟨nodes, rfl, ?_⟩
    rw [List.append_nil]
    exact hnodes
  | cons identity rest ih =>
    intro got nodes hthere hnodes
    obtain ⟨node, hid, hget⟩ := hthere identity List.mem_cons_self
    obtain ⟨all, hrun, hall⟩ := ih (got ++ [identity]) (nodes.insert node)
      (fun other hother => hthere other (List.mem_cons_of_mem _ hother)) fun other => by
        change (nodes.val.insert node.identityId node).get? other = _
        rw [SortedMap.get?_insert, hid, hnodes other]
        by_cases heq : other = identity
        · simp [heq, hget]
        · simp [heq]
    refine ⟨all, ?_, by simpa using hall⟩
    rw [GraphStore.readNodes, run_ask_bind]
    change run GraphOp.exec (lift (Outcome.orReject _ ((s.nodesOf syncId).get? identity)) >>= _) s = _
    rw [hget]
    exact hrun

/-- The pointer's generation is read whole where it is complete. -/
theorem run_currentGeneration (listing : GraphStore.Listing) {g : Generation δ}
    {s : GraphFiles δ} (hvalid : checkSyncId g.syncId = .ok ())
    (hcurrent : s.current = some g.pointer) (hcomplete : Complete g s) :
    run GraphOp.exec (GraphStore.currentGeneration listing) s = (.ok (some g), s) := by
  obtain ⟨hsummary, hnodes⟩ := hcomplete
  have hgeneration : run GraphOp.exec (GraphStore.generation listing g.syncId) s =
      (.ok (some g), s) := by
    have hread : (GraphOp.readSummary g.syncId).exec s = (some g.summary, s) := by
      rw [← hsummary]
      rfl
    have hlist : (GraphOp.listNodes g.syncId).exec s =
        ((s.nodesDir g.syncId).map SortedMap.keys, s) := rfl
    rw [GraphStore.generation, run_lift_ok_bind hvalid, run_ask_bind, hread]
    dsimp only
    rw [run_ask_bind, hlist]
    cases hdir : s.nodesDir g.syncId with
    | none =>
      rw [GraphFiles.nodesOf, hdir] at hnodes
      have hempty : (.empty : NodeMap δ) = g.nodes := Subtype.ext hnodes
      rw [Option.map_none, hempty]
      rfl
    | some nodes =>
      have hkeys : nodes.keys = g.nodes.val.keys := by
        rw [← hnodes, GraphFiles.nodesOf, hdir]
        rfl
      obtain ⟨all, hrun, hall⟩ := run_readNodes s g.syncId (listing.arrange nodes.keys) []
        .empty (fun identity hmem => by
          rw [(listing.perm _).mem_iff, hkeys, SortedMap.mem_keys] at hmem
          obtain ⟨node, hnode⟩ := hmem
          exact ⟨node, g.nodes.property identity node hnode, by rw [hnodes, hnode]⟩)
        fun _ => rfl
      have heq : all = g.nodes := by
        refine Subtype.ext (SortedMap.ext_of_keys (fun identity hmem => ?_) (hnodes ▸ hall))
        rwa [List.nil_append, (listing.perm _).mem_iff, hkeys]
      rw [Option.map_some]
      dsimp only
      rw [run_bind_of_ok hrun, heq]
      rfl
  have hread : GraphOp.readCurrent.exec s = (some g.pointer, s) := by
    rw [← hcurrent]
    rfl
  rw [GraphStore.currentGeneration, run_ask_bind, hread]
  exact hgeneration

/-- A lookup on `graph/` when no call is in progress. -/
theorem run_currentGeneration_stored (listing : GraphStore.Listing) {done : List (Generation δ)}
    {s : GraphFiles δ} (h : Stored done s) :
    run GraphOp.exec (GraphStore.currentGeneration listing) s = (.ok (lastPublished done), s) := by
  cases hlast : lastPublished done with
  | none =>
    have hcurrent := h.current
    rw [hlast] at hcurrent
    have hread : GraphOp.readCurrent.exec s = (none, s) := by
      rw [← show s.current = none from hcurrent]
      rfl
    rw [GraphStore.currentGeneration, run_ask_bind, hread]
    rfl
  | some g =>
    refine run_currentGeneration listing ?_ ?_ (h.complete g hlast)
    · have hmem := List.mem_of_getLast? hlast
      have hvalid := (List.mem_filter.mp hmem).2
      cases hcheck : checkSyncId g.syncId with
      | ok _ => rfl
      | error e => simp [hcheck, Except.toBool] at hvalid
    · rw [h.current, hlast]
      rfl

/-! ## Beside a publisher -/

/-- How a thread ends. -/
inductive Answer (δ : Type) where
  | published (results : List (Outcome GraphError Unit))
  | found (result : Outcome GraphError (Option (Generation δ)))
  deriving DecidableEq

/-- A publisher, and one lookup beside it, in a home where no crawl has run. -/
def start (calls : List (PublishCall δ)) (listing : GraphStore.Listing) :
    Pool (GraphOp δ) GraphOp.Reply (GraphFiles δ) Role (Answer δ) where
  state := .empty
  threads := [⟨publishAll calls >>= fun results => pure (.published results), .publishing⟩,
    ⟨(GraphStore.currentGeneration listing).conclude .found, .reading⟩]

/-- What a thread has answered. -/
def answerOf (pool : Pool (GraphOp δ) GraphOp.Reply (GraphFiles δ) Role (Answer δ)) (i : Nat) :
    Option (Answer δ) :=
  match pool.threads[i]? with
  | some ⟨.done (.ok answer), _⟩ => some answer
  | _ => none

/-- The next step is not a lookup that lists the node files of a generation after collection
removed one of them. -/
def Undisturbed (pool : Pool (GraphOp δ) GraphOp.Reply (GraphFiles δ) Role (Answer δ))
    (i : Nat) : Prop :=
  match pool.threads[i]? with
  | some ⟨.perform (.listNodes syncId) _, .reading⟩ => syncId ∉ pool.state.collected
  | _ => True

instance (pool : Pool (GraphOp δ) GraphOp.Reply (GraphFiles δ) Role (Answer δ)) (i : Nat) :
    Decidable (Undisturbed pool i) := by
  unfold Undisturbed
  split <;> infer_instance

/-- A lookup no collection disturbs keeps apart from it. -/
theorem apart_of_undisturbed (gens : List (Generation δ))
    (pool : Pool (GraphOp δ) GraphOp.Reply (GraphFiles δ) Role (Answer δ)) (i : Nat)
    (h : Undisturbed pool i) : pool.Apart (sharing δ) (discipline gens).apart i := by
  rw [Undisturbed] at h
  rw [Pool.Apart]
  cases hthread : pool.threads[i]? with
  | none => trivial
  | some thread =>
    rw [hthread] at h
    obtain ⟨program, mode⟩ := thread
    cases program with
    | done result => trivial
    | perform op next =>
      rintro - other - rfl syncId rfl
      exact h

/-- What an answer tells. -/
def Answer.Sound (gens : List (Generation δ)) (answer : Answer δ) (s : GraphFiles δ) : Prop :=
  ∀ g, answer = .found (.ok (some g)) → g ∈ gens ∧ g.syncId ∈ s.pointed

/-- The threads start as the discipline asks. -/
theorem kept_start (calls : List (PublishCall δ)) (listing : GraphStore.Listing)
    (hdistinct : (calls.map fun call => call.1.syncId).Nodup) :
    (discipline (calls.map Prod.fst)).Kept (Answer.Sound (calls.map Prod.fst))
      (start calls listing) := by
  have hgens : ((calls.map Prod.fst).map Generation.syncId).Nodup := by
    rw [List.map_map]
    exact hdistinct
  refine ⟨⟨?_, le_refl 2, fun _ h => by cases h⟩, ?_⟩
  · intro i j m m' hi hj hm hm'
    match i, j with
    | 0, 0 => rfl
    | 0, 1 => exact nomatch (Option.some.inj hj).trans hm'
    | 1, _ => exact nomatch (Option.some.inj hi).trans hm
    | 0, j + 2 => cases hj
    | i + 2, _ => cases hi
  · intro thread hthread
    rcases List.mem_cons.mp hthread with rfl | hreader
    · refine ⟨Publishing (Stored []) .publishing, stable_publishing .publishing, ⟨rfl, .empty⟩, ?_⟩
      refine Discipline.Triple.bind (meets_publishAll hgens calls [] rfl) (fun results => ?_)
        (fun e m s hs => ?_) .publishing
      · refine .pure fun m s _ => ⟨⟨fun _ => rfl, .refl s, id⟩, fun answer hanswer g hg => ?_⟩
        obtain rfl := Except.ok.inj hanswer
        cases hg
      · obtain ⟨-, ⟨results, hresults⟩, -⟩ := hs
        cases hresults
    · obtain rfl := List.mem_singleton.mp hreader
      refine ⟨Reading (fun _ => True) .reading, fun _ _ _ hs => hs, ⟨rfl, trivial⟩, ?_⟩
      refine Discipline.Triple.conclude ((meets_currentGeneration listing).mono (fun _ _ => id)
        fun r m s hs => ⟨⟨fun _ => rfl, .refl s, id⟩, fun answer hanswer g hg => ?_⟩) .reading
      obtain rfl := Except.ok.inj hanswer
      exact hs.2 g (Answer.found.inj hg)

/-- What publish calls with distinct names leave on disk. -/
theorem stored_publishAll (calls : List (PublishCall δ))
    (hdistinct : (calls.map fun call => call.1.syncId).Nodup) :
    Stored (calls.map Prod.fst) (run GraphOp.exec (publishAll calls) .empty).2 := by
  have hgens : ((calls.map Prod.fst).map Generation.syncId).Nodup := by
    rw [List.map_map]
    exact hdistinct
  have hkept := kept_start calls ⟨false, id, .refl⟩ hdistinct
  have hapart : ∀ m s op other, m = Role.publishing →
      (discipline (calls.map Prod.fst)).apart s m op other := by
    rintro m s op other rfl hreading
    cases hreading
  obtain ⟨m, -, -, -, hstored⟩ := (meets_publishAll hgens calls [] rfl .publishing).alone
    (N := (· = .publishing)) (i := 0) rfl (fun _ _ _ hm => hm) (fun _ => rfl) hapart rfl
    hkept.invariant ⟨rfl, .empty⟩
  exact hstored

/-- Every lookup beside publish calls with distinct names that lists node files before
collection removes one of them answers a generation that was published in full if it answers
any, and a lookup while no call is in progress answers exactly the generation published
last. -/
theorem lookups_see_whole_crawls (calls : List (PublishCall δ)) (listing : GraphStore.Listing)
    (hdistinct : (calls.map fun call => call.1.syncId).Nodup) :
    (∀ schedule, Pool.Along (sharing δ) Undisturbed (start calls listing) schedule →
      ∀ g, answerOf ((start calls listing).run (sharing δ) schedule) 1 =
          some (.found (.ok (some g))) →
        g ∈ calls.map Prod.fst ∧
          g.syncId ∈ ((start calls listing).run (sharing δ) schedule).state.pointed) ∧
    run GraphOp.exec (GraphStore.currentGeneration listing)
        (run GraphOp.exec (publishAll calls) .empty).2 =
      (.ok (lastPublished (calls.map Prod.fst)), (run GraphOp.exec (publishAll calls) .empty).2) := by
  have hkept := kept_start calls listing hdistinct
  constructor
  · intro schedule halong g hanswer
    have hsound : ∀ answer, (discipline (calls.map Prod.fst)).Stable .reading
        (Answer.Sound (calls.map Prod.fst) answer) := by
      intro answer s t hrely hs g hg
      exact ⟨(hs g hg).1, hrely.2 _ (hs g hg).2⟩
    obtain ⟨hrun, -⟩ := hkept.run hsound (R := fun _ _ => True) (fun _ => trivial)
      (fun _ _ _ _ _ => trivial) (fun _ _ _ _ _ => trivial) schedule
      (Pool.along_mono (apart_of_undisturbed _) schedule halong)
    unfold answerOf at hanswer
    split at hanswer
    · rename_i answer mode hthread
      exact (hrun.keeps _ (List.mem_of_getElem? hthread)).answer rfl g (Option.some.inj hanswer)
    · cases hanswer
  · exact run_currentGeneration_stored listing (stored_publishAll calls hdistinct)

/-! ## A slow lookup -/

namespace Sample

def identity (c : Char) : String := String.ofList (List.replicate 52 c)

/-- A crawl that reached some identities. -/
def crawl (syncId : String) (startedMs : Nat) (reached : List Char) : Generation Unit where
  summary := ⟨syncId, startedMs, ()⟩
  nodes := reached.foldl (fun nodes c => nodes.insert ⟨identity c, ()⟩) .empty

/-- Directories that list what they hold in the order of names, `nodes` first. -/
def byName : GraphStore.Listing := ⟨false, id, .refl⟩

def first : Generation Unit := crawl "0000000000001-a" 1 ['a', 'b']

/-- Three crawls, of which publishing the last removes the first. -/
def calls : List (PublishCall Unit) :=
  [(first, byName), (crawl "0000000000002-b" 2 ['a'], byName),
    (crawl "0000000000003-c" 3 ['a'], byName)]

/-- The lookup runs while the first crawl is the only one. -/
def promptly : List Nat := List.replicate 6 0 ++ List.replicate 5 1

/-- The lookup resolves the pointer to the first crawl, and lists its node files when the first
of them is gone. -/
def late : List Nat := List.replicate 6 0 ++ [1] ++ List.replicate 12 0 ++ List.replicate 3 1

end Sample

/-- A prompt lookup of the sample finds the crawl published first. -/
theorem lookups_see_whole_crawls_promptly :
    answerOf ((start Sample.calls Sample.byName).run (sharing Unit) Sample.promptly) 1 =
        some (.found (.ok (some Sample.first))) ∧
      Sample.first ∈ Sample.calls.map Prod.fst ∧ Sample.first.syncId ∈
        ((start Sample.calls Sample.byName).run (sharing Unit) Sample.promptly).state.pointed := by
  have hanswer : answerOf ((start Sample.calls Sample.byName).run (sharing Unit) Sample.promptly) 1 =
      some (.found (.ok (some Sample.first))) := by decide +kernel
  exact ⟨hanswer, (lookups_see_whole_crawls Sample.calls Sample.byName (by decide +kernel)).1
    Sample.promptly (by decide +kernel) _ hanswer⟩

/-- A lookup that is late answers a crawl nobody published. -/
theorem late_lookup_sees_half :
    (Sample.calls.map fun call => call.1.syncId).Nodup ∧
    answerOf ((start Sample.calls Sample.byName).run (sharing Unit) Sample.late) 1 =
      some (.found (.ok (some (Sample.crawl "0000000000001-a" 1 ['b'])))) ∧
    Sample.crawl "0000000000001-a" 1 ['b'] ∉ Sample.calls.map Prod.fst := by
  decide +kernel

end Mabel.Graph
