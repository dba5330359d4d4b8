import Mabel.Graph.Store

/-!
# What a lookup sees beside a publisher

One thread publishes crawls one after another while another looks the current one up. The
pointer only ever names a generation whose files are all written, and from then on files of it
may go but never change. A lookup that lists node files before the first of them is removed
therefore reads the crawl as it was published, or fails at a file that is gone.
-/

namespace Mabel.Graph

open Program

variable {δ : Type}

namespace Generation

/-- The name of a generation. -/
def syncId (g : Generation δ) : String := g.summary.syncId

/-- What `graph/current.json` holds once a generation is live. -/
def pointer (g : Generation δ) : CurrentPointer := ⟨g.summary.syncId, g.summary.lastSyncMs⟩

end Generation

/-- A generation whose files are all there. -/
def Complete (g : Generation δ) (s : GraphFiles δ) : Prop :=
  s.summaryOf g.syncId = some g.summary ∧ s.nodesOf g.syncId = g.nodes.val

/-- What is on disk of a generation once all of it was written. -/
structure Seen (g : Generation δ) (s : GraphFiles δ) : Prop where
  summary : ∀ summary, s.summaryOf g.syncId = some summary → summary = g.summary
  nodes : ∀ identity node, (s.nodesOf g.syncId).get? identity = some node →
    g.nodes.val.get? identity = some node
  whole : g.syncId ∉ s.collected → s.nodesOf g.syncId = g.nodes.val

/-- A complete generation is seen. -/
theorem Complete.seen {g : Generation δ} {s : GraphFiles δ} (h : Complete g s) : Seen g s where
  summary _ hsummary := Option.some.inj (hsummary.symm.trans h.1)
  nodes _ _ hnode := by rwa [h.2] at hnode
  whole _ := h.2

/-- An operation that writes nothing but a generation's own files under its name. -/
def GraphOp.Suits (g : Generation δ) : GraphOp δ → Prop
  | .writeNode syncId identity node =>
    syncId = g.syncId → g.nodes.val.get? identity = some node
  | .writeSummary syncId summary => syncId = g.syncId → summary = g.summary
  | _ => True

/-- What was written in full stays so, but for files that go. -/
theorem Seen.step {g : Generation δ} {s : GraphFiles δ} {op : GraphOp δ} (h : Seen g s)
    (hop : op.Suits g) : Seen g (op.exec s).2 := by
  have hnodes := op.nodesOf_exec s g.syncId
  constructor
  · intro summary hsummary
    rcases op.summaryOf_exec s g.syncId with hsame | ⟨-, hnone⟩ | ⟨x, rfl, hsame | hx⟩
    · exact h.summary summary (hsame ▸ hsummary)
    · rw [hnone] at hsummary
      cases hsummary
    · exact h.summary summary (hsame ▸ hsummary)
    · rw [← Option.some.inj (hx.symm.trans hsummary)]
      exact hop rfl
  · intro identity node hnode
    rcases hnodes with hsame | ⟨k, rfl, hremoved⟩ | ⟨k, n, rfl, hwritten⟩
    · exact h.nodes identity node (hsame ▸ hnode)
    · rw [hremoved, SortedMap.get?_remove] at hnode
      split_ifs at hnode
      exact h.nodes identity node hnode
    · rw [hwritten, SortedMap.get?_insert] at hnode
      split_ifs at hnode with heq
      · rw [heq, ← Option.some.inj hnode]
        exact hop rfl
      · exact h.nodes identity node hnode
  · intro hkept
    have hbefore := h.whole fun hmem => hkept (op.collected_exec s _ hmem)
    rcases hnodes with hsame | ⟨k, rfl, -⟩ | ⟨k, n, rfl, hwritten⟩
    · rw [hsame, hbefore]
    · exact absurd (List.mem_cons_self ..) hkept
    · rw [hwritten, hbefore]
      refine SortedMap.ext fun identity => ?_
      rw [SortedMap.get?_insert]
      split_ifs with heq
      · rw [heq]
        exact (hop rfl).symm
      · rfl

/-! ## The discipline -/

/-- What a thread is doing. -/
inductive Role where
  | reading
  | publishing
  deriving DecidableEq

/-- Threads share `graph/` without a lock. -/
def sharing (δ : Type) : Sharing (GraphOp δ) GraphOp.Reply (GraphFiles δ) Empty Role where
  exec := GraphOp.exec
  acquires _ := none
  holds _ _ := false
  turn m _ _ := m
  resting := .reading

section Discipline

variable (gens : List (Generation δ))

/-- The pointer names a generation that was written in full. -/
def Pointed (s : GraphFiles δ) : Prop :=
  ∀ pointer, s.current = some pointer →
    ∃ g ∈ gens, g.syncId = pointer.syncId ∧ Seen g s ∧ g.syncId ∈ s.pointed

/-- What happens to generations beside a lookup. -/
def Lasts (s t : GraphFiles δ) : Prop :=
  (∀ g ∈ gens, Seen g s → Seen g t) ∧ ∀ syncId ∈ s.pointed, syncId ∈ t.pointed

/-- One thread publishes; lookups change nothing, and list the node files of a generation
before any of them is removed. -/
def discipline : Discipline (sharing δ) where
  apart s m op _ := m = .reading → ∀ syncId, op = .listNodes syncId → syncId ∉ s.collected
  rely m s t := match m with
    | .reading => Lasts gens s t
    | .publishing => t = s
  guarantee m _ s t := (m = .reading → t = s) ∧ Lasts gens s t ∧ (Pointed gens s → Pointed gens t)
  invariant modes s := Exclusive (fun m => m = Role.publishing) modes ∧ 2 ≤ modes.length ∧
    Pointed gens s
  finds m op s := Pointed gens s ∧
    (m = .reading → ∀ syncId, op = .listNodes syncId → syncId ∉ s.collected)
  finds_of := by
    intro modes s i m op hinvariant hi hapart _
    refine ⟨hinvariant.2.2, ?_⟩
    obtain ⟨hlt, -⟩ := List.getElem?_eq_some_iff.mp hi
    have hothers : modes.eraseIdx i ≠ [] := by
      intro hnil
      have hlength := List.length_eraseIdx_of_lt hlt
      have := hinvariant.2.1
      rw [hnil, List.length_nil] at hlength
      omega
    obtain ⟨other, hother⟩ := List.exists_mem_of_ne_nil _ hothers
    exact hapart other hother
  rely_of := by
    intro modes s i m op hinvariant hi _ hguarantee other hother
    cases other with
    | reading => exact hguarantee.2.1
    | publishing =>
      refine hguarantee.1 ?_
      cases m with
      | reading => rfl
      | publishing => exact absurd rfl (hinvariant.1.others hi rfl _ hother)
  invariant_of := by
    intro modes s i m op hinvariant hi _ _ hguarantee
    refine ⟨?_, ?_, hguarantee.2.2 hinvariant.2.2⟩
    · obtain ⟨hlt, heq⟩ := List.getElem?_eq_some_iff.mp hi
      change Exclusive _ (modes.set i m)
      rw [← heq, List.set_getElem_self]
      exact hinvariant.1
    · rw [List.length_set]
      exact hinvariant.2.1
  invariant_return := by
    intro modes s i m hinvariant hi _
    refine ⟨hinvariant.1.set fun h => ?_, ?_, hinvariant.2.2⟩
    · cases h
    · rw [List.length_set]
      exact hinvariant.2.1
  guarantee_rest s := ⟨fun _ => rfl, ⟨fun _ _ => id, fun _ => id⟩, id⟩

end Discipline

variable {gens : List (Generation δ)}

theorem Lasts.refl (s : GraphFiles δ) : Lasts gens s s := ⟨fun _ _ => id, fun _ => id⟩

/-- A step of the publisher keeps every generation it has written. -/
theorem guarantee_publishing {op : GraphOp δ} {s : GraphFiles δ} {m : Role}
    (hop : ∀ g ∈ gens, op.Suits g)
    (hcurrent : ∀ pointer, op = .writeCurrent pointer →
      ∃ g ∈ gens, g.syncId = pointer.syncId ∧ Seen g s) :
    (discipline gens).guarantee .publishing m s (op.exec s).2 := by
  refine ⟨fun h => (nomatch h), ⟨fun g hg hseen => hseen.step (hop g hg), op.pointed_exec s⟩, ?_⟩
  intro hpointed pointer hpointer
  rcases op.current_exec s with ⟨next, rfl⟩ | ⟨hsame, -⟩
  · obtain ⟨g, hg, hid, hseen⟩ := hcurrent next rfl
    obtain rfl : next = pointer := Option.some.inj hpointer
    refine ⟨g, hg, hid, hseen.step trivial, ?_⟩
    rw [hid]
    exact List.mem_cons_self ..
  · obtain ⟨g, hg, hid, hseen, hmem⟩ := hpointed pointer (hsame ▸ hpointer)
    exact ⟨g, hg, hid, hseen.step (hop g hg), op.pointed_exec s _ hmem⟩

/-- What the publisher knows of the state. -/
def Publishing (I : GraphFiles δ → Prop) (m : Role) (s : GraphFiles δ) : Prop :=
  m = .publishing ∧ I s

/-- What the publisher holds is stable under the readers' steps. -/
theorem stable_publishing {I : GraphFiles δ → Prop} (m : Role) :
    (discipline gens).Stable m (Publishing I m) := by
  rintro s t hrely ⟨rfl, hs⟩
  obtain rfl : t = s := hrely
  exact ⟨rfl, hs⟩

/-- One operation of the publisher. -/
theorem publishing_bind {ε β : Type} {I : GraphFiles δ → Prop} (op : GraphOp δ)
    {J : op.Reply → GraphFiles δ → Prop}
    {f : op.Reply → Program (GraphOp δ) GraphOp.Reply ε β}
    {Q : Outcome ε β → Role → GraphFiles δ → Prop} (hop : ∀ g ∈ gens, op.Suits g)
    (hcurrent : ∀ s, I s → ∀ pointer, op = .writeCurrent pointer →
      ∃ g ∈ gens, g.syncId = pointer.syncId ∧ Seen g s)
    (h : ∀ s, I s → J (op.exec s).1 (op.exec s).2)
    (hf : ∀ reply, (discipline gens).Triple (Publishing (J reply)) (f reply) Q) :
    (discipline gens).Triple (Publishing I) (ask op >>= f) Q := by
  refine .ask_bind op (fun _ m => stable_publishing m) ?_ hf
  rintro m s ⟨rfl, hs⟩ -
  exact ⟨guarantee_publishing hop (hcurrent s hs), rfl, h s hs⟩

/-- Operations that keep what the publisher knows. -/
theorem publishing_of_performs {ε α : Type} {K : GraphOp δ → Prop} {I : GraphFiles δ → Prop}
    {p : Program (GraphOp δ) GraphOp.Reply ε α} (h : p.Performs K)
    (hK : ∀ op, K op → (∀ g ∈ gens, op.Suits g) ∧ (∀ pointer, op ≠ .writeCurrent pointer) ∧
      ∀ s, I s → I (op.exec s).2) :
    (discipline gens).Triple (Publishing I) p fun _ => Publishing I := by
  induction p with
  | done result => exact fun m s hs => hs
  | perform op next ih =>
    obtain ⟨hsuits, hcurrent, hkeeps⟩ := hK op h.1
    exact publishing_bind op hsuits (fun _ _ pointer hpointer => absurd hpointer (hcurrent pointer))
      hkeeps fun reply => ih reply (h.2 reply)

/-! ## Publishing -/

/-- The generation the last successful call published. -/
def lastPublished (done : List (Generation δ)) : Option (Generation δ) :=
  (done.filter fun g => (checkSyncId g.syncId).toBool).getLast?

theorem lastPublished_append_valid (done : List (Generation δ)) {g : Generation δ}
    (h : checkSyncId g.syncId = .ok ()) : lastPublished (done ++ [g]) = some g := by
  simp [lastPublished, List.filter_append, h, Except.toBool]

/-- A refused publish leaves the last one. -/
theorem lastPublished_append_invalid (done : List (Generation δ)) {g : Generation δ}
    {e : Fault GraphError} (h : checkSyncId g.syncId = .error e) :
    lastPublished (done ++ [g]) = lastPublished done := by
  simp [lastPublished, List.filter_append, h, Except.toBool]

/-- `graph/` when no call is in progress. -/
structure Stored (done : List (Generation δ)) (s : GraphFiles δ) : Prop where
  known : ∀ syncId dir, s.generations.get? syncId = some dir → ∃ g ∈ done, g.syncId = syncId
  current : s.current = (lastPublished done).map Generation.pointer
  complete : ∀ g, lastPublished done = some g → Complete g s

/-- Nothing is stored yet. -/
theorem Stored.empty : Stored [] (GraphFiles.empty : GraphFiles δ) where
  known _ _ h := nomatch h
  current := rfl
  complete _ h := nomatch h

/-- A generation whose node files are being written. -/
structure Writing (done : List (Generation δ)) (g : Generation δ)
    (written : List (String × GraphNode δ)) (s : GraphFiles δ) : Prop where
  known : ∀ syncId dir, s.generations.get? syncId = some dir →
    ∃ g' ∈ done ++ [g], g'.syncId = syncId
  dir : (s.nodesDir g.syncId).isSome
  files : ∀ identity node, (s.nodesOf g.syncId).get? identity = some node ↔
    (identity, node) ∈ written

/-- An operation that makes no generation appear leaves only known ones. -/
theorem known_step {done : List (Generation δ)} {op : GraphOp δ} {s : GraphFiles δ}
    (h : ∀ syncId dir, s.generations.get? syncId = some dir → ∃ g ∈ done, g.syncId = syncId)
    (hop : ∀ syncId, op ≠ .createNodes syncId) :
    ∀ syncId dir, (op.exec s).2.generations.get? syncId = some dir →
      ∃ g ∈ done, g.syncId = syncId := by
  intro syncId dir hdir
  rcases op.generations_exec s syncId hdir with hcreate | ⟨before, hbefore⟩
  · exact absurd hcreate (hop syncId)
  · exact h syncId before hbefore

section Publish

variable {done : List (Generation δ)} {g : Generation δ}

/-- Making a fresh directory starts a generation. -/
theorem Stored.create {s : GraphFiles δ} (h : Stored done s)
    (hfresh : ∀ g' ∈ done, g'.syncId ≠ g.syncId) :
    Writing done g [] ((GraphOp.createNodes g.syncId).exec s).2 := by
  have habsent : s.generations.get? g.syncId = none := by
    rw [Option.eq_none_iff_forall_ne_some]
    intro dir hdir
    obtain ⟨g', hg', heq⟩ := h.known _ dir hdir
    exact hfresh g' hg' heq
  have hdir : ((GraphOp.createNodes g.syncId).exec s).2.nodesDir g.syncId =
      some SortedMap.empty := by
    simp [GraphOp.exec, GraphFiles.nodesDir, habsent]
  refine ⟨fun syncId dir hget => ?_, by rw [hdir]; rfl, fun identity node => ?_⟩
  · rcases GraphOp.generations_exec _ s syncId hget with hcreate | ⟨before, hbefore⟩
    · exact ⟨g, by simp, GraphOp.createNodes.inj hcreate⟩
    · obtain ⟨g', hg', heq⟩ := h.known _ before hbefore
      exact ⟨g', by simp [hg'], heq⟩
  · simp [GraphFiles.nodesOf, hdir]

/-- Writing a fresh node continues the generation. -/
theorem Writing.write {written : List (String × GraphNode δ)} {identity : String}
    {node : GraphNode δ} {s : GraphFiles δ} (h : Writing done g written s)
    (hnew : ∀ other, (identity, other) ∉ written) :
    Writing done g (written ++ [(identity, node)])
      ((GraphOp.writeNode g.syncId identity node).exec s).2 := by
  refine ⟨known_step h.known fun _ hop => (nomatch hop), ?_, fun k n => ?_⟩
  · rw [GraphOp.exec, GraphFiles.nodesDir_inDir, if_pos rfl]
    have hsome := h.dir
    rw [GraphFiles.nodesDir] at hsome
    cases hdir : s.generations.get? g.syncId with
    | none => simp [hdir] at hsome
    | some dir => simpa [hdir] using hsome
  · rw [GraphOp.exec, GraphFiles.nodesOf_inDir_map, if_pos ⟨rfl, h.dir⟩, SortedMap.get?_insert]
    split_ifs with hk
    · subst hk
      have := hnew n
      simp [this, eq_comm]
    · simp [h.files, hk]

/-- All files are written once the summary is. -/
theorem Writing.complete {s : GraphFiles δ} (h : Writing done g g.nodes.val.entries s) :
    Complete g ((GraphOp.writeSummary g.syncId g.summary).exec s).2 := by
  have hsome : (s.generations.get? g.syncId).isSome := by
    have := h.dir
    rw [GraphFiles.nodesDir] at this
    cases hdir : s.generations.get? g.syncId with
    | none => simp [hdir] at this
    | some dir => rfl
  obtain ⟨dir, hdir⟩ := Option.isSome_iff_exists.mp hsome
  refine ⟨?_, ?_⟩
  · rw [GraphOp.exec, GraphFiles.summaryOf_inDir, if_pos rfl, hdir]
    rfl
  · have hsame : ((GraphOp.writeSummary g.syncId g.summary).exec s).2.nodesOf g.syncId =
        s.nodesOf g.syncId := GraphFiles.nodesOf_inDir_same _ _ fun _ => rfl
    rw [hsame]
    refine SortedMap.ext fun identity => Option.ext fun node => ?_
    rw [h.files, SortedMap.get?_eq_some]

/-- What the publisher writes of one generation suits every other. -/
theorem suits_of_distinct (hdistinct : (gens.map Generation.syncId).Nodup) (hg : g ∈ gens)
    {op : GraphOp δ} (hop : op.Suits g)
    (hname : ∀ g' : Generation δ, g'.syncId ≠ g.syncId → op.Suits g') :
    ∀ g' ∈ gens, op.Suits g' := by
  intro g' hg'
  by_cases heq : g'.syncId = g.syncId
  · rw [List.inj_on_of_nodup_map hdistinct hg' hg heq]
    exact hop
  · exact hname g' heq

/-- The nodes are written one by one; the induction is on those left. -/
theorem meets_writeNodes (hdistinct : (gens.map Generation.syncId).Nodup) (hg : g ∈ gens) :
    ∀ (rest written : List (String × GraphNode δ)), g.nodes.val.entries = written ++ rest →
      (discipline gens).Triple (Publishing (Writing done g written))
        (GraphStore.writeNodes g.syncId rest)
        fun r => Publishing fun s => r = .ok () ∧ Writing done g g.nodes.val.entries s := by
  intro rest
  induction rest with
  | nil =>
    intro written hentries
    rw [List.append_nil] at hentries
    refine .pure fun m s hs => ⟨hs.1, rfl, ?_⟩
    rw [hentries]
    exact hs.2
  | cons entry rest ih =>
    intro written hentries
    obtain ⟨identity, node⟩ := entry
    have hmem : (identity, node) ∈ g.nodes.val.entries := by simp [hentries]
    have hnew : ∀ other, (identity, other) ∉ written := by
      intro other hother
      have hnodup := g.nodes.val.nodup_keys
      rw [SortedMap.keys, hentries, List.map_append, List.nodup_append] at hnodup
      exact hnodup.2.2 identity (List.mem_map_of_mem (f := Prod.fst) hother) identity (by simp) rfl
    refine publishing_bind (.writeNode g.syncId identity node)
      (J := fun found s => found = true ∧ Writing done g (written ++ [(identity, node)]) s)
      (suits_of_distinct hdistinct hg (fun _ => SortedMap.get?_eq_some.mpr hmem)
        fun g' hne heq => absurd heq.symm hne)
      (fun _ _ _ hop => by cases hop) (fun s hs => ⟨hs.dir, hs.write hnew⟩) fun found => ?_
    refine .assume (fun m s hs => hs.2.1) fun hfound => ?_
    refine .lift_bind (fun _ _ => ?_) fun e he => ?_
    · refine (ih (written ++ [(identity, node)]) (by simp [hentries])).mono
        (fun m s hs => ⟨hs.1, hs.2.2⟩) fun _ _ _ => id
    · obtain rfl : found = true := hfound
      cases he

/-- A generation written whole is stored beside the earlier ones. -/
theorem meets_writeGeneration (hdistinct : (gens.map Generation.syncId).Nodup) (hg : g ∈ gens)
    (hfresh : ∀ g' ∈ done, g'.syncId ≠ g.syncId) (hvalid : checkSyncId g.syncId = .ok ()) :
    (discipline gens).Triple (Publishing (Stored done)) (GraphStore.writeGeneration g)
      fun r => Publishing fun s => r = .ok () ∧ Complete g s ∧
        ∀ syncId dir, s.generations.get? syncId = some dir →
          ∃ g' ∈ done ++ [g], g'.syncId = syncId := by
  refine .lift_bind (fun _ _ => ?_) fun e he => ?_
  · refine publishing_bind _ (J := fun _ => Writing done g []) (fun _ _ => trivial)
      (fun _ _ _ hop => nomatch hop) (fun s hs => hs.create hfresh) fun _ => ?_
    refine .bind (meets_writeNodes hdistinct hg _ [] rfl) (fun _ => ?_) fun e m s hs =>
      nomatch hs.2.1
    refine publishing_bind (.writeSummary g.syncId g.summary)
      (J := fun found s => found = true ∧ Complete g s ∧ ∀ syncId dir,
        s.generations.get? syncId = some dir → ∃ g' ∈ done ++ [g], g'.syncId = syncId)
      (suits_of_distinct hdistinct hg (fun _ => rfl) fun g' hne heq => absurd heq.symm hne)
      (fun _ _ _ hop => nomatch hop) (fun s hs => ?_) fun found => ?_
    · refine ⟨?_, hs.2.complete, known_step hs.2.known fun _ hop => nomatch hop⟩
      have hdir := hs.2.dir
      rw [GraphFiles.nodesDir] at hdir
      cases hget : s.generations.get? g.syncId with
      | none => simp [hget] at hdir
      | some dir =>
        change (s.generations.get? g.syncId).isSome = true
        rw [hget]
        rfl
    · refine .assume (fun m s hs => hs.2.1) fun hfound => ?_
      obtain rfl : found = true := hfound
      exact .lift fun m s hs => ⟨hs.1, rfl, hs.2.2⟩
  · rw [← Generation.syncId, hvalid] at he
    cases he

/-- Operations of collection: lists, and removals in other generations than the live one. -/
def GraphOp.Collects (keep : String) : GraphOp δ → Prop
  | .listNodes _ => True
  | .listGenerations => True
  | .removeSummary syncId => syncId ≠ keep
  | .removeNode syncId _ => syncId ≠ keep
  | .removeNodes syncId => syncId ≠ keep
  | .removeGeneration syncId => syncId ≠ keep
  | _ => False

/-- Removing another generation's node files collects. -/
theorem removeNodeFiles_collects {keep syncId : String} (h : syncId ≠ keep)
    (names : List String) :
    (GraphStore.removeNodeFiles syncId names : OnGraph δ Unit).Performs
      (GraphOp.Collects keep) := by
  induction names with
  | nil => exact .pure _
  | cons name rest ih => exact .bind (.ask h) fun _ => ih

/-- Removing another generation collects. -/
theorem removeDirAll_collects {keep syncId : String} (listing : GraphStore.Listing)
    (h : syncId ≠ keep) :
    (GraphStore.removeDirAll listing syncId : OnGraph δ Unit).Performs
      (GraphOp.Collects keep) := by
  have hnodes : (GraphStore.removeNodesDir listing syncId : OnGraph δ Unit).Performs
      (GraphOp.Collects keep) :=
    .bind (.ask trivial) fun _ => .bind (removeNodeFiles_collects h _) fun _ => .ask h
  exact .ite (.bind (.ask h) fun _ => .bind hnodes fun _ => .ask h)
    (.bind hnodes fun _ => .bind (.ask h) fun _ => .ask h)

/-- The collector spares the generation it keeps. -/
theorem collect_collects (listing : GraphStore.Listing) (keep : String) :
    (GraphStore.collect listing keep : OnGraph δ Unit).Performs (GraphOp.Collects keep) := by
  refine .bind (.bind (.ask trivial) fun _ => .pure _) fun ids => ?_
  induction ids.take (ids.length - keptGenerations) with
  | nil => exact .pure _
  | cons syncId rest ih =>
    refine .bind ?_ fun _ => ih
    split_ifs with h
    · exact .pure _
    · exact removeDirAll_collects listing h

/-- Collection leaves the live generation as it is. -/
theorem Stored.collects {op : GraphOp δ} {s : GraphFiles δ} (h : Stored done s)
    (hlast : lastPublished done = some g) (hop : op.Collects g.syncId) :
    Stored done (op.exec s).2 := by
  refine ⟨known_step h.known ?_, ?_, ?_⟩
  · rintro syncId rfl
    exact hop
  · rcases op.current_exec s with ⟨pointer, rfl⟩ | ⟨hsame, -⟩
    · exact hop.elim
    · rw [hsame]
      exact h.current
  · intro g' hg'
    obtain rfl := Option.some.inj (hlast.symm.trans hg')
    obtain ⟨hsummary, hnodes⟩ := h.complete g hlast
    constructor
    · rcases op.summaryOf_exec s g.syncId with hsame | ⟨rfl, -⟩ | ⟨x, rfl, -⟩
      · rw [hsame, hsummary]
      · exact absurd rfl hop
      · exact hop.elim
    · rcases op.nodesOf_exec s g.syncId with hsame | ⟨k, rfl, -⟩ | ⟨k, n, rfl, -⟩
      · rw [hsame, hnodes]
      · exact absurd rfl hop
      · exact hop.elim

/-- One call, whether it succeeds or not. -/
theorem meets_publish (hdistinct : (gens.map Generation.syncId).Nodup) (hg : g ∈ gens)
    (hfresh : ∀ g' ∈ done, g'.syncId ≠ g.syncId) (listing : GraphStore.Listing) :
    (discipline gens).Triple (Publishing (Stored done)) (GraphStore.publish listing g)
      fun _ => Publishing (Stored (done ++ [g])) := by
  cases hvalid : checkSyncId g.syncId with
  | error e =>
    have hfails : GraphStore.publish listing g = lift (.error e) := by
      rw [GraphStore.publish, GraphStore.writeGeneration, ← Generation.syncId, hvalid]
      rfl
    rw [hfails]
    refine .lift fun m s hs => ⟨hs.1, ?_, ?_, ?_⟩
    · intro syncId dir hdir
      obtain ⟨g', hg', heq⟩ := hs.2.known syncId dir hdir
      exact ⟨g', List.mem_append_left _ hg', heq⟩
    · rw [lastPublished_append_invalid done hvalid]
      exact hs.2.current
    · rw [lastPublished_append_invalid done hvalid]
      exact hs.2.complete
  | ok _ =>
    have hlast := lastPublished_append_valid done hvalid
    refine .bind (meets_writeGeneration hdistinct hg hfresh hvalid) (fun _ => ?_) fun e m s hs =>
      nomatch hs.2.1
    refine .bind (R := fun r => Publishing fun s => r = .ok () ∧ Stored (done ++ [g]) s) ?_
      (fun _ => ?_) fun e m s hs => nomatch hs.2.1
    · refine .lift_bind (fun _ _ => ?_) fun e he => ?_
      · refine .ask _ (fun _ m => stable_publishing m) ?_
        rintro m s ⟨rfl, -, hcomplete, hknown⟩ -
        refine ⟨guarantee_publishing (fun _ _ => trivial) ?_, rfl, rfl, hknown, ?_, ?_⟩
        · intro pointer hpointer
          exact ⟨g, hg, congrArg CurrentPointer.syncId (GraphOp.writeCurrent.inj hpointer),
            hcomplete.seen⟩
        · rw [hlast]
          rfl
        · intro g' hg'
          obtain rfl := Option.some.inj (hlast.symm.trans hg')
          exact hcomplete
      · rw [← Generation.syncId, hvalid] at he
        cases he
    · refine (publishing_of_performs (collect_collects listing g.syncId) fun op hop =>
        ⟨fun g' _ => ?_, ?_, fun s hs => hs.collects hlast hop⟩).mono (fun m s hs => ⟨hs.1, hs.2.2⟩)
          fun _ _ _ => id
      · cases op <;> trivial
      · rintro pointer rfl
        exact hop

end Publish

/-- A publish call: the generation, and how its directories are listed. -/
abbrev PublishCall (δ : Type) := Generation δ × GraphStore.Listing

/-- Calls one after another, each whatever became of the last. -/
def publishAll : List (PublishCall δ) →
    Program (GraphOp δ) GraphOp.Reply Empty (List (Outcome GraphError Unit))
  | [] => pure []
  | (generation, listing) :: rest => do
    let result ← (GraphStore.publish listing generation).conclude id
    let results ← publishAll rest
    pure (result :: results)

/-- A run of publishes stores what the last valid one wrote; the induction is on the calls left.
-/
theorem meets_publishAll (hdistinct : (gens.map Generation.syncId).Nodup)
    (calls : List (PublishCall δ)) :
    ∀ done, gens = done ++ calls.map Prod.fst →
      (discipline gens).Triple (Publishing (Stored done)) (publishAll calls)
        fun r => Publishing fun s => (∃ results, r = .ok results) ∧ Stored gens s := by
  induction calls with
  | nil =>
    intro done hgens
    rw [List.map_nil, List.append_nil] at hgens
    exact .pure fun m s hs => ⟨hs.1, ⟨_, rfl⟩, hgens ▸ hs.2⟩
  | cons call rest ih =>
    intro done hgens
    obtain ⟨g, listing⟩ := call
    have hfresh : ∀ g' ∈ done, g'.syncId ≠ g.syncId := by
      intro g' hg' heq
      rw [hgens, List.map_append, List.nodup_append] at hdistinct
      exact hdistinct.2.2 _ (List.mem_map_of_mem hg') _ (by simp) heq
    refine .bind (R := fun r => Publishing fun s => (∃ result, r = .ok result) ∧
        Stored (done ++ [g]) s)
      (.conclude ((meets_publish hdistinct (by simp [hgens]) hfresh listing).mono
        (fun _ _ => id) fun r m s hs => ⟨hs.1, ⟨_, rfl⟩, hs.2⟩))
      (fun result => ?_) fun e m s hs => ?_
    · refine .bind ((ih (done ++ [g]) (by simp [hgens])).mono (fun m s hs => ⟨hs.1, hs.2.2⟩)
        fun _ _ _ => id) (fun results => ?_) fun e m s hs => ?_
      · exact .pure fun m s hs => ⟨hs.1, ⟨_, rfl⟩, hs.2.2⟩
      · obtain ⟨-, ⟨results, hresults⟩, -⟩ := hs
        cases hresults
    · obtain ⟨-, ⟨result, hresult⟩, -⟩ := hs
      cases hresult

/-! ## Looking up -/

/-- What a lookup knows of the state. -/
def Reading (I : GraphFiles δ → Prop) (m : Role) (s : GraphFiles δ) : Prop :=
  m = .reading ∧ I s

/-- One operation of a lookup. -/
theorem reading_bind {β : Type} {I : GraphFiles δ → Prop} (op : GraphOp δ)
    {J : op.Reply → GraphFiles δ → Prop} {f : op.Reply → OnGraph δ β}
    {Q : Outcome GraphError β → Role → GraphFiles δ → Prop} (hop : ∀ s, (op.exec s).2 = s)
    (hstable : ∀ reply s t, Lasts gens s t → J reply s → J reply t)
    (h : ∀ s, I s → Pointed gens s → (∀ syncId, op = .listNodes syncId → syncId ∉ s.collected) →
      J (op.exec s).1 s)
    (hf : ∀ reply, (discipline gens).Triple (Reading (J reply)) (f reply) Q) :
    (discipline gens).Triple (Reading I) (ask op >>= f) Q := by
  refine .ask_bind op (R := fun reply => Reading (J reply)) ?_ ?_ hf
  · rintro reply m s t hrely ⟨rfl, hs⟩
    exact ⟨rfl, hstable reply s t hrely hs⟩
  · rintro m s ⟨rfl, hs⟩ hfinds
    change (discipline gens).guarantee _ _ s (op.exec s).2 ∧ Reading _ _ (op.exec s).2
    rw [hop s]
    exact ⟨⟨fun _ => rfl, .refl s, id⟩, rfl, h s hs hfinds.1 (hfinds.2 rfl)⟩

/-- The generation a lookup has resolved the pointer to. -/
def Resolved (g : Generation δ) (s : GraphFiles δ) : Prop := Seen g s ∧ g.syncId ∈ s.pointed

theorem Resolved.lasts {g : Generation δ} {s t : GraphFiles δ} (hg : g ∈ gens)
    (h : Resolved g s) (hlasts : Lasts gens s t) : Resolved g t :=
  ⟨hlasts.1 g hg h.1, hlasts.2 _ h.2⟩

/-- What a lookup answers once the pointer is resolved. -/
def Answers (g : Generation δ) (answer : Outcome GraphError (Option (Generation δ)))
    (s : GraphFiles δ) : Prop :=
  ∀ g', answer = .ok (some g') → g' = g ∧ g.syncId ∈ s.pointed

/-- Node files read so far, of all that were listed. -/
theorem meets_readNodes {g : Generation δ} (hg : g ∈ gens) (rest : List String) :
    ∀ (got : List String) (nodes : NodeMap δ),
      (∀ identity, nodes.val.get? identity =
        if identity ∈ got then g.nodes.val.get? identity else none) →
      (discipline gens).Triple (Reading (Resolved g)) (GraphStore.readNodes g.syncId rest nodes)
        fun r => Reading fun s => Resolved g s ∧ ∀ all : NodeMap δ, r = .ok all →
          ∀ identity, all.val.get? identity =
            if identity ∈ got ++ rest then g.nodes.val.get? identity else none := by
  induction rest with
  | nil =>
    intro got nodes hnodes
    refine .pure fun m s hs => ⟨hs.1, hs.2, fun all hall => ?_⟩
    obtain rfl := Except.ok.inj hall
    rw [List.append_nil]
    exact hnodes
  | cons identity rest ih =>
    intro got nodes hnodes
    refine reading_bind (.readNode g.syncId identity)
      (J := fun found s => Resolved g s ∧ ∀ node, found = some node →
        g.nodes.val.get? identity = some node) (fun _ => rfl)
      (fun _ _ _ hlasts hs => ⟨hs.1.lasts hg hlasts, hs.2⟩)
      (fun s hs _ _ => ⟨hs, fun node hnode => hs.1.nodes identity node hnode⟩) fun found => ?_
    refine .lift_bind (fun node hnode => ?_) fun e _ m s hs => ⟨hs.1, hs.2.1, fun _ hall => by
      cases hall⟩
    obtain rfl : found = some node := by
      rcases found with _ | found
      · cases hnode
      · rw [Except.ok.inj hnode]
    refine .assume (fun m s hs => hs.2.2 node rfl) fun hget => ?_
    refine ((ih (got ++ [identity]) (nodes.insert node) fun other => ?_).mono
      (fun m s hs => ⟨hs.1, hs.2.1⟩) fun _ _ _ => ?_)
    · change (nodes.val.insert node.identityId node).get? other = _
      rw [SortedMap.get?_insert, g.nodes.property identity node hget, hnodes other]
      by_cases heq : other = identity
      · simp [heq, hget]
      · simp [heq]
    · rw [List.append_assoc]
      exact id

/-- A reader that resolved the pointer reads its generation. -/
theorem meets_generation {g : Generation δ} (hg : g ∈ gens) (listing : GraphStore.Listing) :
    (discipline gens).Triple (Reading (Resolved g)) (GraphStore.generation listing g.syncId)
      fun r => Reading (Answers g r) := by
  refine .lift_bind (fun _ _ => ?_) fun e _ m s hs => ⟨hs.1, fun _ h => by cases h⟩
  refine reading_bind (.readSummary g.syncId)
    (J := fun found s => Resolved g s ∧ ∀ summary, found = some summary → summary = g.summary)
    (fun _ => rfl) (fun _ _ _ hlasts hs => ⟨hs.1.lasts hg hlasts, hs.2⟩)
    (fun s hs _ _ => ⟨hs, hs.1.summary⟩) fun found => ?_
  cases found with
  | none => exact .pure fun m s hs => ⟨hs.1, fun _ h => by cases h⟩
  | some summary =>
    refine .assume (fun m s hs => hs.2.2 summary rfl) fun hsummary => ?_
    refine reading_bind (.listNodes g.syncId)
      (J := fun names s => Resolved g s ∧ g.nodes.val.keys = names.getD [])
      (fun _ => rfl) (fun _ _ _ hlasts hs => ⟨hs.1.lasts hg hlasts, hs.2⟩)
      (fun s hs _ hkept => ⟨hs.1, ?_⟩) fun names => ?_
    · change g.nodes.val.keys = ((s.nodesDir g.syncId).map SortedMap.keys).getD []
      rw [← hs.1.1.whole (hkept _ rfl), GraphFiles.nodesOf]
      cases s.nodesDir g.syncId <;> rfl
    · refine .assume (fun m s hs => hs.2.2) fun hkeys => ?_
      cases names with
      | none =>
        refine .pure fun m s hs => ⟨hs.1, fun g' hg' => ?_⟩
        have hnone : ∀ identity ∈ g.nodes.val.keys, identity ∈ ([] : List String) := by
          rw [hkeys]
          exact fun _ => id
        have hnodes : (.empty : NodeMap δ) = g.nodes :=
          Subtype.ext (SortedMap.ext_of_keys hnone fun _ => rfl)
        have hanswer := Option.some.inj (Except.ok.inj hg')
        rw [hsummary, hnodes] at hanswer
        exact ⟨hanswer.symm, hs.2.1.2⟩
      | some names =>
        have hperm := listing.perm names
        refine .bind ((meets_readNodes hg (listing.arrange names) [] .empty fun _ => rfl).mono
          (fun m s hs => ⟨hs.1, hs.2.1⟩) fun _ _ _ => id) (fun nodes => ?_) fun e m s hs =>
            ⟨hs.1, fun _ h => by cases h⟩
        refine .pure fun m s hs => ⟨hs.1, fun g' hg' => ?_⟩
        have hnodes : nodes = g.nodes := by
          refine Subtype.ext (SortedMap.ext_of_keys (fun identity hmem => ?_) (hs.2.2 nodes rfl))
          rw [hkeys] at hmem
          exact hperm.mem_iff.mpr hmem
        have hanswer := Option.some.inj (Except.ok.inj hg')
        rw [hsummary, hnodes] at hanswer
        exact ⟨hanswer.symm, hs.2.1.2⟩

/-- What a lookup that answers a generation answers: one the pointer has named, as it was
published. -/
theorem meets_currentGeneration (listing : GraphStore.Listing) :
    (discipline gens).Triple (Reading fun _ => True) (GraphStore.currentGeneration listing)
      fun r => Reading fun s => ∀ g, r = .ok (some g) → g ∈ gens ∧ g.syncId ∈ s.pointed := by
  refine reading_bind .readCurrent
    (J := fun found s => ∀ pointer, found = some pointer →
      ∃ g ∈ gens, g.syncId = pointer.syncId ∧ Resolved g s) (fun _ => rfl) ?_
    (fun s _ hpointed _ => hpointed) fun found => ?_
  · intro found s t hlasts hs pointer hpointer
    obtain ⟨g, hg, hid, hresolved⟩ := hs pointer hpointer
    exact ⟨g, hg, hid, hresolved.lasts hg hlasts⟩
  · cases found with
    | none => exact .pure fun m s hs => ⟨hs.1, fun _ h => by cases h⟩
    | some pointer =>
      refine .mono (.choose (P := fun g m s => g ∈ gens ∧ g.syncId = pointer.syncId ∧
        Reading (Resolved g) m s) fun g => ?_) (fun m s hs => ?_) fun _ _ _ => id
      · refine .assume (fun m s hs => hs.1) fun hg => .assume (fun m s hs => hs.2.1) fun hid => ?_
        dsimp only
        rw [← hid]
        refine (meets_generation hg listing).mono (fun m s hs => hs.2.2) fun r m s hs =>
          ⟨hs.1, fun g' hg' => ?_⟩
        obtain ⟨rfl, hpointed⟩ := hs.2 g' hg'
        exact ⟨hg, hpointed⟩
      · obtain ⟨g, hg, hid, hresolved⟩ := hs.2 pointer rfl
        exact ⟨g, hg, hid, hs.1, hresolved⟩

end Mabel.Graph
