import Mabel.Core.Pool
import Mabel.Core.SortedMap
import Mathlib.Order.Lattice
import Mathlib.Data.String.Basic

/-!
# Generations of the graph on disk

Each crawl is one directory under `graph/generations/`, a summary and one file for every node,
and `graph/current.json` names the live one. A crawl is published in three parts: its files are
written, the pointer is replaced, and older generations are removed. A lookup reads the pointer
once and then the files of the generation it names. Documents are kept as the values they
decode to, and every operation on a file or a directory is one step.
-/

namespace Mabel.Graph

/-! ## Documents -/

/-- One identity as a crawl saw it; what else its file tells is left open. -/
structure GraphNode (δ : Type) where
  identityId : String
  details : δ
  deriving DecidableEq

/-- The counts and caps of one crawl. -/
structure GraphSummary (δ : Type) where
  syncId : String
  lastSyncMs : Nat
  details : δ
  deriving DecidableEq

/-- Nodes, by identity id. -/
def NodeMap (δ : Type) :=
  { nodes : SortedMap String (GraphNode δ) //
    ∀ identity node, nodes.get? identity = some node → node.identityId = identity }

namespace NodeMap

variable {δ : Type}

instance [DecidableEq δ] : DecidableEq (NodeMap δ) := inferInstanceAs (DecidableEq (Subtype _))

def empty : NodeMap δ := ⟨SortedMap.empty, by simp⟩

def insert (nodes : NodeMap δ) (node : GraphNode δ) : NodeMap δ :=
  ⟨nodes.val.insert node.identityId node, by
    intro identity found h
    rw [SortedMap.get?_insert] at h
    split_ifs at h with heq
    · rw [← Option.some.inj h, heq]
    · exact nodes.property identity found h⟩

end NodeMap

/-- One crawl, in memory: its summary and every node it wrote. -/
structure Generation (δ : Type) where
  summary : GraphSummary δ
  nodes : NodeMap δ
  deriving DecidableEq

/-- The contents of `graph/current.json`. -/
structure CurrentPointer where
  syncId : String
  writtenAtMs : Nat
  deriving DecidableEq

inductive GraphError where
  /-- The path and the message of an error about a document. -/
  | json (path message : String)
  /-- A file or directory that is not there. -/
  | notFound (path : String)
  deriving DecidableEq

/-- How many generations survive a sync, the live one included. -/
def keptGenerations : Nat := 2

/-- A generation name is a path element and nothing else. -/
def checkSyncId (syncId : String) : Outcome GraphError Unit :=
  Outcome.rejectIf (¬ (syncId ≠ "" ∧ syncId.utf8ByteSize ≤ 64 ∧
      syncId.toList.all (fun c => c.isLower || c.isDigit || c == '-') = true))
    (.json syncId "a sync id is one or more of [a-z0-9-], at most 64 characters")

/-! ## Files -/

/-- What is in the directory of one generation. -/
structure GenerationDir (δ : Type) where
  summary : Option (GraphSummary δ)
  /-- The files of `nodes/`, by the identity they are named after. -/
  nodes : Option (SortedMap String (GraphNode δ))

/-- `graph/`, with a record of what became of it. -/
structure GraphFiles (δ : Type) where
  current : Option CurrentPointer
  generations : SortedMap String (GenerationDir δ)
  /-- Every generation the pointer has named. No code reads it. -/
  pointed : List String
  /-- Every generation a node file was removed from. No code reads it. -/
  collected : List String

/-- Operations on files and directories, each of them one step. -/
inductive GraphOp (δ : Type) where
  | createNodes (syncId : String)
  | writeNode (syncId identity : String) (node : GraphNode δ)
  | writeSummary (syncId : String) (summary : GraphSummary δ)
  | writeCurrent (pointer : CurrentPointer)
  | readCurrent
  | readSummary (syncId : String)
  | listNodes (syncId : String)
  | readNode (syncId identity : String)
  | listGenerations
  | removeSummary (syncId : String)
  | removeNode (syncId identity : String)
  /-- Removes `nodes/` if it is empty. -/
  | removeNodes (syncId : String)
  /-- Removes the directory of a generation if it is empty. -/
  | removeGeneration (syncId : String)

/-- What an operation replies: for reads nothing where there is no such file or directory, for
writes whether there is a directory to write to. -/
def GraphOp.Reply {δ : Type} : GraphOp δ → Type
  | .writeNode _ _ _ => Bool
  | .writeSummary _ _ => Bool
  | .readCurrent => Option CurrentPointer
  | .readSummary _ => Option (GraphSummary δ)
  | .listNodes _ => Option (List String)
  | .readNode _ _ => Option (GraphNode δ)
  | .listGenerations => List String
  | _ => Unit

namespace GraphFiles

variable {δ : Type}

/-- A home in which no crawl has run. -/
def empty : GraphFiles δ := ⟨none, SortedMap.empty, [], []⟩

def summaryOf (s : GraphFiles δ) (syncId : String) : Option (GraphSummary δ) :=
  (s.generations.get? syncId).bind GenerationDir.summary

/-- The node files of a generation, if it has a directory for them. -/
def nodesDir (s : GraphFiles δ) (syncId : String) : Option (SortedMap String (GraphNode δ)) :=
  (s.generations.get? syncId).bind GenerationDir.nodes

/-- The node files of a generation. -/
def nodesOf (s : GraphFiles δ) (syncId : String) : SortedMap String (GraphNode δ) :=
  (s.nodesDir syncId).getD SortedMap.empty

/-- Change the directory of one generation, if it is there. -/
def inDir (s : GraphFiles δ) (syncId : String) (f : GenerationDir δ → GenerationDir δ) :
    GraphFiles δ :=
  { s with generations := s.generations.adjust syncId f }

end GraphFiles

/-- The directory of a generation without `nodes/`, if that is empty. -/
def GenerationDir.dropNodes {δ : Type} (dir : GenerationDir δ) : GenerationDir δ :=
  match dir.nodes with
  | some nodes => if nodes.entries.isEmpty then { dir with nodes := none } else dir
  | none => dir

/-- Perform one operation. -/
def GraphOp.exec {δ : Type} : (op : GraphOp δ) → GraphFiles δ → op.Reply × GraphFiles δ
  | .createNodes syncId, s =>
    let dir := (s.generations.get? syncId).getD ⟨none, none⟩
    ((), { s with generations :=
      s.generations.insert syncId { dir with nodes := some (dir.nodes.getD SortedMap.empty) } })
  | .writeNode syncId identity node, s =>
    ((s.nodesDir syncId).isSome, s.inDir syncId fun dir =>
      { dir with nodes := dir.nodes.map fun nodes => nodes.insert identity node })
  | .writeSummary syncId summary, s =>
    ((s.generations.get? syncId).isSome, s.inDir syncId fun dir =>
      { dir with summary := some summary })
  | .writeCurrent pointer, s =>
    ((), { s with current := some pointer, pointed := pointer.syncId :: s.pointed })
  | .readCurrent, s => (s.current, s)
  | .readSummary syncId, s => (s.summaryOf syncId, s)
  | .listNodes syncId, s => ((s.nodesDir syncId).map SortedMap.keys, s)
  | .readNode syncId identity, s => ((s.nodesOf syncId).get? identity, s)
  | .listGenerations, s => (s.generations.keys, s)
  | .removeSummary syncId, s => ((), s.inDir syncId fun dir => { dir with summary := none })
  | .removeNode syncId identity, s =>
    ((), { s.inDir syncId (fun dir =>
        { dir with nodes := dir.nodes.map fun nodes => nodes.remove identity }) with
      collected := syncId :: s.collected })
  | .removeNodes syncId, s => ((), s.inDir syncId GenerationDir.dropNodes)
  | .removeGeneration syncId, s =>
    ((), if (s.summaryOf syncId).isNone ∧ (s.nodesDir syncId).isNone then
      { s with generations := s.generations.remove syncId } else s)

/-- A program on `graph/`. -/
abbrev OnGraph (δ α : Type) := Program (GraphOp δ) GraphOp.Reply GraphError α

/-! ## The store -/

namespace GraphStore

open Program

variable {δ : Type}

/-- In which order a directory lists its entries. -/
structure Listing where
  /-- Whether a generation lists `summary.json` before `nodes`. -/
  summaryFirst : Bool
  arrange : List String → List String
  perm : ∀ names, (arrange names).Perm names

/-- One write, which fails where there is no directory to write to. -/
def written (path : String) (found : Bool) : Outcome GraphError Unit :=
  Outcome.rejectIf (found = false) (.notFound path)

/-- Write the node files of a generation one after another. -/
def writeNodes (syncId : String) : List (String × GraphNode δ) → OnGraph δ Unit
  | [] => pure ()
  | (identity, node) :: rest => do
    let found ← ask (GraphOp.writeNode syncId identity node)
    lift (written identity found)
    writeNodes syncId rest

/-- Write a whole generation, without touching the pointer. -/
def writeGeneration (generation : Generation δ) : OnGraph δ Unit := do
  let syncId := generation.summary.syncId
  lift (checkSyncId syncId)
  ask (GraphOp.createNodes syncId)
  writeNodes syncId generation.nodes.val.entries
  let found ← ask (GraphOp.writeSummary syncId generation.summary)
  lift (written syncId found)

/-- Point `graph/current.json` at a generation with one rename. -/
def setCurrent (syncId : String) (writtenAtMs : Nat) : OnGraph δ Unit := do
  lift (checkSyncId syncId)
  ask (GraphOp.writeCurrent ⟨syncId, writtenAtMs⟩)

/-- Remove node files one after another. -/
def removeNodeFiles (syncId : String) : List String → OnGraph δ Unit
  | [] => pure ()
  | identity :: rest => do
    ask (GraphOp.removeNode syncId identity)
    removeNodeFiles syncId rest

/-- Remove `nodes/` and what is in it. -/
def removeNodesDir (listing : Listing) (syncId : String) : OnGraph δ Unit := do
  let names ← ask (GraphOp.listNodes syncId)
  removeNodeFiles syncId (listing.arrange (names.getD []))
  ask (GraphOp.removeNodes syncId)

/-- `remove_dir_all` of a generation: what is in it, in the order it is listed, then itself. -/
def removeDirAll (listing : Listing) (syncId : String) : OnGraph δ Unit :=
  if listing.summaryFirst then do
    ask (GraphOp.removeSummary syncId)
    removeNodesDir listing syncId
    ask (GraphOp.removeGeneration syncId)
  else do
    removeNodesDir listing syncId
    ask (GraphOp.removeSummary syncId)
    ask (GraphOp.removeGeneration syncId)

/-- The generations on disk that have a generation's name, oldest first. -/
def generationIds : OnGraph δ (List String) := do
  let names ← ask GraphOp.listGenerations
  pure (names.filter fun name => (checkSyncId name).toBool)

/-- Remove generations, but for the one to keep. -/
def collectAll (listing : Listing) (keep : String) : List String → OnGraph δ Unit
  | [] => pure ()
  | syncId :: rest =>
    (if syncId = keep then pure () else removeDirAll listing syncId) >>= fun _ =>
      collectAll listing keep rest

/-- Remove every generation but the newest ones and the one to keep. -/
def collect (listing : Listing) (keep : String) : OnGraph δ Unit := do
  let ids ← generationIds
  collectAll listing keep (ids.take (ids.length - keptGenerations))

/-- Write a generation, swap the pointer to it and collect. -/
def publish (listing : Listing) (generation : Generation δ) : OnGraph δ Unit := do
  writeGeneration generation
  setCurrent generation.summary.syncId generation.summary.lastSyncMs
  collect listing generation.summary.syncId

/-- Read node files one after another. -/
def readNodes (syncId : String) : List String → NodeMap δ → OnGraph δ (NodeMap δ)
  | [], nodes => pure nodes
  | identity :: rest, nodes => do
    let found ← ask (GraphOp.readNode syncId identity)
    let node ← lift (Outcome.orReject (.notFound identity) found)
    readNodes syncId rest (nodes.insert node)

/-- One generation by name, nothing when it has been collected. -/
def generation (listing : Listing) (syncId : String) : OnGraph δ (Option (Generation δ)) := do
  lift (checkSyncId syncId)
  match ← ask (GraphOp.readSummary syncId) with
  | none => pure none
  | some summary =>
    match ← ask (GraphOp.listNodes syncId) with
    | none => pure (some ⟨summary, .empty⟩)
    | some names => do
      let nodes ← readNodes syncId (listing.arrange names) .empty
      pure (some ⟨summary, nodes⟩)

/-- The generation the pointer names. -/
def currentGeneration (listing : Listing) : OnGraph δ (Option (Generation δ)) := do
  match ← ask GraphOp.readCurrent with
  | none => pure none
  | some pointer => generation listing pointer.syncId

end GraphStore

/-! ## What an operation changes -/

namespace GenerationDir

variable {δ : Type}

/-- Dropping the nodes leaves the summary. -/
theorem summary_dropNodes (dir : GenerationDir δ) : dir.dropNodes.summary = dir.summary := by
  rw [dropNodes]
  split
  · split_ifs <;> rfl
  · rfl

/-- A directory that can be removed holds no file. -/
theorem nodes_dropNodes (dir : GenerationDir δ) :
    dir.dropNodes.nodes.getD SortedMap.empty = dir.nodes.getD SortedMap.empty := by
  rw [dropNodes]
  split
  · rename_i nodes hnodes
    split_ifs with hempty
    · rw [hnodes]
      refine SortedMap.ext fun identity => ?_
      change none = nodes.get? identity
      rw [SortedMap.get?, List.isEmpty_iff.mp hempty]
      rfl
    · rfl
  · rfl

end GenerationDir

namespace GraphFiles

variable {δ : Type} {s : GraphFiles δ}

/-- A change in one directory changes its own summary. -/
theorem summaryOf_inDir (syncId other : String) (f : GenerationDir δ → GenerationDir δ) :
    (s.inDir syncId f).summaryOf other =
      if other = syncId then (s.generations.get? syncId).bind fun dir => (f dir).summary
      else s.summaryOf other := by
  rw [summaryOf, inDir, SortedMap.get?_adjust]
  split_ifs with h
  · rw [h]
    cases s.generations.get? syncId <;> rfl
  · rfl

/-- A change in one directory changes its own nodes. -/
theorem nodesDir_inDir (syncId other : String) (f : GenerationDir δ → GenerationDir δ) :
    (s.inDir syncId f).nodesDir other =
      if other = syncId then (s.generations.get? syncId).bind fun dir => (f dir).nodes
      else s.nodesDir other := by
  rw [nodesDir, inDir, SortedMap.get?_adjust]
  split_ifs with h
  · rw [h]
    cases s.generations.get? syncId <;> rfl
  · rfl

/-- A change that leaves every summary as it is. -/
theorem summaryOf_inDir_same (syncId other : String) {f : GenerationDir δ → GenerationDir δ}
    (h : ∀ dir, (f dir).summary = dir.summary) :
    (s.inDir syncId f).summaryOf other = s.summaryOf other := by
  rw [summaryOf_inDir]
  split_ifs with heq
  · rw [heq, summaryOf]
    exact congrArg (Option.bind _) (funext h)
  · rfl

/-- A change that leaves every node file as it is. -/
theorem nodesOf_inDir_same (syncId other : String) {f : GenerationDir δ → GenerationDir δ}
    (h : ∀ dir, (f dir).nodes.getD SortedMap.empty = dir.nodes.getD SortedMap.empty) :
    (s.inDir syncId f).nodesOf other = s.nodesOf other := by
  rw [nodesOf, nodesDir_inDir]
  split_ifs with heq
  · rw [heq, nodesOf, nodesDir]
    cases s.generations.get? syncId with
    | none => rfl
    | some dir => exact h dir
  · rfl

/-- Changing one map of node files where there is one. -/
theorem nodesOf_inDir_map (syncId other : String)
    (f : SortedMap String (GraphNode δ) → SortedMap String (GraphNode δ)) :
    (s.inDir syncId fun dir => { dir with nodes := dir.nodes.map f }).nodesOf other =
      if other = syncId ∧ (s.nodesDir syncId).isSome then f (s.nodesOf syncId)
      else s.nodesOf other := by
  rw [nodesOf, nodesDir_inDir, nodesOf, nodesOf]
  by_cases h : other = syncId
  · subst h
    rw [if_pos rfl]
    cases hdir : s.generations.get? other with
    | none => simp [nodesDir, hdir]
    | some dir => cases hnodes : dir.nodes <;> simp [nodesDir, hdir, hnodes]
  · simp [h]

end GraphFiles

namespace GraphOp

open GraphFiles

variable {δ : Type} (op : GraphOp δ) (s : GraphFiles δ) (syncId : String)

/-- A summary changes only where one is written or removed. -/
theorem summaryOf_exec :
    (op.exec s).2.summaryOf syncId = s.summaryOf syncId ∨
    op = .removeSummary syncId ∧ (op.exec s).2.summaryOf syncId = none ∨
    ∃ summary, op = .writeSummary syncId summary ∧
      ((op.exec s).2.summaryOf syncId = s.summaryOf syncId ∨
        (op.exec s).2.summaryOf syncId = some summary) := by
  cases op with
  | createNodes other =>
    refine .inl ?_
    rw [exec, summaryOf, SortedMap.get?_insert]
    split_ifs with h
    · rw [h, summaryOf]
      cases s.generations.get? other <;> rfl
    · rfl
  | writeNode other identity node => exact .inl (summaryOf_inDir_same _ _ fun _ => rfl)
  | writeSummary other summary =>
    rw [exec, summaryOf_inDir]
    split_ifs with h
    · subst h
      refine .inr (.inr ⟨summary, rfl, ?_⟩)
      cases hdir : s.generations.get? syncId with
      | none => exact .inl (by simp [summaryOf, hdir])
      | some dir => exact .inr (by simp)
    · exact .inl rfl
  | removeSummary other =>
    rw [exec, summaryOf_inDir]
    split_ifs with h
    · subst h
      refine .inr (.inl ⟨rfl, ?_⟩)
      cases s.generations.get? syncId <;> rfl
    · exact .inl rfl
  | removeNode other identity => exact .inl (summaryOf_inDir_same _ _ fun _ => rfl)
  | removeNodes other =>
    exact .inl (summaryOf_inDir_same _ _ GenerationDir.summary_dropNodes)
  | removeGeneration other =>
    refine .inl ?_
    rw [exec]
    split_ifs with h
    · rw [summaryOf, SortedMap.get?_remove]
      split_ifs with heq
      · rw [heq]
        exact (Option.isNone_iff_eq_none.mp h.1).symm
      · rfl
    · rfl
  | writeCurrent => exact .inl rfl
  | readCurrent => exact .inl rfl
  | readSummary => exact .inl rfl
  | listNodes => exact .inl rfl
  | readNode => exact .inl rfl
  | listGenerations => exact .inl rfl

/-- Node files change only where one is written or removed. -/
theorem nodesOf_exec :
    (op.exec s).2.nodesOf syncId = s.nodesOf syncId ∨
    (∃ identity, op = .removeNode syncId identity ∧
      (op.exec s).2.nodesOf syncId = (s.nodesOf syncId).remove identity) ∨
    ∃ identity node, op = .writeNode syncId identity node ∧
      (op.exec s).2.nodesOf syncId = (s.nodesOf syncId).insert identity node := by
  cases op with
  | createNodes other =>
    refine .inl ?_
    rw [exec, nodesOf, nodesDir, SortedMap.get?_insert]
    split_ifs with h
    · rw [h, nodesOf, nodesDir]
      cases s.generations.get? other <;> rfl
    · rfl
  | writeNode other identity node =>
    rw [exec, nodesOf_inDir_map]
    split_ifs with h
    · obtain ⟨rfl, -⟩ := h
      exact .inr (.inr ⟨identity, node, rfl, rfl⟩)
    · exact .inl rfl
  | writeSummary other summary => exact .inl (nodesOf_inDir_same _ _ fun _ => rfl)
  | removeSummary other => exact .inl (nodesOf_inDir_same _ _ fun _ => rfl)
  | removeNode other identity =>
    change (s.inDir other _).nodesOf syncId = _ ∨
      (∃ k, _ ∧ (s.inDir other _).nodesOf syncId = _) ∨ _
    rw [nodesOf_inDir_map]
    split_ifs with h
    · obtain ⟨rfl, -⟩ := h
      exact .inr (.inl ⟨identity, rfl, rfl⟩)
    · exact .inl rfl
  | removeNodes other => exact .inl (nodesOf_inDir_same _ _ GenerationDir.nodes_dropNodes)
  | removeGeneration other =>
    refine .inl ?_
    rw [exec]
    split_ifs with h
    · rw [nodesOf, nodesDir, SortedMap.get?_remove]
      split_ifs with heq
      · rw [heq, nodesOf, Option.isNone_iff_eq_none.mp h.2]
        rfl
      · rfl
    · rfl
  | writeCurrent => exact .inl rfl
  | readCurrent => exact .inl rfl
  | readSummary => exact .inl rfl
  | listNodes => exact .inl rfl
  | readNode => exact .inl rfl
  | listGenerations => exact .inl rfl

/-- Only creating directories makes a generation appear. -/
theorem generations_exec {dir : GenerationDir δ}
    (h : (op.exec s).2.generations.get? syncId = some dir) :
    op = .createNodes syncId ∨ ∃ before, s.generations.get? syncId = some before := by
  have hadjust : ∀ (other : String) (f : GenerationDir δ → GenerationDir δ),
      (s.generations.adjust other f).get? syncId = some dir →
        ∃ before, s.generations.get? syncId = some before := by
    intro other f hdir
    rw [SortedMap.get?_adjust] at hdir
    split_ifs at hdir
    · obtain ⟨before, hbefore, -⟩ := Option.map_eq_some_iff.mp hdir
      exact ⟨before, hbefore⟩
    · exact ⟨dir, hdir⟩
  cases op with
  | createNodes other =>
    rw [exec, SortedMap.get?_insert] at h
    split_ifs at h with heq
    · exact .inl (by rw [heq])
    · exact .inr ⟨dir, h⟩
  | writeNode => exact .inr (hadjust _ _ h)
  | writeSummary => exact .inr (hadjust _ _ h)
  | removeSummary => exact .inr (hadjust _ _ h)
  | removeNode => exact .inr (hadjust _ _ h)
  | removeNodes => exact .inr (hadjust _ _ h)
  | removeGeneration other =>
    rw [exec] at h
    split_ifs at h
    · rw [SortedMap.get?_remove] at h
      split_ifs at h
      exact .inr ⟨dir, h⟩
    · exact .inr ⟨dir, h⟩
  | writeCurrent => exact .inr ⟨dir, h⟩
  | readCurrent => exact .inr ⟨dir, h⟩
  | readSummary => exact .inr ⟨dir, h⟩
  | listNodes => exact .inr ⟨dir, h⟩
  | readNode => exact .inr ⟨dir, h⟩
  | listGenerations => exact .inr ⟨dir, h⟩

/-- Only writing the pointer changes it. -/
theorem current_exec : (∃ pointer, op = .writeCurrent pointer) ∨
    (op.exec s).2.current = s.current ∧ (op.exec s).2.pointed = s.pointed := by
  cases op with
  | writeCurrent pointer => exact .inl ⟨pointer, rfl⟩
  | removeGeneration other =>
    rw [exec]
    split_ifs <;> exact .inr ⟨rfl, rfl⟩
  | _ => exact .inr ⟨rfl, rfl⟩

/-- A generation collected stays collected. -/
theorem collected_exec (h : syncId ∈ s.collected) : syncId ∈ (op.exec s).2.collected := by
  cases op with
  | removeNode => exact List.mem_cons_of_mem _ h
  | removeGeneration other =>
    rw [exec]
    split_ifs <;> exact h
  | _ => exact h

/-- A generation pointed at was pointed at. -/
theorem pointed_exec (h : syncId ∈ s.pointed) : syncId ∈ (op.exec s).2.pointed := by
  rcases current_exec op s with ⟨pointer, rfl⟩ | ⟨-, heq⟩
  · exact List.mem_cons_of_mem _ h
  · rw [heq]
    exact h

end GraphOp

end Mabel.Graph
