import Mabel.Core.SortedMap
import Mabel.Ledger.Sign.Keys

/-!
# Which machines a witness answers through

A node keeps, for each witness identity, the endpoints that the identity's own chain was seen to
advertise by somebody else. A longer chain replaces the list, an equal one adds to it and a
shorter one is ignored. What the list was derived from is known from its entries alone, so a list
that a longer chain left empty remembers no chain at all.
-/

namespace Mabel.Node

variable {C : Crypto}

/-! ## Records -/

/-- Whether a witness identity's own ledger vouches for an endpoint. -/
inductive Binding where
  | verified
  | hinted
  deriving DecidableEq, Repr

/-- One endpoint a witness identity's chain named, and the observation that verified it. -/
structure BoundEndpoint (C : Crypto) where
  endpoint : EndpointId C
  headSeq : Nat
  headEvent : EventId
  /-- The endpoint that served the chain. -/
  source : EndpointId C
  observedMs : Nat
  deriving DecidableEq

/-- The contents of `bindings/<identity_id>.json`. -/
structure Bindings (C : Crypto) where
  identity : IdentityId
  endpoints : List (BoundEndpoint C)
  deriving DecidableEq

/-- Whether the identity's ledger vouches for an endpoint. -/
def Bindings.binding (bindings : Bindings C) (endpoint : EndpointId C) : Binding :=
  if bindings.endpoints.any fun bound => decide (bound.endpoint = endpoint) then .verified
  else .hinted

/-- The highest head seq any entry derives from. -/
def Bindings.headSeq (bindings : Bindings C) : Option Nat :=
  (bindings.endpoints.map BoundEndpoint.headSeq).max?

/-- One chain of a witness identity's own, as one source served it. -/
structure Observation (C : Crypto) where
  identity : IdentityId
  headSeq : Nat
  headEvent : EventId
  /-- The endpoints the chain advertises. -/
  endpoints : List (EndpointId C)
  source : EndpointId C
  observedMs : Nat
  /-- Whether the source's provenance may establish a binding at all. -/
  mayBind : Bool
  deriving DecidableEq

/-- The endpoints an observation may verify: every advertised one except the one that served
the evidence. -/
def Observation.vouched (o : Observation C) : List (EndpointId C) :=
  if o.mayBind = false then [] else o.endpoints.filter fun endpoint => decide (endpoint ≠ o.source)

/-- What an observation did to the record on disk. -/
inductive Recorded (C : Crypto) where
  | replaced (bindings : Bindings C)
  | refreshed (bindings : Bindings C)
  | ignored
  | cleared
  | nothing
  deriving DecidableEq

/-! ## The head-seq rules -/

/-- The entry an observation makes of an endpoint. -/
def Observation.entry (o : Observation C) (endpoint : EndpointId C) : BoundEndpoint C :=
  ⟨endpoint, o.headSeq, o.headEvent, o.source, o.observedMs⟩

/-- The list an observation makes on its own. -/
def Observation.bindings (o : Observation C) : Bindings C := ⟨o.identity, o.vouched.map o.entry⟩

/-- Put an entry in the place of the one for its endpoint, or behind all of them. -/
def mergeEntry (bound : BoundEndpoint C) : List (BoundEndpoint C) → List (BoundEndpoint C)
  | [] => [bound]
  | other :: rest =>
    if other.endpoint = bound.endpoint then bound :: rest else other :: mergeEntry bound rest

/-- Add the entries of an observation to a list. -/
def mergeEntries (o : Observation C) (entries : List (BoundEndpoint C)) :
    List (BoundEndpoint C) :=
  o.vouched.foldl (fun merged endpoint => mergeEntry (o.entry endpoint) merged) entries

/-- The head-seq rules over the record on disk. -/
def applyObservation (existing : Option (Bindings C)) (o : Observation C) : Recorded C :=
  if o.mayBind = false then .nothing
  else
    match existing with
    | none => if o.vouched = [] then .nothing else .replaced o.bindings
    | some existing =>
      match existing.headSeq with
      -- A record with no entry says nothing about any head seq.
      | none => if o.vouched = [] then .nothing else .replaced o.bindings
      | some recorded =>
        if o.headSeq < recorded then .ignored
        else if recorded < o.headSeq then .replaced o.bindings
        else if existing.endpoints.any fun bound =>
            decide (bound.headSeq = recorded) && decide (bound.headEvent ≠ o.headEvent) then
          .cleared
        else if o.vouched = [] then .nothing
        else .refreshed { existing with endpoints := mergeEntries o existing.endpoints }

/-- The files under `bindings/`. -/
abbrev BindingsDir (C : Crypto) := SortedMap IdentityId (Bindings C)

namespace BindingsDir

/-- Record one observation: write, keep or delete the identity's file. -/
def record (dir : BindingsDir C) (o : Observation C) : Recorded C × BindingsDir C :=
  let outcome := applyObservation (dir.get? o.identity) o
  match outcome with
  | .replaced bindings => (outcome, dir.insert bindings.identity bindings)
  | .refreshed bindings => (outcome, dir.insert bindings.identity bindings)
  | .cleared => (outcome, dir.remove o.identity)
  | .ignored => (outcome, dir)
  | .nothing => (outcome, dir)

/-- Record one observation after another. -/
def recordAll (dir : BindingsDir C) (observations : List (Observation C)) : BindingsDir C :=
  observations.foldl (fun dir o => (dir.record o).2) dir

/-- What the node says of an endpoint: hinted where there is no file. -/
def binding (dir : BindingsDir C) (identity : IdentityId) (endpoint : EndpointId C) : Binding :=
  (dir.get? identity).elim .hinted fun bindings => bindings.binding endpoint

end BindingsDir

/-! ## Entries -/

/-- A list of entries names an endpoint. -/
def Names (entries : List (BoundEndpoint C)) (endpoint : EndpointId C) : Prop :=
  ∃ bound ∈ entries, bound.endpoint = endpoint

/-- An entry after a merge is the merged one or an earlier one. -/
theorem mem_mergeEntry {bound other : BoundEndpoint C} {entries : List (BoundEndpoint C)}
    (h : other ∈ mergeEntry bound entries) : other = bound ∨ other ∈ entries := by
  induction entries with
  | nil => exact .inl (List.mem_singleton.mp h)
  | cons first rest ih =>
    rw [mergeEntry] at h
    split_ifs at h
    · rcases List.mem_cons.mp h with h | h
      · exact .inl h
      · exact .inr (List.mem_cons_of_mem _ h)
    · rcases List.mem_cons.mp h with rfl | h
      · exact .inr List.mem_cons_self
      · exact (ih h).imp_right (List.mem_cons_of_mem _)

/-- The endpoints named after a merge. -/
theorem names_mergeEntry {bound : BoundEndpoint C} {entries : List (BoundEndpoint C)}
    {endpoint : EndpointId C} :
    Names (mergeEntry bound entries) endpoint ↔ bound.endpoint = endpoint ∨ Names entries endpoint := by
  unfold Names
  induction entries with
  | nil => simp [mergeEntry]
  | cons first rest ih =>
    rw [mergeEntry]
    split_ifs with hsame
    · simp [hsame]
    · simp only [List.mem_cons, exists_eq_or_imp, ih]
      exact or_left_comm

/-- An entry after the merges is the observation's or an earlier one. -/
theorem mem_mergeEntries {o : Observation C} {other : BoundEndpoint C}
    {entries : List (BoundEndpoint C)} (h : other ∈ mergeEntries o entries) :
    (∃ endpoint, other = o.entry endpoint) ∨ other ∈ entries := by
  unfold mergeEntries at h
  generalize o.vouched = vouched at h
  induction vouched generalizing entries with
  | nil => exact .inr h
  | cons endpoint vouched ih =>
    rcases ih h with h | h
    · exact .inl h
    · exact (mem_mergeEntry h).imp_left fun heq => ⟨endpoint, heq⟩

/-- The endpoints named after the merges. -/
theorem names_mergeEntries {o : Observation C} {entries : List (BoundEndpoint C)}
    {endpoint : EndpointId C} :
    Names (mergeEntries o entries) endpoint ↔ endpoint ∈ o.vouched ∨ Names entries endpoint := by
  unfold mergeEntries
  generalize o.vouched = vouched
  induction vouched generalizing entries with
  | nil => simp
  | cons first vouched ih =>
    rw [List.foldl_cons, ih, names_mergeEntry, List.mem_cons]
    change _ ∨ first = endpoint ∨ _ ↔ _
    rw [eq_comm (a := first)]
    exact or_left_comm.trans or_assoc.symm

theorem mem_vouched {o : Observation C} (hbind : o.mayBind = true) {endpoint : EndpointId C} :
    endpoint ∈ o.vouched ↔ endpoint ∈ o.endpoints ∧ o.source ≠ endpoint := by
  rw [Observation.vouched, if_neg (by simp [hbind]), List.mem_filter, decide_eq_true_iff, ne_comm]

theorem names_bindings {o : Observation C} {endpoint : EndpointId C} :
    Names o.bindings.endpoints endpoint ↔ endpoint ∈ o.vouched := by
  simp [Names, Observation.bindings, Observation.entry]

/-- An endpoint is verified when the identity's record names it. -/
theorem binding_eq_verified {dir : BindingsDir C} {identity : IdentityId}
    {endpoint : EndpointId C} : dir.binding identity endpoint = .verified ↔
      ∃ bindings, dir.get? identity = some bindings ∧ Names bindings.endpoints endpoint := by
  unfold BindingsDir.binding
  cases dir.get? identity with
  | none => simp
  | some bindings => simp [Bindings.binding, Names]

/-! ## What the record of one chain's prefixes says -/

/-- The record of an identity holds no entry. -/
def Blank (dir : BindingsDir C) (identity : IdentityId) : Prop :=
  ∀ bindings, dir.get? identity = some bindings → bindings.endpoints = []

/-- The record of an identity derives from the chain that ends at a position, and names some
endpoints. -/
structure Derives (dir : BindingsDir C) (identity : IdentityId) (headEvent : Nat → EventId)
    (seq : Nat) (named : EndpointId C → Prop) : Prop where
  nonempty : ∃ endpoint, named endpoint
  file : ∃ bindings, dir.get? identity = some bindings ∧ bindings.identity = identity ∧
    (∀ bound ∈ bindings.endpoints, bound.headSeq = seq ∧ bound.headEvent = headEvent seq) ∧
    ∀ endpoint, Names bindings.endpoints endpoint ↔ named endpoint

/-- A chain that was observed: the identity's own, able to bind, with the head event of its
position. -/
structure Observation.Of (o : Observation C) (identity : IdentityId) (headEvent : Nat → EventId) :
    Prop where
  identity_eq : o.identity = identity
  binds : o.mayBind = true
  event_eq : o.headEvent = headEvent o.headSeq

section Steps

variable {dir : BindingsDir C} {identity : IdentityId} {headEvent : Nat → EventId}
  {o : Observation C} {seq : Nat} {named : EndpointId C → Prop}

/-- A list the observation makes on its own is written whole. -/
theorem derives_replaced (ho : o.Of identity headEvent) (hvouched : o.vouched ≠ []) :
    Derives (dir.insert o.bindings.identity o.bindings) identity headEvent o.headSeq
      (· ∈ o.vouched) := by
  refine ⟨List.exists_mem_of_ne_nil _ hvouched, o.bindings, ?_, ho.identity_eq, ?_,
    fun endpoint => names_bindings⟩
  · rw [SortedMap.get?_insert, if_pos]
    exact ho.identity_eq.symm
  · intro bound hbound
    obtain ⟨endpoint, -, rfl⟩ := List.mem_map.mp hbound
    exact ⟨rfl, ho.event_eq⟩

/-- A record that names nothing is blank. -/
theorem blank_replaced (ho : o.Of identity headEvent) (hvouched : o.vouched = []) :
    Blank (dir.insert o.bindings.identity o.bindings) identity := by
  intro bindings hget
  have hidentity : identity = o.bindings.identity := ho.identity_eq.symm
  rw [SortedMap.get?_insert, if_pos hidentity] at hget
  obtain rfl := Option.some.inj hget
  simp [Observation.bindings, hvouched]

/-- An observation of a blank identity replaces its record where it vouches. -/
theorem applyObservation_blank (h : Blank dir identity) (ho : o.Of identity headEvent) :
    applyObservation (dir.get? o.identity) o =
      if o.vouched = [] then .nothing else .replaced o.bindings := by
  unfold applyObservation
  rw [if_neg (by simp [ho.binds]), ho.identity_eq]
  cases hget : dir.get? identity with
  | none => rfl
  | some bindings => simp [Bindings.headSeq, h bindings hget]

/-- A blank record takes the first observation that vouches for something. -/
theorem Blank.record (h : Blank dir identity) (ho : o.Of identity headEvent) :
    (o.vouched = [] → Blank (dir.record o).2 identity) ∧
    (o.vouched ≠ [] →
      Derives (dir.record o).2 identity headEvent o.headSeq (· ∈ o.vouched)) := by
  have happly := applyObservation_blank h ho
  constructor
  · intro hvouched
    rw [if_pos hvouched] at happly
    rw [BindingsDir.record, happly]
    exact h
  · intro hvouched
    rw [if_neg hvouched] at happly
    rw [BindingsDir.record, happly]
    exact derives_replaced ho hvouched

/-- A derived record has the head it was derived from. -/
theorem Derives.headSeq (h : Derives dir identity headEvent seq named) {bindings : Bindings C}
    (hget : dir.get? identity = some bindings) : bindings.headSeq = some seq := by
  obtain ⟨⟨endpoint, hendpoint⟩, stored, hstored, -, hall, hnames⟩ := h
  obtain rfl := Option.some.inj (hstored.symm.trans hget)
  obtain ⟨bound, hbound, -⟩ := (hnames endpoint).mpr hendpoint
  rw [Bindings.headSeq, List.max?_eq_some_iff]
  constructor
  · exact List.mem_map.mpr ⟨bound, hbound, (hall bound hbound).1⟩
  · intro other hother
    obtain ⟨bound, hbound, rfl⟩ := List.mem_map.mp hother
    exact (hall bound hbound).1.le

/-- A shorter chain is ignored. -/
theorem Derives.record_shorter (h : Derives dir identity headEvent seq named)
    (ho : o.Of identity headEvent) (hseq : o.headSeq < seq) : (dir.record o).2 = dir := by
  obtain ⟨bindings, hget, -⟩ := h.file
  have happly : applyObservation (dir.get? o.identity) o = .ignored := by
    unfold applyObservation
    rw [if_neg (by simp [ho.binds]), ho.identity_eq, hget]
    simp [h.headSeq hget, hseq]
  rw [BindingsDir.record, happly]

/-- A longer chain replaces the list, by a blank one when it vouches for nothing. -/
theorem Derives.record_longer (h : Derives dir identity headEvent seq named)
    (ho : o.Of identity headEvent) (hseq : seq < o.headSeq) :
    (o.vouched = [] → Blank (dir.record o).2 identity) ∧
    (o.vouched ≠ [] →
      Derives (dir.record o).2 identity headEvent o.headSeq (· ∈ o.vouched)) := by
  obtain ⟨bindings, hget, -⟩ := h.file
  have happly : applyObservation (dir.get? o.identity) o = .replaced o.bindings := by
    unfold applyObservation
    rw [if_neg (by simp [ho.binds]), ho.identity_eq, hget]
    simp [h.headSeq hget, hseq, hseq.le]
  rw [BindingsDir.record, happly]
  exact ⟨blank_replaced ho, derives_replaced ho⟩

/-- The same chain adds what it vouches for. -/
theorem Derives.record_same (h : Derives dir identity headEvent o.headSeq named)
    (ho : o.Of identity headEvent) :
    Derives (dir.record o).2 identity headEvent o.headSeq
      fun endpoint => endpoint ∈ o.vouched ∨ named endpoint := by
  obtain ⟨⟨first, hfirst⟩, bindings, hget, hidentity, hall, hnames⟩ := h
  have hseq : bindings.headSeq = some o.headSeq :=
    Derives.headSeq ⟨⟨first, hfirst⟩, bindings, hget, hidentity, hall, hnames⟩ hget
  have hsame : (bindings.endpoints.any fun bound => decide (bound.headSeq = o.headSeq) &&
      decide (bound.headEvent ≠ o.headEvent)) = false := by
    rw [List.any_eq_false]
    intro bound hbound
    simp [(hall bound hbound).2, ho.event_eq]
  have happly : applyObservation (dir.get? o.identity) o =
      if o.vouched = [] then .nothing
      else .refreshed { bindings with endpoints := mergeEntries o bindings.endpoints } := by
    unfold applyObservation
    rw [if_neg (by simp [ho.binds]), ho.identity_eq, hget]
    simp only [hseq, lt_irrefl, if_false, hsame, Bool.false_eq_true]
  refine ⟨⟨first, .inr hfirst⟩, ?_⟩
  by_cases hvouched : o.vouched = []
  · rw [if_pos hvouched] at happly
    rw [BindingsDir.record, happly]
    exact ⟨bindings, hget, hidentity, hall, fun endpoint => by simp [hnames, hvouched]⟩
  · rw [if_neg hvouched] at happly
    rw [BindingsDir.record, happly]
    refine ⟨{ bindings with endpoints := mergeEntries o bindings.endpoints }, ?_, hidentity, ?_, ?_⟩
    · rw [SortedMap.get?_insert, if_pos hidentity.symm]
    · intro bound hbound
      rcases mem_mergeEntries hbound with ⟨endpoint, rfl⟩ | hbound
      · exact ⟨rfl, ho.event_eq⟩
      · exact hall bound hbound
    · intro endpoint
      rw [names_mergeEntries, hnames]

end Steps

end Mabel.Node
