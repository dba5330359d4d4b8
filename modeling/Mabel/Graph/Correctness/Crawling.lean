import Mabel.Graph.Crawl
import Mabel.Ledger.Correctness.Links

/-!
# What a crawl sees

Each level labels ledgers nobody read before with the number of the level, in whatever order and
up to wherever a cap or the clock stops it, and the next level begins only when nothing of this
one is left. So the depths are the distances over the edges that were stored, and a walk that
was not cut is a walk that left nothing out.
-/

namespace Mabel.Crawl

open Node Wire Search

variable {C : Crypto}

/-! ## What was read -/

/-- What came of ledgers, with the level each was read in. -/
abbrev Outcomes (C : Crypto) := SortedMap LedgerId (Nat × FetchOutcome C)

/-- The level a ledger was read in. -/
def label (outcomes : Outcomes C) (ledger : LedgerId) : Option Nat :=
  (outcomes.get? ledger).map Prod.fst

/-- The attestations an outcome carries. -/
def trustOf (outcome : FetchOutcome C) : List TrustEdge :=
  outcome.summary.elim [] LedgerSummary.trust

/-- A ledger that was read attests to another. -/
def Names (outcomes : Outcomes C) (ledger subject : LedgerId) : Prop :=
  ∃ depth outcome, outcomes.get? ledger = some (depth, outcome) ∧
    ∃ edge ∈ trustOf outcome, edge.subject = subject

/-- What is known when a level is being read. -/
abbrev Read (roots : List LedgerId) (depth : Nat) (outcomes : Outcomes C) : Prop :=
  Explored (Names outcomes) {ledger | ledger ∈ roots} depth (label outcomes)

/-- What belongs to a level and was not read. -/
abbrev Left (roots : List LedgerId) (depth : Nat) (outcomes : Outcomes C) (ledger : LedgerId) :
    Prop :=
  Pending (Names outcomes) {ledger | ledger ∈ roots} depth (label outcomes) ledger

/-- Everything that could be read was. -/
abbrev Complete (roots : List LedgerId) (outcomes : Outcomes C) : Prop :=
  Closed (Names outcomes) {ledger | ledger ∈ roots} (label outcomes)

theorem label_eq_none {outcomes : Outcomes C} {ledger : LedgerId} :
    label outcomes ledger = none ↔ outcomes.get? ledger = none := by
  rw [label, Option.map_eq_none_iff]

theorem isSome_label {outcomes : Outcomes C} {ledger : LedgerId} :
    (label outcomes ledger).isSome ↔ (outcomes.get? ledger).isSome := by
  rw [label, Option.isSome_map]

/-- An inserted outcome labels its own ledger. -/
theorem label_insert (outcomes : Outcomes C) (ledger : LedgerId) (depth : Nat)
    (outcome : FetchOutcome C) (a : LedgerId) :
    label (outcomes.insert ledger (depth, outcome)) a =
      if a = ledger then some depth else label outcomes a := by
  unfold label
  rw [SortedMap.get?_insert]
  split_ifs
  · rfl
  · rfl

/-- An inserted outcome changes what its own ledger names. -/
theorem names_insert {outcomes : Outcomes C} {ledger : LedgerId} {read : Nat × FetchOutcome C}
    {a : LedgerId} (ha : a ≠ ledger) (b : LedgerId) :
    Names (outcomes.insert ledger read) a b ↔ Names outcomes a b := by
  unfold Names
  rw [SortedMap.get?_insert, if_neg ha]

variable {roots : List LedgerId} {depth : Nat}

/-- Before the first read nothing is read. -/
theorem read_start : Read roots 0 (SortedMap.empty : Outcomes C) := by
  have hnames : Names (SortedMap.empty : Outcomes C) = fun _ _ => False := by
    funext a b
    simp [Names]
  have hlabel : label (SortedMap.empty : Outcomes C) = fun _ => none := rfl
  rw [Read, hnames, hlabel]
  exact explored_start

/-! ## Reading a batch -/

/-- The outcomes of a batch, put with the others. -/
def insertAll (depth : Nat) (found : Outcomes C) (outcomes : List (FetchOutcome C)) : Outcomes C :=
  outcomes.foldl (fun found outcome => found.insert outcome.ledger (depth, outcome)) found

/-- Reading what is left of a level keeps what is known, and leaves the rest of it. -/
theorem insertAll_spec {fetch : LedgerId → FetchOutcome C} (hown : ∀ l, (fetch l).ledger = l)
    (batch : List LedgerId) : ∀ {outcomes : Outcomes C}, Read roots depth outcomes →
      batch.Nodup → (∀ ledger ∈ batch, Left roots depth outcomes ledger) →
      Read roots depth (insertAll depth outcomes (batch.map fetch)) ∧
      (∀ a, Left roots depth (insertAll depth outcomes (batch.map fetch)) a ↔
        Left roots depth outcomes a ∧ a ∉ batch) ∧
      (insertAll depth outcomes (batch.map fetch)).entries.length =
        outcomes.entries.length + batch.length ∧
      ∀ a, label (insertAll depth outcomes (batch.map fetch)) a =
        if a ∈ batch then some depth else label outcomes a := by
  induction batch with
  | nil =>
    intro outcomes hread _ _
    simp [insertAll, hread]
  | cons ledger batch ih =>
    intro outcomes hread hnodup hleft
    obtain ⟨hnot, hnodup⟩ := List.nodup_cons.mp hnodup
    have hfirst := hleft ledger List.mem_cons_self
    have hinsert := label_insert outcomes ledger depth (fetch ledger)
    have hnames : ∀ a b, a ≠ ledger →
        (Names (outcomes.insert ledger (depth, fetch ledger)) a b ↔ Names outcomes a b) :=
      fun a b ha => names_insert ha b
    have hpending : ∀ a, Left roots depth (outcomes.insert ledger (depth, fetch ledger)) a ↔
        Left roots depth outcomes a ∧ a ≠ ledger := pending_insert hfirst hinsert hnames
    obtain ⟨hread', hleft', hlength, hlabel⟩ := ih (hread.insert hfirst hinsert hnames) hnodup
      fun a ha => (hpending a).mpr
        ⟨hleft a (List.mem_cons_of_mem _ ha), fun heq => hnot (heq ▸ ha)⟩
    have hcons : insertAll depth outcomes ((ledger :: batch).map fetch) =
        insertAll depth (outcomes.insert ledger (depth, fetch ledger)) (batch.map fetch) := by
      rw [insertAll, List.map_cons, List.foldl_cons, hown]
      rfl
    rw [hcons]
    refine ⟨hread', fun a => ?_, ?_, fun a => ?_⟩
    · rw [hleft', hpending, List.mem_cons, not_or, and_assoc]
    · rw [hlength, SortedMap.length_insert_of_none _ (label_eq_none.mp hfirst.none),
        List.length_cons]
      omega
    · rw [hlabel, hinsert]
      by_cases ha : a = ledger
      · simp [ha]
      · simp [ha]

/-! ## Reading a level -/

/-- The chunks of a list are the list. -/
theorem flatten_chunksFrom {α : Type} {width : Nat} (hwidth : 0 < width) (rounds : Nat) :
    ∀ l : List α, l.length ≤ rounds → (chunksFrom width rounds l).flatten = l := by
  induction rounds with
  | zero =>
    intro l hl
    rw [List.length_eq_zero_iff.mp (Nat.le_zero.mp hl)]
    rfl
  | succ rounds ih =>
    intro l hl
    unfold chunksFrom
    split_ifs with hnil
    · rw [hnil, List.flatten_nil]
    · have hpos := List.length_pos_iff.mpr hnil
      rw [List.flatten_cons, ih _ (by rw [List.length_drop]; omega), List.take_append_drop]

@[simp] theorem flatten_chunks {α : Type} {width : Nat} (hwidth : 0 < width) (l : List α) :
    (chunks width l).flatten = l := flatten_chunksFrom hwidth _ l le_rfl

/-- No chunk is empty. -/
theorem ne_nil_of_mem_chunksFrom {α : Type} {width : Nat} (hwidth : 0 < width) (rounds : Nat) :
    ∀ l : List α, ∀ chunk ∈ chunksFrom width rounds l, chunk ≠ [] := by
  induction rounds with
  | zero => exact fun _ _ h => absurd h List.not_mem_nil
  | succ rounds ih =>
    intro l chunk hchunk
    unfold chunksFrom at hchunk
    split_ifs at hchunk with hnil
    · exact absurd hchunk List.not_mem_nil
    · rcases List.mem_cons.mp hchunk with rfl | hchunk
      · simp [hnil, hwidth.ne']
      · exact ih _ chunk hchunk

/-- What holds of a walk at any time. -/
structure Counted (walk : Walk C) : Prop where
  count : walk.fetchCount = walk.outcomes.entries.length
  length : walk.fetched.length = walk.outcomes.entries.length
  mem : ∀ ledger, ledger ∈ walk.fetched ↔ (walk.outcomes.get? ledger).isSome
  nodup : walk.fetched.Nodup

/-- A walk goes on with other notes about the next level, and the same ledgers read. -/
structure SameReads (walk walk' : Walk C) : Prop where
  outcomes : walk'.outcomes = walk.outcomes
  fetchCount : walk'.fetchCount = walk.fetchCount
  fetched : walk'.fetched = walk.fetched

/-- A walk with the same reads is counted alike. -/
theorem SameReads.counted {walk walk' : Walk C} (h : SameReads walk walk') (hc : Counted walk) :
    Counted walk' := by
  obtain ⟨houtcomes, hcount, hfetched⟩ := h
  exact ⟨by rw [hcount, houtcomes, hc.count], by rw [hfetched, houtcomes, hc.length],
    fun ledger => by rw [hfetched, houtcomes, hc.mem], hfetched ▸ hc.nodup⟩

variable {fetcher : Fetcher C}

/-- One batch of what is left of a level. -/
theorem fetchBatch_spec {walk : Walk C} {batch : List LedgerId} (hc : Counted walk)
    (hread : Read roots depth walk.outcomes) (hnodup : batch.Nodup)
    (hleft : ∀ ledger ∈ batch, Left roots depth walk.outcomes ledger) :
    Counted (fetchBatch fetcher depth walk batch) ∧
    Read roots depth (fetchBatch fetcher depth walk batch).outcomes ∧
    (∀ a, Left roots depth (fetchBatch fetcher depth walk batch).outcomes a ↔
      Left roots depth walk.outcomes a ∧ a ∉ batch) ∧
    (fetchBatch fetcher depth walk batch).outcomes.entries.length =
      walk.outcomes.entries.length + batch.length ∧
    ∀ a, label (fetchBatch fetcher depth walk batch).outcomes a =
      if a ∈ batch then some depth else label walk.outcomes a := by
  obtain ⟨hread', hleft', hlength, hlabel⟩ := insertAll_spec
    (fun ledger => fetcher.own ledger ((walk.hints.get? ledger).getD [])) batch hread hnodup hleft
  refine ⟨⟨?_, ?_, fun ledger => ?_, ?_⟩, hread', hleft', hlength, hlabel⟩
  · exact (congrArg (· + batch.length) hc.count).trans hlength.symm
  · refine (List.length_append).trans ?_
    exact (congrArg (· + batch.length) hc.length).trans hlength.symm
  · refine (List.mem_append).trans (Iff.trans ?_ isSome_label)
    refine Iff.trans ?_ (congrArg (fun l : Option Nat => l.isSome = true) (hlabel ledger)).symm.to_iff
    rw [hc.mem, ← isSome_label]
    split_ifs with hmem
    · simp [hmem]
    · simp [hmem]
  · refine List.nodup_append.mpr ⟨hc.nodup, hnodup, ?_⟩
    rintro a ha b hb rfl
    have hread := (hc.mem a).mp ha
    rw [label_eq_none.mp (hleft a hb).none] at hread
    exact absurd hread (by simp)

/-- Reading a level batch by batch either reads all of it, or the clock runs out with some of it
left. -/
theorem fetchBatches_spec {expired : Nat → Bool} (batches : List (List LedgerId))
    (hne : ∀ batch ∈ batches, batch ≠ []) : ∀ {walk : Walk C}, Counted walk →
      Read roots depth walk.outcomes → batches.flatten.Nodup →
      (∀ ledger ∈ batches.flatten, Left roots depth walk.outcomes ledger) →
      let done := fetchBatches fetcher expired depth batches walk
      Counted done.2 ∧ Read roots depth done.2.outcomes ∧ done.2.depthCut = walk.depthCut ∧
      done.2.outcomes.entries.length ≤ walk.outcomes.entries.length + batches.flatten.length ∧
      (done.1 = true → done.2.hardStop.isSome ∧ ∃ a, Left roots depth done.2.outcomes a) ∧
      (done.1 = false → done.2.hardStop = walk.hardStop ∧
        (∀ a, Left roots depth done.2.outcomes a ↔
          Left roots depth walk.outcomes a ∧ a ∉ batches.flatten) ∧
        ∀ a, label done.2.outcomes a =
          if a ∈ batches.flatten then some depth else label walk.outcomes a) := by
  induction batches with
  | nil =>
    intro walk hc hread _ _
    simp [fetchBatches, hc, hread]
  | cons batch batches ih =>
    intro walk hc hread hnodup hleft
    unfold fetchBatches
    have hsame : Counted { walk with checks := walk.checks + 1 } :=
      ⟨hc.count, hc.length, hc.mem, hc.nodup⟩
    split_ifs with hexpired
    · obtain ⟨ledger, hledger⟩ :=
        List.exists_mem_of_ne_nil _ (hne batch List.mem_cons_self)
      refine ⟨⟨hc.count, hc.length, hc.mem, hc.nodup⟩, hread, rfl, Nat.le_add_right _ _,
        fun _ => ⟨rfl, ledger, hleft ledger ?_⟩, fun h => absurd h (by simp)⟩
      exact List.mem_flatten.mpr ⟨batch, List.mem_cons_self, hledger⟩
    · rw [List.flatten_cons] at hnodup hleft
      obtain ⟨hbatch, hrest, hdisjoint⟩ := List.nodup_append.mp hnodup
      obtain ⟨hc', hread', hleft', hlength, hlabel⟩ := @fetchBatch_spec _ _ _ fetcher _ _ hsame hread hbatch
        fun ledger h => hleft ledger (List.mem_append_left _ h)
      obtain ⟨hc'', hread'', hcut, hlength', htrue, hfalse⟩ :=
        ih (fun b hb => hne b (List.mem_cons_of_mem _ hb)) hc' hread' hrest fun ledger h =>
          (hleft' ledger).mpr ⟨hleft ledger (List.mem_append_right _ h),
            fun hmem => hdisjoint ledger hmem ledger h rfl⟩
      refine ⟨hc'', hread'', hcut, hlength'.trans ?_, htrue, fun h => ?_⟩
      · rw [hlength, List.flatten_cons, List.length_append]
        exact (Nat.add_assoc _ _ _).le
      · obtain ⟨hstop, hiff, hlabel'⟩ := hfalse h
        refine ⟨hstop, fun a => ?_, fun a => ?_⟩
        · rw [hiff, hleft', List.flatten_cons, List.mem_append, not_or, and_assoc]
        · rw [hlabel', hlabel, List.flatten_cons]
          by_cases ha : a ∈ batches.flatten
          · simp [ha]
          · simp [ha]

/-! ## Looking for the next level -/

/-- The next level holds the unread subjects noted so far, or the depth cut them off. -/
structure Expanded (depth depthCap : Nat) (walk : Walk C) (named : LedgerId → Prop)
    (found : Walk C × LedgerSet) : Prop where
  same : SameReads walk found.1
  hardStop : found.1.hardStop = walk.hardStop
  next : ∀ b, (found.2.get? b).isSome ↔
    depth < depthCap ∧ walk.outcomes.get? b = none ∧ named b
  cut : found.1.depthCut = true ↔ walk.depthCut = true ∨
    (depthCap ≤ depth ∧ ∃ b, walk.outcomes.get? b = none ∧ named b)

variable {depthCap : Nat} {walk : Walk C} {found : Walk C × LedgerSet}
  {named : LedgerId → Prop}

theorem expanded_start : Expanded depth depthCap walk (fun _ => False) (walk, SortedMap.empty) :=
  ⟨⟨rfl, rfl, rfl⟩, rfl, by simp, by simp⟩

/-- Only what is named matters for the expansion. -/
theorem Expanded.congr {named' : LedgerId → Prop} (h : Expanded depth depthCap walk named found)
    (hnamed : ∀ b, named b ↔ named' b) : Expanded depth depthCap walk named' found := by
  have heq : named = named' := funext fun b => propext (hnamed b)
  exact heq ▸ h

/-- Following one edge names its subject. -/
theorem Expanded.edge (h : Expanded depth depthCap walk named found) (ledger : LedgerId)
    (source : Option (EndpointId C)) (edge : TrustEdge) :
    Expanded depth depthCap walk (fun b => named b ∨ edge.subject = b)
      (expandEdge depth depthCap ledger source found edge) := by
  obtain ⟨walk', next⟩ := found
  have hsame := h.same
  unfold expandEdge
  simp only
  by_cases hread : (walk'.outcomes.get? edge.subject).isSome
  -- A subject that was read adds nothing.
  · rw [if_pos hread]
    have hnot : ∀ b, walk.outcomes.get? b = none → edge.subject ≠ b := by
      rintro b hb rfl
      rw [hsame.outcomes, hb] at hread
      simp at hread
    have hnamed : ∀ b, walk.outcomes.get? b = none →
        (named b ↔ named b ∨ edge.subject = b) :=
      fun b hb => ⟨.inl, fun hor => hor.resolve_right (hnot b hb)⟩
    refine ⟨hsame, h.hardStop, fun b => (h.next b).trans ?_, h.cut.trans ?_⟩
    · exact and_congr_right fun _ => and_congr_right (hnamed b)
    · exact or_congr_right (and_congr_right fun _ => exists_congr fun b =>
        and_congr_right (hnamed b))
  · rw [if_neg hread]
    have hunread : walk.outcomes.get? edge.subject = none := by
      rw [← hsame.outcomes]
      simpa using hread
    by_cases hdepth : depth ≥ depthCap
    · rw [if_pos hdepth]
      have hlt : ¬ depth < depthCap := Nat.not_lt.mpr hdepth
      refine ⟨⟨hsame.outcomes, hsame.fetchCount, hsame.fetched⟩, h.hardStop,
        fun b => (h.next b).trans (by simp [hlt]), ?_⟩
      simp only [true_iff]
      exact .inr ⟨hdepth, edge.subject, hunread, .inr rfl⟩
    · rw [if_neg hdepth]
      have hlt : depth < depthCap := Nat.not_le.mp hdepth
      refine ⟨⟨hsame.outcomes, hsame.fetchCount, hsame.fetched⟩, h.hardStop, fun b => ?_,
        h.cut.trans (by simp [hdepth])⟩
      rw [SortedMap.get?_insert]
      split_ifs with hb
      · simp [hb, hlt, hunread]
      · rw [h.next b]
        simp [Ne.symm hb]

/-- All the attestations of one ledger. -/
theorem Expanded.edges (ledger : LedgerId) (source : Option (EndpointId C))
    (edges : List TrustEdge) : ∀ {named : LedgerId → Prop} {found : Walk C × LedgerSet},
      Expanded depth depthCap walk named found →
      Expanded depth depthCap walk (fun b => named b ∨ ∃ edge ∈ edges, edge.subject = b)
        (edges.foldl (expandEdge depth depthCap ledger source) found) := by
  induction edges with
  | nil => exact fun h => h.congr (by simp)
  | cons edge edges ih =>
    intro named found h
    refine (ih (h.edge ledger source edge)).congr fun b => ?_
    simp only [or_assoc, List.mem_cons, exists_eq_or_imp]

/-- Expanding a ledger names what its edges do. -/
theorem Expanded.ledger (h : Expanded depth depthCap walk named found) (ledger : LedgerId) :
    Expanded depth depthCap walk (fun b => named b ∨ Names walk.outcomes ledger b)
      (expandLedger depth depthCap found ledger) := by
  unfold expandLedger
  rw [h.same.outcomes]
  cases hread : walk.outcomes.get? ledger with
  | none => exact h.congr (by simp [Names, hread])
  | some read =>
    obtain ⟨level, outcome⟩ := read
    have hnames : ∀ b, Names walk.outcomes ledger b ↔
        ∃ edge ∈ trustOf outcome, edge.subject = b := by
      intro b
      simp [Names, hread]
    simp only
    cases hsummary : outcome.summary with
    | none => exact h.congr fun b => by simp [hnames, trustOf, hsummary]
    | some summary =>
      refine (Expanded.edges ledger _ summary.trust h).congr fun b => ?_
      simp [hnames, trustOf, hsummary]

/-- All the ledgers of a level. -/
theorem Expanded.ledgers (level : List LedgerId) : ∀ {named : LedgerId → Prop}
    {found : Walk C × LedgerSet}, Expanded depth depthCap walk named found →
      Expanded depth depthCap walk
        (fun b => named b ∨ ∃ ledger ∈ level, Names walk.outcomes ledger b)
        (level.foldl (expandLedger depth depthCap) found) := by
  induction level with
  | nil => exact fun h => h.congr (by simp)
  | cons ledger level ih =>
    intro named found h
    refine (ih (h.ledger ledger)).congr fun b => ?_
    simp only [or_assoc, List.mem_cons, exists_eq_or_imp]

/-! ## Cutting a level -/

/-- A level that was cut leaves something out, and one that was not is the whole frontier. -/
theorem cutLevel_spec {options : CrawlOptions} {frontier : List LedgerId}
    (hnodup : frontier.Nodup) (hrunning : walk.hardStop = none)
    (hnodes : walk.outcomes.entries.length ≤ options.maxNodes)
    (hfetches : walk.fetchCount ≤ options.maxFetches) :
    let cut := cutLevel options walk frontier
    SameReads walk cut.1 ∧ cut.1.depthCut = walk.depthCut ∧ cut.2.Nodup ∧
    (∀ a ∈ cut.2, a ∈ frontier) ∧
    walk.outcomes.entries.length + cut.2.length ≤ options.maxNodes ∧
    walk.fetchCount + cut.2.length ≤ options.maxFetches ∧
    ((cut.1.hardStop = none ∧ cut.2 = frontier) ∨
      (cut.1.hardStop.isSome ∧ ∃ a ∈ frontier, a ∉ cut.2)) := by
  have hshort : ∀ level : List LedgerId, level.length < frontier.length →
      ∃ a ∈ frontier, a ∉ level := by
    intro level hlt
    by_contra hall
    push Not at hall
    exact absurd (hnodup.subperm hall).length_le (Nat.not_le.mpr hlt)
  unfold cutLevel Walk.stop
  by_cases hcapped : walk.outcomes.entries.length + frontier.length > options.maxNodes
  · rw [if_pos hcapped]
    dsimp only
    split_ifs with hmore
    · have hlevel : ∀ a ∈ (frontier.take (options.maxNodes - walk.outcomes.entries.length)).take
          (options.maxFetches - walk.fetchCount), a ∈ frontier :=
        fun a ha => List.mem_of_mem_take (List.mem_of_mem_take ha)
      refine ⟨⟨rfl, rfl, rfl⟩, rfl, (hnodup.take).take, hlevel, ?_, ?_, .inr ⟨rfl, hshort _ ?_⟩⟩
      all_goals
        simp only [List.length_take]
        omega
    · dsimp only at hmore ⊢
      rw [List.length_take] at hmore
      refine ⟨⟨rfl, rfl, rfl⟩, rfl, hnodup.take, fun a ha => List.mem_of_mem_take ha, ?_, ?_,
        .inr ⟨rfl, hshort _ ?_⟩⟩
      all_goals
        rw [List.length_take]
        omega
  · rw [if_neg hcapped]
    dsimp only
    split_ifs with hmore
    · refine ⟨⟨rfl, rfl, rfl⟩, rfl, hnodup.take, fun a ha => List.mem_of_mem_take ha, ?_, ?_,
        .inr ⟨rfl, hshort _ ?_⟩⟩
      all_goals
        simp only [List.length_take]
        omega
    · dsimp only at hmore ⊢
      exact ⟨⟨rfl, rfl, rfl⟩, rfl, hnodup, fun a ha => ha, by omega, by omega,
        .inl ⟨hrunning, rfl⟩⟩

/-! ## The whole walk -/

/-- What holds at the start of a level. -/
structure AtLevel (options : CrawlOptions) (roots : List LedgerId) (depth : Nat)
    (frontier : List LedgerId) (walk : Walk C) : Prop where
  counted : Counted walk
  read : Read roots depth walk.outcomes
  lt : ∀ a n, label walk.outcomes a = some n → n < depth
  nodes : walk.outcomes.entries.length ≤ options.maxNodes
  fetches : walk.fetchCount ≤ options.maxFetches
  running : walk.hardStop = none
  nodup : frontier.Nodup
  frontier : depth ≤ options.boundedDepth → ∀ a, a ∈ frontier ↔ Left roots depth walk.outcomes a
  cut : walk.depthCut = true ↔
    options.boundedDepth < depth ∧ ∃ a, Left roots depth walk.outcomes a

/-- What holds at the end of a walk. -/
structure Finished (options : CrawlOptions) (roots : List LedgerId) (walk : Walk C) : Prop where
  counted : Counted walk
  read : ∃ depth, Read roots depth walk.outcomes
  le : ∀ a n, label walk.outcomes a = some n → n ≤ options.boundedDepth
  nodes : walk.outcomes.entries.length ≤ options.maxNodes
  fetches : walk.fetchCount ≤ options.maxFetches
  truncated : walk.truncatedBy = none ↔ Complete roots walk.outcomes

/-- A walk was not cut when it neither stopped nor left a level out. -/
theorem truncatedBy_eq_none : walk.truncatedBy = none ↔
    walk.hardStop = none ∧ walk.depthCut = false := by
  unfold Walk.truncatedBy
  cases walk.hardStop with
  | some reason => simp
  | none => cases walk.depthCut <;> simp

variable {options : CrawlOptions} {frontier : List LedgerId}

/-- A walk that runs out of levels or of ledgers to read is finished. -/
theorem AtLevel.finished (h : AtLevel options roots depth frontier walk)
    (hdepth : depth ≤ options.boundedDepth + 1)
    (hdone : depth ≤ options.boundedDepth → frontier = []) : Finished options roots walk := by
  refine ⟨h.counted, ⟨depth, h.read⟩, fun a n ha => ?_, h.nodes, h.fetches, ?_⟩
  · have := h.lt a n ha
    omega
  · have hclosed : Complete roots walk.outcomes ↔ ∀ a, ¬ Left roots depth walk.outcomes a :=
      h.read.closed_iff h.lt
    rw [truncatedBy_eq_none, and_iff_right h.running, hclosed, Bool.eq_false_iff, ne_eq, h.cut]
    constructor
    · intro hcut a ha
      rcases Nat.lt_or_ge options.boundedDepth depth with hlt | hle
      · exact hcut ⟨hlt, a, ha⟩
      · have hmem := (h.frontier hle a).mpr ha
        rw [hdone hle] at hmem
        exact absurd hmem List.not_mem_nil
    · rintro hnone ⟨-, a, ha⟩
      exact hnone a ha

/-- A walk that was stopped with something left is finished and truncated. -/
theorem finished_of_stopped (hc : Counted walk) (hread : Read roots depth walk.outcomes)
    (hdepth : depth ≤ options.boundedDepth)
    (hnodes : walk.outcomes.entries.length ≤ options.maxNodes)
    (hfetches : walk.fetchCount ≤ options.maxFetches) (hstop : walk.hardStop.isSome)
    (hleft : ∃ a, Left roots depth walk.outcomes a) : Finished options roots walk := by
  refine ⟨hc, ⟨depth, hread⟩, fun a n ha => (hread.le a n ha).trans hdepth, hnodes, hfetches, ?_⟩
  obtain ⟨a, ha⟩ := hleft
  rw [truncatedBy_eq_none]
  constructor
  · rintro ⟨hnone, -⟩
    simp [hnone] at hstop
  · exact fun hclosed => absurd ha (hclosed.not_pending depth a)

/-- What is left of the next level is what this one names and nobody read. -/
theorem left_succ {outcomes : Outcomes C} {level : List LedgerId}
    (hlevel : ∀ a, label outcomes a = some depth ↔ a ∈ level) (a : LedgerId) :
    Left roots (depth + 1) outcomes a ↔
      outcomes.get? a = none ∧ ∃ ledger ∈ level, Names outcomes ledger a := by
  constructor
  · rintro ⟨hnone, ⟨hzero, -⟩ | ⟨n, c, hn, hc, hca⟩⟩
    · exact absurd hzero (Nat.succ_ne_zero depth)
    · obtain rfl : depth = n := Nat.succ.inj hn
      exact ⟨label_eq_none.mp hnone, c, (hlevel c).mp hc, hca⟩
  · rintro ⟨hnone, c, hc, hca⟩
    exact ⟨label_eq_none.mpr hnone, .inr ⟨depth, c, rfl, (hlevel c).mpr hc, hca⟩⟩

/-- A frontier that was read whole leads to the start of the next level, whose frontier is what it
names and nobody read. -/
theorem AtLevel.next {read : Walk C} (h : AtLevel options roots depth frontier walk)
    (hle : depth ≤ options.boundedDepth) (hc : Counted read)
    (hread : Read roots depth read.outcomes)
    (hnodes : read.outcomes.entries.length ≤ options.maxNodes)
    (hfetches : read.fetchCount ≤ options.maxFetches) (hrunning : read.hardStop = none)
    (hcut : read.depthCut = walk.depthCut)
    (hleft : ∀ a, Left roots depth read.outcomes a ↔
      Left roots depth walk.outcomes a ∧ a ∉ frontier)
    (hlabel : ∀ a, label read.outcomes a =
      if a ∈ frontier then some depth else label walk.outcomes a)
    (hfound : Expanded depth options.boundedDepth read
      (fun b => ∃ ledger ∈ frontier, Names read.outcomes ledger b) found) :
    AtLevel options roots (depth + 1) found.2.keys found.1 := by
  have hnone : ∀ a, ¬ Left roots depth read.outcomes a := fun a ha =>
    ((hleft a).mp ha).2 ((h.frontier hle a).mpr ((hleft a).mp ha).1)
  have hlevel : ∀ a, label read.outcomes a = some depth ↔ a ∈ frontier := by
    intro a
    rw [hlabel]
    split_ifs with ha
    · simp [ha]
    · simp only [ha, iff_false]
      exact fun hlabel => absurd (h.lt a depth hlabel) (Nat.lt_irrefl depth)
  have hcutNo : ¬ read.depthCut = true := by
    rw [hcut, h.cut]
    exact fun hlt => absurd hlt.1 (Nat.not_lt.mpr hle)
  have houtcomes := hfound.same.outcomes
  refine ⟨hfound.same.counted hc, ?_, fun a n ha => ?_, ?_, ?_, hfound.hardStop.trans hrunning,
    SortedMap.nodup_keys _, fun hdeeper a => ?_, ?_⟩
  · rw [houtcomes]
    exact hread.next_depth hnone
  · rw [houtcomes] at ha
    exact Nat.lt_succ_of_le (hread.le a n ha)
  · rw [houtcomes]
    exact hnodes
  · rw [hfound.same.fetchCount]
    exact hfetches
  · rw [houtcomes, left_succ hlevel, SortedMap.mem_keys, ← Option.isSome_iff_exists,
      hfound.next, and_iff_right (Nat.lt_of_succ_le hdeeper)]
  · rw [hfound.cut, or_iff_right hcutNo, houtcomes]
    simp only [left_succ hlevel, Nat.lt_succ_iff]

/-- A level that was cut short ends the walk, with what it left out still to read. -/
theorem finished_of_cut {read : Walk C} {ledger : LedgerId} (hc : Counted read)
    (hread : Read roots depth read.outcomes) (hle : depth ≤ options.boundedDepth)
    (hnodes : read.outcomes.entries.length ≤ options.maxNodes)
    (hfetches : read.fetchCount ≤ options.maxFetches) (hstop : read.hardStop.isSome)
    (hleft : Left roots depth read.outcomes ledger)
    (hfound : Expanded depth options.boundedDepth read named found) :
    Finished options roots found.1 := by
  have houtcomes := hfound.same.outcomes
  refine finished_of_stopped (hfound.same.counted hc) (houtcomes ▸ hread) hle ?_ ?_ ?_ ⟨ledger, ?_⟩
  · rw [houtcomes]
    exact hnodes
  · rw [hfound.same.fetchCount]
    exact hfetches
  · rw [hfound.hardStop]
    exact hstop
  · rw [houtcomes]
    exact hleft

/-- A walk from any level ends finished; the induction is on the levels left. -/
theorem walkLevels_spec {expired : Nat → Bool} (remaining : Nat) : ∀ {depth : Nat}
    {frontier : List LedgerId} {walk : Walk C}, AtLevel options roots depth frontier walk →
      depth + remaining = options.boundedDepth + 1 →
      Finished options roots (walkLevels fetcher options expired remaining depth frontier walk) := by
  induction remaining with
  | zero => exact fun h hdepth => h.finished hdepth.le (by omega)
  | succ remaining ih =>
    intro depth frontier walk h hdepth
    have hle : depth ≤ options.boundedDepth := by omega
    unfold walkLevels
    split_ifs with hempty
    · exact h.finished (by omega) fun _ => hempty
    obtain ⟨hsame, hcut, hlevel, hsubset, hnodes, hfetches, hstop⟩ :=
      cutLevel_spec h.nodup h.running h.nodes h.fetches
    generalize cutLevel options walk frontier = cut at *
    obtain ⟨walk₁, level⟩ := cut
    simp only at *
    have hwidth : 0 < max options.inFlight 1 := by omega
    have hflat := flatten_chunks hwidth level
    have hread : Read roots depth walk₁.outcomes := hsame.outcomes ▸ h.read
    have hbatches := @fetchBatches_spec _ _ depth fetcher expired
      (chunks (max options.inFlight 1) level) (ne_nil_of_mem_chunksFrom hwidth _ level) walk₁
      (hsame.counted h.counted) hread (hflat.symm ▸ hlevel)
      (fun a ha => by
        rw [hflat] at ha
        rw [hsame.outcomes]
        exact (h.frontier hle a).mp (hsubset a ha))
    generalize fetchBatches fetcher expired depth (chunks (max options.inFlight 1) level) walk₁ =
      done at *
    obtain ⟨timedOut, walk₂⟩ := done
    obtain ⟨hc₂, hread₂, hcut₂, hlength₂, htrue, hfalse⟩ := hbatches
    simp only [hflat, hsame.outcomes] at hlength₂ hfalse
    have hnodes₂ : walk₂.outcomes.entries.length ≤ options.maxNodes := hlength₂.trans hnodes
    have hfetches₂ : walk₂.fetchCount ≤ options.maxFetches := by
      rw [hc₂.count]
      refine hlength₂.trans ?_
      rw [← h.counted.count]
      exact hfetches
    cases timedOut with
    | true => exact finished_of_stopped hc₂ hread₂ hle hnodes₂ hfetches₂ (htrue rfl).1 (htrue rfl).2
    | false =>
      obtain ⟨hstop₂, hleft₂, hlabel₂⟩ := hfalse rfl
      have hexp := (Expanded.ledgers level
        (expanded_start : Expanded depth options.boundedDepth walk₂ _ _)).congr
        fun b => iff_of_eq (false_or _)
      simp only
      rcases hstop with ⟨hrunning, rfl⟩ | ⟨hsome, a, hmem, hnot⟩
      · rw [if_neg (by simp [hrunning])]
        exact ih (h.next hle hc₂ hread₂ hnodes₂ hfetches₂ (hstop₂.trans hrunning)
          (hcut₂.trans hcut) hleft₂ hlabel₂ hexp) (by omega)
      · rw [if_pos hsome]
        exact finished_of_cut hc₂ hread₂ hle hnodes₂ hfetches₂ (hstop₂ ▸ hsome)
          ((hleft₂ a).mpr ⟨(h.frontier hle a).mp hmem, hnot⟩) hexp

end Mabel.Crawl
