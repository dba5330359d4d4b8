import Mabel.Ledger.Correctness.Links
import Mabel.Node.Correctness.Reloading
import Mabel.Node.Loaded
import Mabel.Node.Verify

/-!
# Which candidate wins

The verifier compares only the best candidate so far with each newcomer. The best extends
everything seen before it, so a newcomer that differs from anything seen differs from the
best, at the same sequence. The crawler compares with the first copy only and misses copies
that part past its end. Both compare signed bytes, so two signatures of one body count as a
divergence for them.
-/

namespace Mabel.Node

open Wire

variable {C : Crypto}

/-- The events of a candidate. -/
abbrev Candidate.chain (candidate : Candidate C) : List Bytes := candidate.loaded.events

/-- The events of a copy. -/
abbrev Copy.chain (copy : Copy C) : List Bytes := copy.2.events

/-- Every two lists of a family are comparable. -/
def PairwiseComparable (chains : List (List Bytes)) : Prop :=
  ∀ a ∈ chains, ∀ b ∈ chains, Comparable a b

/-! ## The verifier -/

section Winner

variable {ledger : LedgerId}

theorem divergence_eq_none {left right : Candidate C} :
    divergence left right = none ↔ Comparable left.chain right.chain := by
  rw [divergence, Option.map_eq_none_iff, firstDifference_eq_none]

/-- Candidates diverge where their chains part. -/
theorem divergence_eq_some {left right : Candidate C} {k : Nat} {first second : Divergent C} :
    divergence left right = some (k, first, second) ↔ PartAt k left.chain right.chain ∧
      first = left.divergent k ∧ second = right.divergent k := by
  rw [divergence, Option.map_eq_some_iff]
  constructor
  · rintro ⟨seq, hseq, heq⟩
    obtain ⟨rfl, rfl, rfl⟩ := by simpa using heq
    exact ⟨(firstDifference_eq_some _ _ _).mp hseq, rfl, rfl⟩
  · rintro ⟨hpart, rfl, rfl⟩
    exact ⟨k, (firstDifference_eq_some _ _ _).mpr hpart, rfl⟩

/-- A candidate of a list that every candidate of the list is a prefix of. -/
structure Extends (best : Candidate C) (candidates : List (Candidate C)) : Prop where
  mem : best ∈ candidates
  above : ∀ a ∈ candidates, a.chain <+: best.chain

/-- Candidates one of them extends are comparable in pairs. -/
theorem Extends.comparable {best : Candidate C} {candidates : List (Candidate C)}
    (h : Extends best candidates) : PairwiseComparable (candidates.map Candidate.chain) := by
  intro a ha b hb
  obtain ⟨x, hx, rfl⟩ := List.mem_map.mp ha
  obtain ⟨y, hy, rfl⟩ := List.mem_map.mp hb
  exact .of_prefixes (h.above x hx) (h.above y hy)

/-- The best candidate of a list and a newcomer parted, and this was reported. -/
structure Parted (ledger : LedgerId) (candidates : List (Candidate C))
    (result : Outcome (VerifyError C) (Candidate C)) (before : List (Candidate C))
    (best newcomer : Candidate C) (k : Nat) : Prop where
  split : ∃ after, candidates = before ++ newcomer :: after
  onTop : Extends best before
  parts : PartAt k best.chain newcomer.chain
  reported : result = Outcome.reject
    (.equivocation ledger k (best.divergent k) (newcomer.divergent k))

/-- Comparing the rest with the best of what was seen: it ends with the best of all, or with
the first newcomer that parts from the best before it. -/
theorem winnerFrom_cases (rest : List (Candidate C)) :
    ∀ {seen : List (Candidate C)} {best : Candidate C}, Extends best seen →
      (∃ c, winnerFrom ledger best rest = .ok c ∧ Extends c (seen ++ rest)) ∨
      ∃ before best' newcomer k, Parted ledger (seen ++ rest) (winnerFrom ledger best rest) before
        best' newcomer k := by
  induction rest with
  | nil =>
    intro seen best hbest
    exact .inl ⟨best, rfl, by rwa [List.append_nil]⟩
  | cons newcomer rest ih =>
    intro seen best hbest
    rw [winnerFrom]
    rcases hdiverge : divergence best newcomer with _ | ⟨k, first, second⟩
    · -- The longer of the two extends what was seen and the newcomer.
      have hcomparable := divergence_eq_none.mp hdiverge
      have hnext : Extends (if newcomer.loaded.events.length > best.loaded.events.length
          then newcomer else best) (seen ++ [newcomer]) := by
        by_cases hlonger : newcomer.loaded.events.length > best.loaded.events.length
        · rw [if_pos hlonger]
          refine ⟨by simp, fun a ha => ?_⟩
          rcases List.mem_append.mp ha with ha | ha
          · exact (hbest.above a ha).trans (hcomparable.prefix_of_le hlonger.le)
          · rw [List.mem_singleton.mp ha]
        · rw [if_neg hlonger]
          refine ⟨List.mem_append_left _ hbest.mem, fun a ha => ?_⟩
          rcases List.mem_append.mp ha with ha | ha
          · exact hbest.above a ha
          · rw [List.mem_singleton.mp ha]
            exact hcomparable.symm.prefix_of_le (not_lt.mp hlonger)
      have hrest := ih hnext
      rw [List.append_assoc] at hrest
      exact hrest
    · obtain ⟨hpart, rfl, rfl⟩ := divergence_eq_some.mp hdiverge
      exact .inr ⟨seen, best, newcomer, k, ⟨⟨rest, rfl⟩, hbest, hpart, rfl⟩⟩

/-- The winner extends every candidate, or the candidates part at the first that does not fit. -/
theorem winner_cases (first : Candidate C) (rest : List (Candidate C)) :
    (∃ c, winner ledger (first :: rest) = .ok c ∧ Extends c (first :: rest)) ∨
      ∃ before best newcomer k, Parted ledger (first :: rest) (winner ledger (first :: rest)) before
        best newcomer k := by
  have hfirst : Extends first [first] := by
    refine ⟨List.mem_singleton_self _, fun a ha => ?_⟩
    rw [List.mem_singleton.mp ha]
  exact winnerFrom_cases rest hfirst

/-- Where two candidates parted, not all are comparable. -/
theorem Parted.not_comparable {candidates before : List (Candidate C)}
    {result : Outcome (VerifyError C) (Candidate C)} {best newcomer : Candidate C} {k : Nat}
    (h : Parted ledger candidates result before best newcomer k) :
    ¬ PairwiseComparable (candidates.map Candidate.chain) := by
  intro hall
  obtain ⟨after, rfl⟩ := h.split
  refine h.parts.not_comparable (hall _ (List.mem_map_of_mem ?_) _ (List.mem_map_of_mem ?_))
  · exact List.mem_append_left _ h.onTop.mem
  · exact List.mem_append_right _ List.mem_cons_self

/-- The verifier answers exactly when every two candidates are comparable. -/
theorem winner_ok_iff (first : Candidate C) (rest : List (Candidate C)) :
    (∃ c, winner ledger (first :: rest) = .ok c) ↔
      PairwiseComparable ((first :: rest).map Candidate.chain) := by
  rcases @winner_cases C ledger first rest with ⟨c, hok, hextends⟩ | ⟨_, _, _, _, hparted⟩
  · exact iff_of_true ⟨c, hok⟩ hextends.comparable
  · refine iff_of_false ?_ hparted.not_comparable
    rintro ⟨c, hok⟩
    rw [hparted.reported] at hok
    simp at hok

/-- A winner extends every candidate. -/
theorem winner_extends {first : Candidate C} {rest : List (Candidate C)} {c : Candidate C}
    (h : winner ledger (first :: rest) = .ok c) : Extends c (first :: rest) := by
  rcases @winner_cases C ledger first rest with ⟨c', hok, hextends⟩ | ⟨_, _, _, _, hparted⟩
  · obtain rfl := Except.ok.inj (h.symm.trans hok)
    exact hextends
  · rw [hparted.reported] at h
    simp at h

end Winner

/-- The verifier answers exactly when every two candidates are comparable byte for byte, with
a candidate that extends all of them; otherwise it names two candidates and the first sequence
where they differ. The order of the candidates changes neither the outcome nor the chain. -/
theorem winner_extends_all (ledger : LedgerId) (first : Candidate C) (rest : List (Candidate C)) :
    ((∃ c, winner ledger (first :: rest) = .ok c) ↔
      ∀ a ∈ first :: rest, ∀ b ∈ first :: rest, a.chain <+: b.chain ∨ b.chain <+: a.chain) ∧
    (∀ c, winner ledger (first :: rest) = .ok c →
      c ∈ first :: rest ∧ ∀ a ∈ first :: rest, a.chain <+: c.chain) ∧
    ((¬ ∃ c, winner ledger (first :: rest) = .ok c) →
      ∃ a ∈ first :: rest, ∃ b ∈ first :: rest, ∃ k, PartAt k a.chain b.chain ∧
        winner ledger (first :: rest) =
          Outcome.reject (.equivocation ledger k (a.divergent k) (b.divergent k))) ∧
    ∀ permuted, permuted.Perm (first :: rest) →
      ((∃ c, winner ledger permuted = .ok c) ↔ ∃ c, winner ledger (first :: rest) = .ok c) ∧
      ∀ c c', winner ledger permuted = .ok c → winner ledger (first :: rest) = .ok c' →
        c.chain = c'.chain := by
  refine ⟨?_, fun c hok => ?_, fun hnone => ?_, fun permuted hperm => ?_⟩
  · rw [winner_ok_iff]
    simp only [PairwiseComparable, List.forall_mem_map, Comparable]
  · have hextends := winner_extends hok
    exact ⟨hextends.mem, hextends.above⟩
  · rcases @winner_cases C ledger first rest with
      ⟨c, hok, -⟩ | ⟨before, best, newcomer, k, hparted⟩
    · exact absurd ⟨c, hok⟩ hnone
    · obtain ⟨after, hsplit⟩ := hparted.split
      refine ⟨best, ?_, newcomer, ?_, k, hparted.parts, hparted.reported⟩
      · rw [hsplit]
        exact List.mem_append_left _ hparted.onTop.mem
      · rw [hsplit]
        exact List.mem_append_right _ List.mem_cons_self
  · rcases permuted with _ | ⟨head, tail⟩
    · exact absurd hperm.symm.eq_nil (by simp)
    · refine ⟨?_, fun c c' hc hc' => ?_⟩
      · rw [winner_ok_iff, winner_ok_iff]
        simp only [PairwiseComparable, (hperm.map Candidate.chain).mem_iff]
      · have hextends := winner_extends hc
        have hextends' := winner_extends hc'
        have hle := hextends'.above c (hperm.mem_iff.mp hextends.mem)
        have hge := hextends.above c' (hperm.mem_iff.mpr hextends'.mem)
        exact hle.eq_of_length_le hge.length_le

/-! ## The crawler -/

section Crawler

variable {first : Copy C}

/-- The first copy that differs from the first one, as it is recorded. -/
def firstBranch (first : Copy C) (copies : List (Copy C)) : Option Equivocation :=
  copies.findSome? fun copy =>
    (firstDifference first.2.events copy.2.events).map (branchesAt first copy)

/-- Comparing copies records the first that differs. -/
theorem compareCopies_branch (copies : List (Copy C)) :
    ∀ (kept : Copy C) (found : Option Equivocation),
      (compareCopies first kept found copies).2 = found.or (firstBranch first copies) := by
  induction copies with
  | nil => exact fun _ found => (Option.or_none).symm
  | cons copy copies ih =>
    intro kept found
    rw [compareCopies, firstBranch, List.findSome?_cons]
    cases hdiffers : firstDifference first.2.events copy.2.events with
    | some seq =>
      dsimp only
      rw [ih, Option.or_assoc]
      rfl
    | none =>
      dsimp only [Option.map_none]
      split_ifs
      · rw [ih]
        rfl
      · rw [ih]
        rfl

/-- Where no copy differs from the first, the one kept is as long as any. -/
theorem compareCopies_kept (copies : List (Copy C)) :
    ∀ (kept : Copy C) (found : Option Equivocation),
      (∀ copy ∈ copies, Comparable first.chain copy.chain) →
      (compareCopies first kept found copies).1 ∈ kept :: copies ∧
        ∀ copy ∈ kept :: copies,
          copy.chain.length ≤ (compareCopies first kept found copies).1.chain.length := by
  induction copies with
  | nil =>
    intro kept found _
    refine ⟨List.mem_singleton_self _, fun copy hcopy => ?_⟩
    rw [List.mem_singleton.mp hcopy]
    rfl
  | cons copy copies ih =>
    intro kept found hall
    have hnone := (firstDifference_eq_none _ _).mpr (hall copy List.mem_cons_self)
    have hrest : ∀ c ∈ copies, Comparable first.chain c.chain :=
      fun c hc => hall c (List.mem_cons_of_mem _ hc)
    rw [compareCopies, hnone]
    dsimp only
    by_cases hlonger : copy.2.events.length > kept.2.events.length
    · rw [if_pos hlonger]
      obtain ⟨hmem, hlongest⟩ := ih copy found hrest
      refine ⟨List.mem_cons_of_mem _ hmem, fun c hc => ?_⟩
      rcases List.mem_cons.mp hc with rfl | hc
      · exact hlonger.le.trans (hlongest copy List.mem_cons_self)
      · exact hlongest c hc
    · rw [if_neg hlonger]
      obtain ⟨hmem, hlongest⟩ := ih kept found hrest
      refine ⟨?_, fun c hc => ?_⟩
      · rcases List.mem_cons.mp hmem with hkept | hmem
        · rw [hkept]
          exact List.mem_cons_self
        · exact List.mem_cons_of_mem _ (List.mem_cons_of_mem _ hmem)
      · rcases List.mem_cons.mp hc with rfl | hc
        · exact hlongest c List.mem_cons_self
        rcases List.mem_cons.mp hc with rfl | hc
        · exact (not_lt.mp hlonger).trans (hlongest kept List.mem_cons_self)
        · exact hlongest c (List.mem_cons_of_mem _ hc)

/-- No copy branches off when each is comparable with the first. -/
theorem firstBranch_eq_none {copies : List (Copy C)} :
    firstBranch first copies = none ↔ ∀ copy ∈ copies, Comparable first.chain copy.chain := by
  simp only [firstBranch, List.findSome?_eq_none_iff, Option.map_eq_none_iff,
    firstDifference_eq_none]

/-- What the crawler records is the first copy that parts from the first one. -/
theorem firstBranch_eq_some {copies : List (Copy C)} {found : Equivocation} :
    firstBranch first copies = some found ↔ ∃ before copy after k,
      copies = before ++ copy :: after ∧ (∀ c ∈ before, Comparable first.chain c.chain) ∧
      PartAt k first.chain copy.chain ∧ found = branchesAt first copy k := by
  simp only [firstBranch, List.findSome?_eq_some_iff, Option.map_eq_some_iff,
    Option.map_eq_none_iff, firstDifference_eq_none, firstDifference_eq_some]
  constructor
  · rintro ⟨before, copy, after, rfl, ⟨k, hpart, rfl⟩, hbefore⟩
    exact ⟨before, copy, after, k, rfl, hbefore, hpart, rfl⟩
  · rintro ⟨before, copy, after, k, rfl, hbefore, hpart, rfl⟩
    exact ⟨before, copy, after, rfl, ⟨k, hpart, rfl⟩, hbefore⟩

variable {now : Nat} {ledger : LedgerId} {tried : List FetchSource} {invalid : Option String}

/-- The crawler attaches what it found. -/
theorem decide_equivocation (rest : List (Copy C)) :
    (FetchOutcome.decide now ledger tried (first :: rest) invalid).equivocation =
      firstBranch first rest := by
  have hbranch := @compareCopies_branch C first rest first none
  rw [Option.none_or] at hbranch
  rw [FetchOutcome.decide, ← hbranch]
  rcases compareCopies first first none rest with ⟨kept, _ | found⟩ <;> rfl

/-- Without an equivocation the crawler answers with the copy it kept. -/
theorem decide_kept {rest : List (Copy C)} (hnone : firstBranch first rest = none) :
    (FetchOutcome.decide now ledger tried (first :: rest) invalid).summary =
        some (.of (compareCopies first first none rest).1.2) ∧
      (FetchOutcome.decide now ledger tried (first :: rest) invalid).source =
        some (compareCopies first first none rest).1.1 := by
  have hbranch := @compareCopies_branch C first rest first none
  rw [Option.none_or, hnone] at hbranch
  rw [FetchOutcome.decide]
  rcases hcompare : compareCopies first first none rest with ⟨kept, found⟩
  rw [hcompare] at hbranch
  obtain rfl : found = none := hbranch
  exact ⟨rfl, rfl⟩

end Crawler

/-- The crawler sees every divergence of a list of copies: it attaches one exactly when two of
them diverge, as the verifier does on the same chains, and otherwise keeps a copy that extends
every other. -/
structure SeesDivergence (now : Nat) (ledger : LedgerId) (tried : List FetchSource)
    (invalid : Option String) (copies : List (Copy C)) : Prop where
  attaches : (FetchOutcome.decide now ledger tried copies invalid).equivocation ≠ none ↔
    ∃ a ∈ copies, ∃ b ∈ copies, ∃ k, PartAt k a.chain b.chain
  asVerifier : ∀ candidates : List (Candidate C),
    candidates.map Candidate.loaded = copies.map Prod.snd →
      ((FetchOutcome.decide now ledger tried copies invalid).equivocation ≠ none ↔
        ¬ ∃ c, winner ledger candidates = .ok c)
  keeps : (FetchOutcome.decide now ledger tried copies invalid).equivocation = none →
    ∃ kept ∈ copies, (FetchOutcome.decide now ledger tried copies invalid).summary =
        some (.of kept.2) ∧
      (FetchOutcome.decide now ledger tried copies invalid).source = some kept.1 ∧
      ∀ other ∈ copies, other.chain <+: kept.chain

/-- The crawler sees every divergence exactly when either some copy differs from the first one
or no two copies differ: it misses copies that part only past the end of the first. -/
theorem crawler_sees_divergence_iff (now : Nat) (ledger : LedgerId) (tried : List FetchSource)
    (invalid : Option String) (first : Copy C) (rest : List (Copy C)) :
    SeesDivergence now ledger tried invalid (first :: rest) ↔
      (∃ copy ∈ rest, ∃ k, PartAt k first.chain copy.chain) ∨
        ∀ a ∈ first :: rest, ∀ b ∈ first :: rest, ∀ k, ¬ PartAt k a.chain b.chain := by
  have hattach := @decide_equivocation C first now ledger tried invalid rest
  constructor
  · intro h
    by_cases hfirst : ∃ copy ∈ rest, ∃ k, PartAt k first.chain copy.chain
    · exact .inl hfirst
    · refine .inr fun a ha b hb k hpart => ?_
      have hsome := h.attaches.mpr ⟨a, ha, b, hb, k, hpart⟩
      rw [hattach] at hsome
      obtain ⟨found, hfound⟩ := Option.ne_none_iff_exists'.mp hsome
      obtain ⟨before, copy, after, j, rfl, -, hj, -⟩ := firstBranch_eq_some.mp hfound
      exact hfirst ⟨copy, by simp, j, hj⟩
  · intro h
    have hiff : firstBranch first rest ≠ none ↔
        ∃ a ∈ first :: rest, ∃ b ∈ first :: rest, ∃ k, PartAt k a.chain b.chain := by
      rcases h with ⟨copy, hcopy, k, hpart⟩ | hnone
      · refine iff_of_true ?_ ⟨first, List.mem_cons_self, copy, List.mem_cons_of_mem _ hcopy, k, hpart⟩
        rw [ne_eq, firstBranch_eq_none]
        exact fun hall => hpart.not_comparable (hall copy hcopy)
      · refine iff_of_false ?_ ?_
        · rw [ne_eq, not_not, firstBranch_eq_none]
          intro copy hcopy
          by_contra hparts
          obtain ⟨k, hk⟩ := partAt_of_not_comparable hparts
          exact hnone first List.mem_cons_self copy (List.mem_cons_of_mem _ hcopy) k hk
        · rintro ⟨a, ha, b, hb, k, hk⟩
          exact hnone a ha b hb k hk
    have hcomparable : PairwiseComparable ((first :: rest).map Copy.chain) ↔
        ¬ ∃ a ∈ first :: rest, ∃ b ∈ first :: rest, ∃ k, PartAt k a.chain b.chain := by
      constructor
      · rintro hall ⟨a, ha, b, hb, k, hk⟩
        exact hk.not_comparable (hall _ (List.mem_map_of_mem ha) _ (List.mem_map_of_mem hb))
      · intro hnone a ha b hb
        obtain ⟨x, hx, rfl⟩ := List.mem_map.mp ha
        obtain ⟨y, hy, rfl⟩ := List.mem_map.mp hb
        by_contra hparts
        obtain ⟨k, hk⟩ := partAt_of_not_comparable hparts
        exact hnone ⟨x, hx, y, hy, k, hk⟩
    refine ⟨by rw [hattach]; exact hiff, fun candidates hsame => ?_, fun hnone => ?_⟩
    · rcases candidates with _ | ⟨head, tail⟩
      · simp at hsame
      · have hchains : (head :: tail).map Candidate.chain = (first :: rest).map Copy.chain := by
          have := congrArg (List.map LoadedLedger.events) hsame
          rwa [List.map_map, List.map_map] at this
        rw [hattach, hiff, winner_ok_iff, hchains, hcomparable, not_not]
    · rw [hattach] at hnone
      have hall : PairwiseComparable ((first :: rest).map Copy.chain) :=
        hcomparable.mpr (mt hiff.mpr (by simpa using hnone))
      obtain ⟨hmem, hlongest⟩ := compareCopies_kept rest first none (firstBranch_eq_none.mp hnone)
      obtain ⟨hsummary, hsource⟩ := @decide_kept C first now ledger tried invalid rest hnone
      refine ⟨_, hmem, hsummary, hsource, fun other hother => ?_⟩
      exact (hall _ (List.mem_map_of_mem hother) _ (List.mem_map_of_mem hmem)).prefix_of_le
        (hlongest other hother)

/-- The fold of some events that claim to be the sample ledger. -/
def sampleLoaded (events : List Bytes) : LoadedLedger Crypto.sample :=
  match (LoadedLedger.fold sampleLedgerId events : Outcome Empty _) with
  | .ok loaded => loaded
  | .error _ => .start sampleLedgerId []

/-- The sample inception, and two chains that extend it with different events. -/
def sampleCopies : List (Copy Crypto.sample) :=
  [(.localCopy, sampleLoaded (sampleLedger.take 1)),
    (.peerHint "a", sampleLoaded (sampleLedger.take 2)),
    (.peerHint "b", sampleLoaded sampleFork)]

/-- Behind a shorter first copy the crawler sees no divergence: it keeps one of two chains that
differ at sequence 1 and records nothing. -/
theorem crawler_misses_divergence :
    (∀ copy ∈ sampleCopies, copy.2.violation = none ∧
      copy.2.state.ledger = some sampleLedgerId) ∧
    (FetchOutcome.decide 1 sampleLedgerId [] sampleCopies none).equivocation = none ∧
    (FetchOutcome.decide 1 sampleLedgerId [] sampleCopies none).source = some (.peerHint "a") ∧
    ¬ SeesDivergence 1 sampleLedgerId [] none sampleCopies := by
  obtain ⟨hvalid, hnone, hsource, hpart⟩ : (∀ copy ∈ sampleCopies, copy.2.violation = none ∧
      copy.2.state.ledger = some sampleLedgerId) ∧
      (FetchOutcome.decide 1 sampleLedgerId [] sampleCopies none).equivocation = none ∧
      (FetchOutcome.decide 1 sampleLedgerId [] sampleCopies none).source = some (.peerHint "a") ∧
      firstDifference (sampleLoaded (sampleLedger.take 2)).events
        (sampleLoaded sampleFork).events = some 1 := by decide +kernel
  refine ⟨hvalid, hnone, hsource, fun h => ?_⟩
  refine h.attaches.mpr ⟨(.peerHint "a", sampleLoaded (sampleLedger.take 2)), ?_,
    (.peerHint "b", sampleLoaded sampleFork), ?_, 1,
    (firstDifference_eq_some _ _ _).mp hpart⟩ hnone
  · exact List.mem_cons_of_mem _ List.mem_cons_self
  · exact List.mem_cons_of_mem _ (List.mem_cons_of_mem _ List.mem_cons_self)

/-! ## Different bytes and different events -/

/-- Two chains that differ first in two signed forms of one event. -/
def Resigned (C : Crypto) (a b : List Bytes) : Prop :=
  ∃ k e e', PartAt k a b ∧ a[k]? = some e ∧ b[k]? = some e' ∧
    Mabel.eventIdOf C e = Mabel.eventIdOf C e'

/-- Two chains hold events with different ids at a sequence. -/
def HoldsDifferent (C : Crypto) (k : Nat) (a b : List Bytes) : Prop :=
  ∃ e e', a[k]? = some e ∧ b[k]? = some e' ∧ Mabel.eventIdOf C e ≠ Mabel.eventIdOf C e'

/-- Two chains hold the same event ids as far as both go. -/
def SameIds (C : Crypto) (a b : List Bytes) : Prop := ∀ k, ¬ HoldsDifferent C k a b

/-- The verifier reports different events only: whatever it reports names two candidates that
hold different events at the reported sequence, and never two that hold the same. -/
structure ReportsDifferent (ledger : LedgerId) (candidates : List (Candidate C)) : Prop where
  different : ∀ k x y, winner ledger candidates = Outcome.reject (.equivocation ledger k x y) →
    ∃ a ∈ candidates, ∃ b ∈ candidates, x = a.divergent k ∧ y = b.divergent k ∧
      HoldsDifferent C k a.chain b.chain
  neverSame : ∀ a ∈ candidates, ∀ b ∈ candidates, SameIds C a.chain b.chain →
    ∀ k < min a.chain.length b.chain.length, winner ledger candidates ≠
      Outcome.reject (.equivocation ledger k (a.divergent k) (b.divergent k))

/-- The crawler records different events only. -/
structure RecordsDifferent (now : Nat) (ledger : LedgerId) (tried : List FetchSource)
    (invalid : Option String) (copies : List (Copy C)) : Prop where
  different : ∀ found,
    (FetchOutcome.decide now ledger tried copies invalid).equivocation = some found →
    ∃ a ∈ copies, ∃ b ∈ copies, found = branchesAt a b found.atSeq ∧
      HoldsDifferent C found.atSeq a.chain b.chain
  neverSame : ∀ a ∈ copies, ∀ b ∈ copies, SameIds C a.chain b.chain →
    ∀ k < min a.chain.length b.chain.length,
      (FetchOutcome.decide now ledger tried copies invalid).equivocation ≠ some (branchesAt a b k)

section Ids

variable {ledger : LedgerId} {k : Nat}

/-- A chain that verifies reports its events under their ids. -/
theorem LoadedLedger.Verifies.eventAt_eq {loaded : LoadedLedger C} (h : loaded.Verifies ledger)
    {event : Bytes} (hk : loaded.events[k]? = some event) :
    loaded.eventAt k = renderId (Mabel.eventIdOf C event).raw := by
  rw [LoadedLedger.eventAt, h.eventIds_eq hk]
  rfl

/-- Within their length, two chains that verify are reported under different ids exactly when
they hold different events. -/
theorem holdsDifferent_iff {a b : LoadedLedger C} (ha : a.Verifies ledger) (hb : b.Verifies ledger)
    (hka : k < a.events.length) (hkb : k < b.events.length) :
    HoldsDifferent C k a.events b.events ↔ a.eventAt k ≠ b.eventAt k := by
  have hea := List.getElem?_eq_getElem hka
  have heb := List.getElem?_eq_getElem hkb
  rw [ha.eventAt_eq hea, hb.eventAt_eq heb]
  constructor
  · rintro ⟨e, e', he, he', hne⟩ hsame
    obtain rfl := Option.some.inj (hea.symm.trans he)
    obtain rfl := Option.some.inj (heb.symm.trans he')
    exact hne (EventId.ext (renderId_injective hsame))
  · intro hne
    exact ⟨_, _, hea, heb, fun hsame => hne (by rw [hsame])⟩

/-- Where two chains hold different events both have one. -/
theorem HoldsDifferent.lt {a b : List Bytes} (h : HoldsDifferent C k a b) :
    k < a.length ∧ k < b.length := by
  obtain ⟨e, e', he, he', -⟩ := h
  exact ⟨(List.getElem?_eq_some_iff.mp he).1, (List.getElem?_eq_some_iff.mp he').1⟩

/-- Parted chains hold different events unless one event was signed twice. -/
theorem not_resigned_iff {a b : List Bytes} (hpart : PartAt k a b) :
    ¬ Resigned C a b ↔ HoldsDifferent C k a b := by
  obtain ⟨x, y, hx, hy, hne⟩ := hpart.here
  constructor
  · intro h
    exact ⟨x, y, hx, hy, fun hsame => h ⟨k, x, y, hpart, hx, hy, hsame⟩⟩
  · rintro ⟨e, e', he, he', hids⟩ ⟨j, u, u', hj, hu, hu', hsame⟩
    obtain rfl := hpart.unique hj
    obtain rfl := Option.some.inj (he.symm.trans hu)
    obtain rfl := Option.some.inj (he'.symm.trans hu')
    exact hids hsame

/-- A chain that extends another differs from a third in the same event. -/
theorem Resigned.extend {a a' b : List Bytes} (h : Resigned C a b) (hle : a <+: a') :
    Resigned C a' b := by
  obtain ⟨j, e, e', hpart, he, he', hsame⟩ := h
  obtain ⟨rest, rfl⟩ := hle
  refine ⟨j, e, e', hpart.extend ⟨rest, rfl⟩, ?_, he', hsame⟩
  rw [List.getElem?_append_left (List.getElem?_eq_some_iff.mp he).1]
  exact he

/-- Comparing some candidates and then others. -/
theorem winnerFrom_append (others : List (Candidate C)) (candidates : List (Candidate C)) :
    ∀ (best : Candidate C) {c : Candidate C}, winnerFrom ledger best candidates = .ok c →
      winnerFrom ledger best (candidates ++ others) = winnerFrom ledger c others := by
  induction candidates with
  | nil =>
    intro best c h
    rw [Except.ok.inj h]
    rfl
  | cons candidate candidates ih =>
    intro best c h
    rw [List.cons_append, winnerFrom]
    rw [winnerFrom] at h
    rcases hdiverge : divergence best candidate with _ | ⟨k, first, second⟩
    · rw [hdiverge] at h
      exact ih _ h
    · simp [hdiverge] at h

/-- The first candidate that differs from one before it holds another event there, and not
another signature of the same one. -/
def FirstDiffersInEvent (candidates : List (Candidate C)) : Prop :=
  ∀ before newcomer after, candidates = before ++ newcomer :: after →
    PairwiseComparable (before.map Candidate.chain) →
    ∀ a ∈ before, ¬ Resigned C a.chain newcomer.chain

/-- The first copy that differs from the first one holds another event there. -/
def FirstCopyDiffersInEvent (copies : List (Copy C)) : Prop :=
  ∀ first before copy after, copies = first :: (before ++ copy :: after) →
    (∀ c ∈ before, Comparable first.chain c.chain) → ¬ Resigned C first.chain copy.chain

/-- A divergence is reported where the first candidates to part hold different events. -/
theorem reportsDifferent_iff {candidates : List (Candidate C)}
    (hverifies : ∀ c ∈ candidates, c.loaded.Verifies ledger) :
    ReportsDifferent ledger candidates ↔ FirstDiffersInEvent candidates := by
  -- Of two ways to name the reported events, both hold different ones or neither does.
  have hnamed : ∀ a ∈ candidates, ∀ b ∈ candidates, ∀ a' ∈ candidates, ∀ b' ∈ candidates,
      ∀ k < min a.chain.length b.chain.length, a'.divergent k = a.divergent k →
      b'.divergent k = b.divergent k → HoldsDifferent C k a'.chain b'.chain →
      HoldsDifferent C k a.chain b.chain := by
    intro a ha b hb a' ha' b' hb' k hk hx hy hdifferent
    rw [lt_min_iff] at hk
    rw [holdsDifferent_iff (hverifies a ha) (hverifies b hb) hk.1 hk.2]
    obtain ⟨hka, hkb⟩ := hdifferent.lt
    rw [holdsDifferent_iff (hverifies a' ha') (hverifies b' hb') hka hkb] at hdifferent
    rwa [show a.loaded.eventAt k = a'.loaded.eventAt k from (congrArg Divergent.event hx).symm,
      show b.loaded.eventAt k = b'.loaded.eventAt k from (congrArg Divergent.event hy).symm]
  constructor
  · rintro hreports before newcomer after rfl hcomparable a ha hresigned
    obtain ⟨first, tail, rfl⟩ := List.exists_cons_of_ne_nil (List.ne_nil_of_mem ha)
    obtain ⟨best, hbest⟩ := (winner_ok_iff first tail).mpr hcomparable
    have hextends := winner_extends hbest
    have hresigned' := hresigned.extend (hextends.above a ha)
    obtain ⟨k, e, e', hpart, he, he', hsame⟩ := hresigned'
    have hreport : winner ledger (first :: tail ++ newcomer :: after) = Outcome.reject
        (.equivocation ledger k (best.divergent k) (newcomer.divergent k)) := by
      change winnerFrom ledger first (tail ++ newcomer :: after) = _
      rw [winnerFrom_append _ _ _ hbest, winnerFrom,
        divergence_eq_some.mpr ⟨hpart, rfl, rfl⟩]
    obtain ⟨a', ha', b', hb', hx, hy, hdifferent⟩ := hreports.different _ _ _ hreport
    have hdifferent' := hnamed best (List.mem_append_left _ hextends.mem) newcomer
      (List.mem_append_right _ List.mem_cons_self) a' ha' b' hb' k
      (lt_min hpart.lt_left hpart.symm.lt_left) hx.symm hy.symm hdifferent
    exact (not_resigned_iff hpart).mpr hdifferent' ⟨k, e, e', hpart, he, he', hsame⟩
  · intro hfirst
    have hdifferent : ∀ k x y,
        winner ledger candidates = Outcome.reject (.equivocation ledger k x y) →
        ∃ a ∈ candidates, ∃ b ∈ candidates, x = a.divergent k ∧ y = b.divergent k ∧
          HoldsDifferent C k a.chain b.chain := by
      intro k x y hreport
      rcases candidates with _ | ⟨first, rest⟩
      · simp [winner, Outcome.reject] at hreport
      · rcases @winner_cases C ledger first rest with
          ⟨c, hok, -⟩ | ⟨before, best, newcomer, j, hparted⟩
        · rw [hok] at hreport
          simp [Outcome.reject] at hreport
        · rw [hparted.reported] at hreport
          obtain ⟨rfl, rfl, rfl⟩ := by simpa [Outcome.reject] using hreport
          obtain ⟨after, hsplit⟩ := hparted.split
          have hnot := hfirst before newcomer after hsplit hparted.onTop.comparable best
            hparted.onTop.mem
          refine ⟨best, ?_, newcomer, ?_, rfl, rfl, (not_resigned_iff hparted.parts).mp hnot⟩
          · rw [hsplit]
            exact List.mem_append_left _ hparted.onTop.mem
          · rw [hsplit]
            exact List.mem_append_right _ List.mem_cons_self
    refine ⟨hdifferent, fun a ha b hb hsame k hk hreport => ?_⟩
    obtain ⟨a', ha', b', hb', hx, hy, hholds⟩ := hdifferent _ _ _ hreport
    exact hsame k (hnamed a ha b hb a' ha' b' hb' k hk hx.symm hy.symm hholds)

/-- A divergence is recorded where a copy holds another event than the first one. -/
theorem recordsDifferent_iff {now : Nat} {tried : List FetchSource} {invalid : Option String}
    {copies : List (Copy C)} (hverifies : ∀ c ∈ copies, c.2.Verifies ledger) :
    RecordsDifferent now ledger tried invalid copies ↔ FirstCopyDiffersInEvent copies := by
  have hnamed : ∀ a ∈ copies, ∀ b ∈ copies, ∀ a' ∈ copies, ∀ b' ∈ copies,
      ∀ k < min a.chain.length b.chain.length, branchesAt a' b' k = branchesAt a b k →
      HoldsDifferent C k a'.chain b'.chain → HoldsDifferent C k a.chain b.chain := by
    intro a ha b hb a' ha' b' hb' k hk hbranches hdifferent
    rw [lt_min_iff] at hk
    rw [holdsDifferent_iff (hverifies a ha) (hverifies b hb) hk.1 hk.2]
    obtain ⟨hka, hkb⟩ := hdifferent.lt
    rw [holdsDifferent_iff (hverifies a' ha') (hverifies b' hb') hka hkb] at hdifferent
    simp only [branchesAt, Equivocation.mk.injEq, List.cons.injEq, EquivocationBranch.mk.injEq,
      true_and, and_true] at hbranches
    rwa [← hbranches.1.2, ← hbranches.2.2]
  constructor
  · rintro hrecords first before copy after rfl hcomparable hresigned
    obtain ⟨k, e, e', hpart, he, he', hsame⟩ := hresigned
    have hfound : (FetchOutcome.decide now ledger tried (first :: (before ++ copy :: after))
        invalid).equivocation = some (branchesAt first copy k) := by
      rw [decide_equivocation]
      exact firstBranch_eq_some.mpr ⟨before, copy, after, k, rfl, hcomparable, hpart, rfl⟩
    obtain ⟨a', ha', b', hb', hbranches, hdifferent⟩ := hrecords.different _ hfound
    have hdifferent' := hnamed first List.mem_cons_self copy (by simp) a' ha' b' hb' k
      (lt_min hpart.lt_left hpart.symm.lt_left) hbranches.symm hdifferent
    exact (not_resigned_iff hpart).mpr hdifferent' ⟨k, e, e', hpart, he, he', hsame⟩
  · intro hfirst
    have hdifferent : ∀ found,
        (FetchOutcome.decide now ledger tried copies invalid).equivocation = some found →
        ∃ a ∈ copies, ∃ b ∈ copies, found = branchesAt a b found.atSeq ∧
          HoldsDifferent C found.atSeq a.chain b.chain := by
      intro found hfound
      rcases copies with _ | ⟨first, rest⟩
      · cases invalid <;> simp [FetchOutcome.decide, FetchOutcome.invalid,
          FetchOutcome.unreachable] at hfound
      · rw [decide_equivocation] at hfound
        obtain ⟨before, copy, after, k, rfl, hbefore, hpart, rfl⟩ := firstBranch_eq_some.mp hfound
        have hnot := hfirst first before copy after rfl hbefore
        exact ⟨first, List.mem_cons_self, copy, by simp, rfl, (not_resigned_iff hpart).mp hnot⟩
    refine ⟨hdifferent, fun a ha b hb hsame k hk hfound => ?_⟩
    obtain ⟨a', ha', b', hb', hbranches, hholds⟩ := hdifferent _ hfound
    exact hsame k (hnamed a ha b hb a' ha' b' hb' k hk hbranches.symm hholds)

end Ids

/-- Equivocation is reported for different events only, by the verifier exactly when the first
candidate that differs from one before it differs in an event, and by the crawler exactly when
the first copy that differs from the first one does: a second signature of the same body is
reported as an equivocation of an event with itself. -/
theorem equivocation_different_iff (now : Nat) (ledger : LedgerId) (tried : List FetchSource)
    (invalid : Option String) {candidates : List (Candidate C)} {copies : List (Copy C)}
    (hcandidates : ∀ c ∈ candidates, c.loaded.Verifies ledger)
    (hcopies : ∀ c ∈ copies, c.2.Verifies ledger) :
    (ReportsDifferent ledger candidates ↔ FirstDiffersInEvent candidates) ∧
      (RecordsDifferent now ledger tried invalid copies ↔ FirstCopyDiffersInEvent copies) :=
  ⟨reportsDifferent_iff hcandidates, recordsDifferent_iff hcopies⟩

/-- A sample chain without a violation verifies. -/
theorem verifies_sampleLoaded (events : List Bytes)
    (h : (sampleLoaded events).violation = none ∧
      (sampleLoaded events).state.ledger = some sampleLedgerId) :
    (sampleLoaded events).Verifies sampleLedgerId := by
  unfold sampleLoaded at h ⊢
  rcases hfold : (LoadedLedger.fold sampleLedgerId events : Outcome Empty
    (LoadedLedger Crypto.sample)) with e | loaded
  · rw [hfold] at h
    simp [LoadedLedger.start, LedgerState.default] at h
  · rw [hfold] at h
    exact verifies_of_fold hfold h.1 h.2

/-- Two chains of the sample ledger that part behind its inception, as two witnesses serve
them. -/
def partedCandidates : List (Candidate Crypto.sample) :=
  [⟨(SecretKey.sample 1).publicKey, sampleLoaded (sampleLedger.take 2)⟩,
    ⟨(SecretKey.sample 2).publicKey, sampleLoaded sampleFork⟩]

/-- The same chains, as a crawler finds them. -/
def partedCopies : List (Copy Crypto.sample) :=
  [(.localCopy, sampleLoaded (sampleLedger.take 2)), (.peerHint "b", sampleLoaded sampleFork)]

/-- The two chains part in an event, so both halves report different events only. -/
theorem equivocation_different_iff_sampleLoaded :
    PartAt 1 (sampleLoaded (sampleLedger.take 2)).events (sampleLoaded sampleFork).events ∧
      ReportsDifferent sampleLedgerId partedCandidates ∧
      RecordsDifferent 1 sampleLedgerId [] none partedCopies := by
  have hpart : PartAt 1 (sampleLoaded (sampleLedger.take 2)).events
      (sampleLoaded sampleFork).events :=
    (firstDifference_eq_some _ _ _).mp (by decide +kernel)
  have hdifferent : HoldsDifferent Crypto.sample 1 (sampleLoaded (sampleLedger.take 2)).events
      (sampleLoaded sampleFork).events := by
    refine ⟨(sampleLedger.take 2).getLastD [], sampleFork.getLastD [], ?_⟩
    decide +kernel
  have hnot := (not_resigned_iff hpart).mpr hdifferent
  have hcandidates : ∀ c ∈ partedCandidates, c.loaded.Verifies sampleLedgerId := by
    intro c hc
    rcases List.mem_pair.mp hc with rfl | rfl
    · exact verifies_sampleLoaded _ (by decide +kernel)
    · exact verifies_sampleLoaded _ (by decide +kernel)
  have hcopies : ∀ c ∈ partedCopies, c.2.Verifies sampleLedgerId := by
    intro c hc
    rcases List.mem_pair.mp hc with rfl | rfl
    · exact verifies_sampleLoaded _ (by decide +kernel)
    · exact verifies_sampleLoaded _ (by decide +kernel)
  obtain ⟨hreports, hrecords⟩ :=
    equivocation_different_iff 1 sampleLedgerId [] none hcandidates hcopies
  refine ⟨hpart, hreports.mpr ?_, hrecords.mpr ?_⟩
  · intro before newcomer after hsplit _ a ha
    match before, hsplit with
    | [], _ => simp at ha
    | [_], hsplit =>
      obtain ⟨rfl, rfl, -⟩ := by simpa [partedCandidates] using hsplit
      obtain rfl := List.mem_singleton.mp ha
      exact hnot
    | _ :: _ :: _, hsplit => simp [partedCandidates] at hsplit
  · intro first before copy after hsplit _
    match before, hsplit with
    | [], hsplit =>
      obtain ⟨rfl, rfl, -⟩ := by simpa [partedCopies] using hsplit
      exact hnot
    | _ :: _, hsplit => simp [partedCopies] at hsplit

/-- Keys with two signatures for every message, as ed25519 keys have many. -/
def Crypto.resigning : Crypto where
  hash := sampleHash
  isPoint := fun _ => true
  verify := fun key message signature => decide (signature = sampleSign key message) ||
    decide (signature = sampleSign key (0 :: message))
  displayKey := Base32.encode ∘ Block.bytes

/-- A key that signs in the first way or in the second. -/
def SecretKey.resigning (n : Nat) (second : Bool) : SecretKey Crypto.resigning where
  publicKey := ⟨.ofNat idBytes n, rfl⟩
  sign := fun message => sampleSign (.ofNat idBytes n) (if second then 0 :: message else message)
  verifies := fun message => by cases second <;> simp [PublicKey.verify, Crypto.resigning]

/-- An inception, signed in one of two ways. -/
def resignedChain (second : Bool) : List Bytes :=
  match buildInception (SecretKey.resigning 1 second) .person
    (.raw (SecretKey.resigning 3 false).publicKey) (.ofNat nonceBytes 4) 1000 with
  | .ok built => [built.signedEvent]
  | .error _ => []

/-- The ledger of both. -/
def resignedLedger : LedgerId :=
  (Mabel.eventIdOf Crypto.resigning ((resignedChain false).headD [])).toIdentity

/-- The fold of one of the two. -/
def resignedLoaded (second : Bool) : LoadedLedger Crypto.resigning :=
  match (LoadedLedger.fold resignedLedger (resignedChain second) : Outcome Empty _) with
  | .ok loaded => loaded
  | .error _ => .start resignedLedger []

/-- Two signatures of one inception are reported as two events, though both carry its id. -/
theorem resigned_reported :
    (∀ second, (resignedLoaded second).violation = none ∧
      (resignedLoaded second).state.ledger = some resignedLedger) ∧
    SameIds Crypto.resigning (resignedLoaded false).events (resignedLoaded true).events ∧
    winner resignedLedger [⟨(SecretKey.resigning 5 false).publicKey, resignedLoaded false⟩,
        ⟨(SecretKey.resigning 6 false).publicKey, resignedLoaded true⟩] =
      Outcome.reject (.equivocation resignedLedger 0
        (Candidate.divergent ⟨(SecretKey.resigning 5 false).publicKey, resignedLoaded false⟩ 0)
        (Candidate.divergent ⟨(SecretKey.resigning 6 false).publicKey, resignedLoaded true⟩ 0)) ∧
    ¬ ReportsDifferent resignedLedger
      [⟨(SecretKey.resigning 5 false).publicKey, resignedLoaded false⟩,
        ⟨(SecretKey.resigning 6 false).publicKey, resignedLoaded true⟩] := by
  have hsame : SameIds Crypto.resigning (resignedLoaded false).events
      (resignedLoaded true).events := by
    have hids : (resignedLoaded false).events.map (Mabel.eventIdOf Crypto.resigning) =
        (resignedLoaded true).events.map (Mabel.eventIdOf Crypto.resigning) := by decide +kernel
    rintro k ⟨e, e', he, he', hne⟩
    have hat := congrArg (fun ids => ids[k]?) hids
    simp only [List.getElem?_map, he, he', Option.map_some] at hat
    exact hne (Option.some.inj hat)
  have hreport : winner resignedLedger
      [⟨(SecretKey.resigning 5 false).publicKey, resignedLoaded false⟩,
        ⟨(SecretKey.resigning 6 false).publicKey, resignedLoaded true⟩] =
      Outcome.reject (.equivocation resignedLedger 0
        (Candidate.divergent ⟨(SecretKey.resigning 5 false).publicKey, resignedLoaded false⟩ 0)
        (Candidate.divergent ⟨(SecretKey.resigning 6 false).publicKey, resignedLoaded true⟩ 0)) := by
    decide +kernel
  refine ⟨by decide +kernel, hsame, hreport, fun h => ?_⟩
  refine h.neverSame _ List.mem_cons_self _ (List.mem_cons_of_mem _ List.mem_cons_self) hsame 0
    (by decide +kernel) hreport

end Mabel.Node
