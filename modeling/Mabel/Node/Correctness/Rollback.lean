import Mabel.Node.Bindings

/-!
# Bindings and shorter chains

Observations of the prefixes of one chain, in any order, leave the endpoints vouched for by those
observations that no longer chain followed, at the greatest of their positions. That is what the
longest chain says exactly when one of its observations vouches for something, or when each
observation that does is followed by a longer chain.
-/

namespace Mabel.Node

variable {C : Crypto}

/-- The observations that vouch for something and that no longer chain followed. -/
def standing (observations : List (Observation C)) : List (Observation C) :=
  observations.foldl (fun kept o =>
    (kept.filter fun p => decide (o.headSeq ≤ p.headSeq)) ++ if o.vouched = [] then [] else [o]) []

/-- An observation more drops those with a longer head and stands if it vouches. -/
theorem standing_append (observations : List (Observation C)) (o : Observation C) :
    standing (observations ++ [o]) =
      ((standing observations).filter fun p => decide (o.headSeq ≤ p.headSeq)) ++
        if o.vouched = [] then [] else [o] := by
  simp [standing, List.foldl_append]

/-- What stands after an observation more. -/
theorem mem_standing_append {observations : List (Observation C)} {o p : Observation C} :
    p ∈ standing (observations ++ [o]) ↔
      (p ∈ standing observations ∧ o.headSeq ≤ p.headSeq) ∨ (p = o ∧ o.vouched ≠ []) := by
  rw [standing_append, List.mem_append, List.mem_filter, decide_eq_true_iff]
  by_cases hvouched : o.vouched = [] <;> simp [hvouched]

/-- Nothing longer comes after an entry of a list. -/
def NothingLonger (observations : List (Observation C)) (i : Nat) (o : Observation C) : Prop :=
  ∀ (j : Nat) p, i < j → observations[j]? = some p → p.headSeq ≤ o.headSeq

/-- An observation stands while nothing longer follows it. -/
theorem mem_standing {observations : List (Observation C)} {p : Observation C} :
    p ∈ standing observations ↔ ∃ i : Nat, observations[i]? = some p ∧ p.vouched ≠ [] ∧
      NothingLonger observations i p := by
  -- On the observations in the order they were made.
  induction observations using List.reverseRecOn with
  | nil => simp [standing]
  | append_singleton observations o ih =>
    rw [mem_standing_append, ih]
    constructor
    · rintro (⟨⟨i, hi, hvouched, hlater⟩, ho⟩ | ⟨rfl, hvouched⟩)
      · have hlt := (List.getElem?_eq_some_iff.mp hi).1
        refine ⟨i, by rwa [List.getElem?_append_left hlt], hvouched, ?_⟩
        intro j q hj hq
        rcases Nat.lt_or_ge j observations.length with hjlt | hjge
        · exact hlater j q hj (by rwa [List.getElem?_append_left hjlt] at hq)
        · rw [List.getElem?_append_right hjge] at hq
          obtain rfl := List.mem_singleton.mp (List.mem_of_getElem? hq)
          exact ho
      · refine ⟨observations.length, by simp, hvouched, ?_⟩
        intro j q hj hq
        rw [List.getElem?_eq_none (by simp; omega)] at hq
        cases hq
    · rintro ⟨i, hi, hvouched, hlater⟩
      rcases Nat.lt_or_ge i observations.length with hlt | hge
      · rw [List.getElem?_append_left hlt] at hi
        refine .inl ⟨⟨i, hi, hvouched, ?_⟩, hlater observations.length o hlt (by simp)⟩
        intro j q hj hq
        have hjlt := (List.getElem?_eq_some_iff.mp hq).1
        exact hlater j q hj (by rwa [List.getElem?_append_left hjlt])
      · rw [List.getElem?_append_right hge] at hi
        obtain rfl := List.mem_singleton.mp (List.mem_of_getElem? hi)
        exact .inr ⟨rfl, hvouched⟩

/-- What the record says after some observations: blank when none of them stands, else what those
of the greatest position vouch for. -/
def Holds (dir : BindingsDir C) (identity : IdentityId) (headEvent : Nat → EventId)
    (kept : List (Observation C)) : Prop :=
  (kept = [] ∧ Blank dir identity) ∨
    ∃ seq, (∃ p ∈ kept, p.headSeq = seq) ∧ (∀ p ∈ kept, p.headSeq ≤ seq) ∧
      Derives dir identity headEvent seq fun endpoint =>
        ∃ p ∈ kept, p.headSeq = seq ∧ endpoint ∈ p.vouched

/-- Only what is named matters for the derivation. -/
theorem Derives.congr {dir : BindingsDir C} {identity : IdentityId} {headEvent : Nat → EventId}
    {seq : Nat} {named named' : EndpointId C → Prop} (h : Derives dir identity headEvent seq named)
    (hnamed : ∀ endpoint, named endpoint ↔ named' endpoint) :
    Derives dir identity headEvent seq named' := by
  rwa [show named' = named from funext fun endpoint => propext (hnamed endpoint).symm]

/-- The observation just made is the only one that stands. -/
theorem holds_alone {dir : BindingsDir C} {identity : IdentityId} {headEvent : Nat → EventId}
    {o : Observation C}
    (h : (o.vouched = [] → Blank dir identity) ∧
      (o.vouched ≠ [] → Derives dir identity headEvent o.headSeq (· ∈ o.vouched))) :
    Holds dir identity headEvent (if o.vouched = [] then [] else [o]) := by
  by_cases hvouched : o.vouched = []
  · rw [if_pos hvouched]
    exact .inl ⟨rfl, h.1 hvouched⟩
  · rw [if_neg hvouched]
    refine .inr ⟨o.headSeq, ⟨o, by simp, rfl⟩, by simp, (h.2 hvouched).congr fun endpoint => ?_⟩
    simp

/-- The records made from observations hold what stands. -/
theorem holds_recordAll {identity : IdentityId} {headEvent : Nat → EventId}
    {observations : List (Observation C)} (hall : ∀ o ∈ observations, o.Of identity headEvent) :
    Holds (BindingsDir.recordAll .empty observations) identity headEvent
      (standing observations) := by
  induction observations using List.reverseRecOn with
  | nil => exact .inl ⟨rfl, fun bindings h => by simp [BindingsDir.recordAll] at h⟩
  | append_singleton observations o ih =>
    have ho : o.Of identity headEvent := hall o (by simp)
    have hrecord : BindingsDir.recordAll .empty (observations ++ [o]) =
        ((BindingsDir.recordAll .empty observations).record o).2 := by
      simp [BindingsDir.recordAll, List.foldl_append]
    rw [hrecord, standing_append]
    rcases ih fun p hp => hall p (List.mem_append_left _ hp) with
      ⟨hnone, hblank⟩ | ⟨seq, ⟨first, hfirst, hfirstSeq⟩, hmax, hderives⟩
    · rw [hnone]
      exact holds_alone (hblank.record ho)
    · rcases lt_trichotomy o.headSeq seq with hlt | heq | hgt
      · -- A shorter chain changes nothing, and what stands at the greatest position stays.
        rw [hderives.record_shorter ho hlt]
        refine .inr ⟨seq, ⟨first, ?_, hfirstSeq⟩, ?_, hderives.congr fun endpoint => ?_⟩
        · simp only [List.mem_append, List.mem_filter, decide_eq_true_iff]
          exact .inl ⟨hfirst, by omega⟩
        · intro p hp
          rw [← standing_append, mem_standing_append] at hp
          rcases hp with ⟨hp, -⟩ | ⟨rfl, -⟩
          · exact hmax p hp
          · exact hlt.le
        · rw [← standing_append]
          constructor
          · rintro ⟨p, hp, rfl, hmem⟩
            exact ⟨p, mem_standing_append.mpr (.inl ⟨hp, hlt.le⟩), rfl, hmem⟩
          · rintro ⟨p, hp, rfl, hmem⟩
            rcases mem_standing_append.mp hp with ⟨hp, -⟩ | ⟨rfl, -⟩
            · exact ⟨p, hp, rfl, hmem⟩
            · exact absurd hlt (lt_irrefl _)
      · subst heq
        refine .inr ⟨o.headSeq, ⟨first, ?_, hfirstSeq⟩, ?_,
          (hderives.record_same ho).congr fun endpoint => ?_⟩
        · rw [← standing_append]
          exact mem_standing_append.mpr (.inl ⟨hfirst, hfirstSeq.ge⟩)
        · intro p hp
          rw [← standing_append, mem_standing_append] at hp
          rcases hp with ⟨hp, -⟩ | ⟨rfl, -⟩
          · exact hmax p hp
          · exact le_rfl
        · rw [← standing_append]
          constructor
          · rintro (hmem | ⟨p, hp, hseq, hmem⟩)
            · exact ⟨o, mem_standing_append.mpr (.inr ⟨rfl, List.ne_nil_of_mem hmem⟩), rfl, hmem⟩
            · exact ⟨p, mem_standing_append.mpr (.inl ⟨hp, hseq.ge⟩), hseq, hmem⟩
          · rintro ⟨p, hp, hseq, hmem⟩
            rcases mem_standing_append.mp hp with ⟨hp, -⟩ | ⟨rfl, -⟩
            · exact .inr ⟨p, hp, hseq, hmem⟩
            · exact .inl hmem
      · -- Nothing that stood is as long as the new chain.
        have hnone : (standing observations).filter (fun p => decide (o.headSeq ≤ p.headSeq)) = [] := by
          rw [List.filter_eq_nil_iff]
          intro p hp
          have := hmax p hp
          simp only [decide_eq_true_iff]
          omega
        rw [hnone]
        exact holds_alone (hderives.record_longer ho hgt)

/-- An endpoint is verified exactly when an observation that stands at the greatest position
vouches for it. -/
theorem verified_iff {identity : IdentityId} {headEvent : Nat → EventId}
    {observations : List (Observation C)} (hall : ∀ o ∈ observations, o.Of identity headEvent)
    {endpoint : EndpointId C} :
    (BindingsDir.recordAll .empty observations).binding identity endpoint = .verified ↔
      ∃ p ∈ standing observations, (∀ q ∈ standing observations, q.headSeq ≤ p.headSeq) ∧
        endpoint ∈ p.vouched := by
  rw [binding_eq_verified]
  rcases holds_recordAll hall with ⟨hnone, hblank⟩ | ⟨seq, ⟨first, hfirst, hseq⟩, hmax, hderives⟩
  · constructor
    · rintro ⟨bindings, hget, bound, hbound, -⟩
      rw [hblank bindings hget] at hbound
      simp at hbound
    · rintro ⟨p, hp, -⟩
      rw [hnone] at hp
      simp at hp
  · obtain ⟨bindings, hget, -, -, hnames⟩ := hderives.file
    constructor
    · rintro ⟨stored, hstored, hnamed⟩
      obtain rfl := Option.some.inj (hget.symm.trans hstored)
      obtain ⟨p, hp, rfl, hmem⟩ := (hnames endpoint).mp hnamed
      exact ⟨p, hp, hmax, hmem⟩
    · rintro ⟨p, hp, hgreatest, hmem⟩
      have hpseq : p.headSeq = seq := le_antisymm (hmax p hp) (hseq ▸ hgreatest first hfirst)
      exact ⟨bindings, hget, (hnames endpoint).mpr ⟨p, hp, hpseq, hmem⟩⟩

/-- No observed chain is longer. -/
def Longest (observations : List (Observation C)) (o : Observation C) : Prop :=
  o ∈ observations ∧ ∀ p ∈ observations, p.headSeq ≤ o.headSeq

/-- The longest observation stands where it vouches. -/
theorem Longest.standing {observations : List (Observation C)} {o : Observation C}
    (h : Longest observations o) (hvouched : o.vouched ≠ []) : o ∈ standing observations := by
  obtain ⟨i, hi⟩ := List.mem_iff_getElem?.mp h.1
  exact mem_standing.mpr ⟨i, hi, hvouched, fun j p _ hp => h.2 p (List.mem_of_getElem? hp)⟩

/-- What stands was observed and vouches. -/
theorem mem_of_standing {observations : List (Observation C)} {o : Observation C}
    (h : o ∈ standing observations) : o ∈ observations ∧ o.vouched ≠ [] := by
  obtain ⟨i, hi, hvouched, -⟩ := mem_standing.mp h
  exact ⟨List.mem_of_getElem? hi, hvouched⟩

/-- Some observation has the longest head. -/
theorem exists_greatest {kept : List (Observation C)} (h : kept ≠ []) :
    ∃ p ∈ kept, ∀ q ∈ kept, q.headSeq ≤ p.headSeq := by
  induction kept with
  | nil => exact absurd rfl h
  | cons p kept ih =>
    by_cases hnil : kept = []
    · exact ⟨p, by simp, by simp [hnil]⟩
    · obtain ⟨q, hq, hmax⟩ := ih hnil
      rcases le_total p.headSeq q.headSeq with hle | hle
      · refine ⟨q, List.mem_cons_of_mem _ hq, ?_⟩
        rintro r hr
        rcases List.mem_cons.mp hr with rfl | hr
        · exact hle
        · exact hmax r hr
      · refine ⟨p, List.mem_cons_self, ?_⟩
        rintro r hr
        rcases List.mem_cons.mp hr with rfl | hr
        · exact le_rfl
        · exact (hmax r hr).trans hle

/-- After observations, in any order, of chains that are prefixes of one chain, the verified
endpoints are those the longest one advertises and some source other than the endpoint served,
exactly when an observation of the longest chain vouches for something or every observation that
does is followed by a longer chain. -/
theorem bindings_follow_longest (identity : IdentityId) (headEvent : Nat → EventId)
    (advertised : Nat → List (EndpointId C)) (observations : List (Observation C))
    (hall : ∀ o ∈ observations, o.identity = identity ∧ o.mayBind = true ∧
      o.headEvent = headEvent o.headSeq ∧ o.endpoints = advertised o.headSeq) :
    (∀ endpoint : EndpointId C,
      (BindingsDir.recordAll .empty observations).binding identity endpoint = .verified ↔
        ∃ o, Longest observations o ∧ endpoint ∈ o.endpoints ∧
          ∃ p ∈ observations, p.headSeq = o.headSeq ∧ p.source ≠ endpoint) ↔
      (∃ o, Longest observations o ∧ o.vouched ≠ []) ∨
        ∀ (i : Nat) o, observations[i]? = some o → o.vouched ≠ [] →
          ∃ (j : Nat) (p : Observation C), i < j ∧ observations[j]? = some p ∧
            o.headSeq < p.headSeq := by
  have hof : ∀ o ∈ observations, o.Of identity headEvent := by
    intro o ho
    obtain ⟨hidentity, hbinds, hevent, -⟩ := hall o ho
    exact ⟨hidentity, hbinds, hevent⟩
  -- The right side of the inner equivalence, said of one observation.
  have hlongest : ∀ endpoint : EndpointId C, (∃ o, Longest observations o ∧ endpoint ∈ o.endpoints ∧
      ∃ p ∈ observations, p.headSeq = o.headSeq ∧ p.source ≠ endpoint) ↔
      ∃ p, Longest observations p ∧ endpoint ∈ p.vouched := by
    intro endpoint
    constructor
    · rintro ⟨o, ho, hmem, p, hp, hseq, hsource⟩
      refine ⟨p, ⟨hp, fun q hq => hseq ▸ ho.2 q hq⟩, ?_⟩
      rw [(mem_vouched (hall p hp).2.1), (hall p hp).2.2.2, hseq, ← (hall o ho.1).2.2.2]
      exact ⟨hmem, hsource⟩
    · rintro ⟨p, hp, hmem⟩
      obtain ⟨hmem, hsource⟩ := (mem_vouched (hall p hp.1).2.1).mp hmem
      exact ⟨p, hp, hmem, p, hp.1, rfl, hsource⟩
  have hfollowed : (∀ (i : Nat) o, observations[i]? = some o → o.vouched ≠ [] →
      ∃ (j : Nat) (p : Observation C), i < j ∧ observations[j]? = some p ∧
        o.headSeq < p.headSeq) ↔ standing observations = [] := by
    rw [List.eq_nil_iff_forall_not_mem]
    constructor
    · intro h o ho
      obtain ⟨i, hi, hvouched, hlater⟩ := mem_standing.mp ho
      obtain ⟨j, p, hj, hp, hlt⟩ := h i o hi hvouched
      exact absurd (hlater j p hj hp) (not_le.mpr hlt)
    · intro h i o hi hvouched
      by_contra hnone
      push Not at hnone
      exact h o (mem_standing.mpr ⟨i, hi, hvouched, hnone⟩)
  simp only [hlongest, hfollowed, verified_iff hof]
  constructor
  · intro h
    by_contra hneither
    obtain ⟨hvouches, hstands⟩ := not_or.mp hneither
    obtain ⟨p, hp, hgreatest⟩ := exists_greatest hstands
    obtain ⟨endpoint, hendpoint⟩ := List.exists_mem_of_ne_nil _ (mem_of_standing hp).2
    obtain ⟨o, ho, hmem⟩ := (h endpoint).mp ⟨p, hp, hgreatest, hendpoint⟩
    exact hvouches ⟨o, ho, List.ne_nil_of_mem hmem⟩
  · rintro (⟨top, htop, hvouches⟩ | hnone) endpoint
    · constructor
      · rintro ⟨p, hp, hgreatest, hmem⟩
        have hle := hgreatest top (htop.standing hvouches)
        exact ⟨p, ⟨(mem_of_standing hp).1, fun q hq => (htop.2 q hq).trans hle⟩, hmem⟩
      · rintro ⟨p, hp, hmem⟩
        exact ⟨p, hp.standing (List.ne_nil_of_mem hmem),
          fun q hq => hp.2 q (mem_of_standing hq).1, hmem⟩
    · constructor
      · rintro ⟨p, hp, -⟩
        simp [hnone] at hp
      · rintro ⟨p, hp, hmem⟩
        have := hp.standing (List.ne_nil_of_mem hmem)
        simp [hnone] at this

/-! ## A retired endpoint -/

/-- A sample witness. -/
def sampleWitnessId : IdentityId := ⟨.ofNat idBytes 1⟩

/-- The events of the sample chain. -/
def sampleHeadEvent (seq : Nat) : EventId := ⟨.ofNat idBytes seq⟩

/-- The sample chain advertised endpoint 7 up to position 41 and endpoint 8 from then on. -/
def sampleAdvertised (seq : Nat) : List (EndpointId Crypto.sample) :=
  [(SecretKey.sample (if seq ≤ 41 then 7 else 8)).publicKey]

/-- A prefix of the sample chain, as an endpoint served it. -/
def sampleObserved (headSeq source : Nat) : Observation Crypto.sample where
  identity := sampleWitnessId
  headSeq := headSeq
  headEvent := sampleHeadEvent headSeq
  endpoints := sampleAdvertised headSeq
  source := (SecretKey.sample source).publicKey
  observedMs := 0
  mayBind := true

/-- Two observations, the later one longer, meet the hypotheses. -/
theorem bindings_follow_longest_sampleObserved :
    Longest [sampleObserved 41 8, sampleObserved 42 9] (sampleObserved 42 9) ∧
    ∀ endpoint, (BindingsDir.recordAll .empty [sampleObserved 41 8, sampleObserved 42 9]).binding
      sampleWitnessId endpoint = .verified ↔
        ∃ o, Longest [sampleObserved 41 8, sampleObserved 42 9] o ∧ endpoint ∈ o.endpoints ∧
          ∃ p ∈ [sampleObserved 41 8, sampleObserved 42 9],
            p.headSeq = o.headSeq ∧ p.source ≠ endpoint := by
  have hlongest : Longest [sampleObserved 41 8, sampleObserved 42 9] (sampleObserved 42 9) :=
    ⟨by simp, by simp [sampleObserved]⟩
  refine ⟨hlongest, ?_⟩
  refine (bindings_follow_longest sampleWitnessId sampleHeadEvent sampleAdvertised _ ?_).mpr
    (.inl ⟨sampleObserved 42 9, hlongest, by decide +kernel⟩)
  intro o ho
  rcases List.mem_pair.mp ho with rfl | rfl <;> exact ⟨rfl, rfl, rfl, rfl⟩

/-- The longer chain is served by the one endpoint it advertises, so it leaves a record with no
entry, and a shorter one served again verifies the retired endpoint. -/
theorem retired_endpoint_verified :
    let observations := [sampleObserved 41 8, sampleObserved 42 8, sampleObserved 41 8]
    (∀ o ∈ observations, o.identity = sampleWitnessId ∧ o.mayBind = true ∧
      o.headEvent = sampleHeadEvent o.headSeq ∧ o.endpoints = sampleAdvertised o.headSeq) ∧
    (BindingsDir.recordAll .empty observations).binding sampleWitnessId
      (SecretKey.sample 7).publicKey = .verified ∧
    ∀ o, Longest observations o → (SecretKey.sample 7).publicKey ∉ o.endpoints := by
  refine ⟨by decide +kernel, by decide +kernel, ?_⟩
  rintro o ⟨hmem, hmax⟩
  have hseq : 42 ≤ o.headSeq := hmax (sampleObserved 42 8) (by simp)
  have hnotLonger : (sampleObserved 41 8).headSeq = 41 := rfl
  simp only [List.mem_cons, List.not_mem_nil, or_false] at hmem
  rcases hmem with rfl | rfl | rfl
  · omega
  · decide +kernel
  · omega

end Mabel.Node
