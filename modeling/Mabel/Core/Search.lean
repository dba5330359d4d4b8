import Mabel.Core.SortedMap
import Mathlib.Data.Finset.Card
import Mathlib.Data.Nat.Find
import Mathlib.Data.Set.Basic

/-!
# Distances and breadth-first search

The distance of a vertex from a set is the number of steps a relation takes to it at the least. A
search that visits one level after another records exactly the distances, in as many rounds as
there are vertices to find. A walk that labels level after level, and may stop in the middle of
one, has labelled what it saw with the distances over what it saw.
-/

namespace Search

variable {α : Type}

/-! ## Distances -/

/-- A number of steps leads from some start to a vertex. -/
inductive Steps (R : α → α → Prop) (S : Set α) : Nat → α → Prop where
  | start {a : α} (h : a ∈ S) : Steps R S 0 a
  | step {n : Nat} {a b : α} (h : Steps R S n a) (hab : R a b) : Steps R S (n + 1) b

/-- The least number of steps that leads to a vertex. -/
structure IsDist (R : α → α → Prop) (S : Set α) (a : α) (n : Nat) : Prop where
  steps : Steps R S n a
  least : ∀ m, Steps R S m a → n ≤ m

section Distances

variable {R : α → α → Prop} {S : Set α} {a b : α} {n m : Nat}

theorem IsDist.unique (h : IsDist R S a n) (h' : IsDist R S a m) : n = m :=
  Nat.le_antisymm (h.least m h'.steps) (h'.least n h.steps)

/-- What is reached in some steps has a distance of at most as many. -/
theorem Steps.exists_dist (h : Steps R S n a) : ∃ m ≤ n, IsDist R S a m := by
  classical
  have hex : ∃ n, Steps R S n a := ⟨n, h⟩
  exact ⟨Nat.find hex, Nat.find_min' hex h, Nat.find_spec hex, fun _ => Nat.find_min' hex⟩

@[simp] theorem isDist_zero : IsDist R S a 0 ↔ a ∈ S := by
  constructor
  · intro h
    cases h.steps with
    | start h => exact h
  · exact fun h => ⟨.start h, fun _ _ => Nat.zero_le _⟩

/-- A vertex at a positive distance has one before it at the distance before. -/
theorem IsDist.pred (h : IsDist R S b (n + 1)) : ∃ a, IsDist R S a n ∧ R a b := by
  cases h.steps with
  | @step _ a _ hsteps hab =>
    refine ⟨a, ⟨hsteps, fun m hm => ?_⟩, hab⟩
    exact Nat.le_of_succ_le_succ (h.least (m + 1) (hm.step hab))

/-- Distances grow by at most one along a step. -/
theorem IsDist.le_succ (ha : IsDist R S a n) (hab : R a b) (hb : IsDist R S b m) : m ≤ n + 1 :=
  hb.least _ (ha.steps.step hab)

/-- The next distance is that of the steps from this one to vertices without a smaller one. -/
theorem isDist_succ : IsDist R S b (n + 1) ↔
    (∃ a, IsDist R S a n ∧ R a b) ∧ ∀ m ≤ n, ¬ IsDist R S b m := by
  constructor
  · intro h
    refine ⟨h.pred, fun m hm hb => ?_⟩
    have := h.unique hb
    omega
  · rintro ⟨⟨a, ha, hab⟩, hnone⟩
    obtain ⟨m, hm, hb⟩ := (ha.steps.step hab).exists_dist
    have : ¬ m ≤ n := fun hle => hnone m hle hb
    obtain rfl : m = n + 1 := by omega
    exact hb

/-- Every smaller distance is some vertex's. -/
theorem IsDist.exists_of_le (h : IsDist R S a n) (hm : m ≤ n) : ∃ b, IsDist R S b m := by
  induction n generalizing a with
  | zero => exact ⟨a, (Nat.le_zero.mp hm) ▸ h⟩
  | succ n ih =>
    rcases Nat.eq_or_lt_of_le hm with rfl | hlt
    · exact ⟨a, h⟩
    · obtain ⟨b, hb, -⟩ := h.pred
      exact ih hb (Nat.le_of_lt_succ hlt)

/-- A distance is less than the number of vertices. -/
theorem IsDist.lt_card (U : Finset α) (hU : ∀ a n, IsDist R S a n → a ∈ U)
    (h : IsDist R S a n) : n < U.card := by
  classical
  have : Nonempty α := ⟨a⟩
  choose! vertex hvertex using fun m (hm : m ≤ n) => h.exists_of_le hm
  have hinjective : Set.InjOn vertex (Finset.range (n + 1)) := by
    intro i hi j hj hij
    have hi := hvertex i (Nat.lt_succ_iff.mp (Finset.mem_range.mp hi))
    have hj := hvertex j (Nat.lt_succ_iff.mp (Finset.mem_range.mp hj))
    exact hi.unique (hij ▸ hj)
  have hcard := Finset.card_le_card_of_injOn vertex (fun i hi =>
    hU _ i (hvertex i (Nat.lt_succ_iff.mp (Finset.mem_range.mp hi)))) hinjective
  rw [Finset.card_range] at hcard
  omega

/-- A labelling of what a relation steps between is the distance when it starts at 0, has a step
behind every other label and grows by at most one along every step. -/
theorem isDist_of_labels {label : α → Option Nat} (hstart : ∀ a, label a = some 0 → a ∈ S)
    (hzero : ∀ a ∈ S, ∀ n, label a = some n → n = 0)
    (hpred : ∀ b n, label b = some (n + 1) → ∃ a, label a = some n ∧ R a b)
    (hstep : ∀ a b n m, label a = some n → R a b → label b = some m → m ≤ n + 1)
    (hedge : ∀ a b, R a b → (label a).isSome ∧ (label b).isSome) (h : label a = some n) :
    IsDist R S a n := by
  have hsteps : ∀ n a, label a = some n → Steps R S n a := by
    intro n
    induction n with
    | zero => exact fun a ha => .start (hstart a ha)
    | succ n ih =>
      intro b hb
      obtain ⟨a, ha, hab⟩ := hpred b n hb
      exact (ih a ha).step hab
  have hleast : ∀ m a, Steps R S m a → ∀ n, label a = some n → n ≤ m := by
    intro m a hm
    induction hm with
    | @start a ha => exact fun n hn => (hzero a ha n hn).le
    | @step m a b _ hab ih =>
      intro k hk
      obtain ⟨n, hn⟩ := Option.isSome_iff_exists.mp (hedge a b hab).1
      exact (hstep a b n k hn hab hk).trans (Nat.succ_le_succ (ih n hn))
  exact ⟨hsteps n a h, fun m hm => hleast m a hm n h⟩

/-- Nothing but itself is reached from where no step leads on. -/
theorem Steps.eq_of_stuck (h : Steps R {a} n b) (hstuck : ∀ c, ¬ R a c) : b = a := by
  induction h with
  | start h => exact h
  | step _ hstep ih => exact absurd (ih ▸ hstep) (hstuck _)

/-- Steps between the images of an injection are the images of steps. -/
theorem steps_image {β : Type} {f : α → β} {R' : β → β → Prop}
    (hR : ∀ x y, R' x y ↔ ∃ a b, x = f a ∧ y = f b ∧ R a b) (hf : Function.Injective f)
    {y : β} : Steps R' (f '' S) n y ↔ ∃ b, y = f b ∧ Steps R S n b := by
  constructor
  · intro h
    induction h with
    | start h =>
      obtain ⟨a, ha, rfl⟩ := h
      exact ⟨a, rfl, .start ha⟩
    | step _ hstep ih =>
      obtain ⟨a, rfl, ha⟩ := ih
      obtain ⟨a', b, haa, rfl, hab⟩ := (hR _ _).mp hstep
      exact ⟨b, rfl, ha.step (hf haa ▸ hab)⟩
  · rintro ⟨b, rfl, h⟩
    induction h with
    | start h => exact .start ⟨_, h, rfl⟩
    | step _ hab ih => exact ih.step ((hR _ _).mpr ⟨_, _, rfl, rfl, hab⟩)

/-- Renaming the nodes keeps distances. -/
theorem isDist_image {β : Type} {f : α → β} {R' : β → β → Prop}
    (hR : ∀ x y, R' x y ↔ ∃ a b, x = f a ∧ y = f b ∧ R a b) (hf : Function.Injective f) :
    IsDist R' (f '' S) (f a) n ↔ IsDist R S a n := by
  have hsteps : ∀ m, Steps R' (f '' S) m (f a) ↔ Steps R S m a := by
    intro m
    rw [steps_image hR hf]
    constructor
    · rintro ⟨b, hb, h⟩
      exact hf hb ▸ h
    · exact fun h => ⟨a, rfl, h⟩
  constructor
  · exact fun h => ⟨(hsteps n).mp h.steps, fun m hm => h.least m ((hsteps m).mpr hm)⟩
  · exact fun h => ⟨(hsteps n).mpr h.steps, fun m hm => h.least m ((hsteps m).mp hm)⟩

/-- Steps read backwards. -/
theorem Steps.swap {a b : α} (h : Steps R {a} n b) : Steps (fun x y => R y x) {b} n a := by
  have hcons : ∀ {R : α → α → Prop} {a b : α}, R a b → ∀ {n : Nat} {c : α}, Steps R {b} n c →
      Steps R {a} (n + 1) c := by
    intro R a b hab n c hsteps
    induction hsteps with
    | start hc =>
      obtain rfl := hc
      exact .step (.start rfl) hab
    | step _ hcd ih => exact ih.step hcd
  induction h with
  | start hb =>
    obtain rfl := hb
    exact .start rfl
  | @step n b c _ hbc ih => exact @hcons (fun x y => R y x) c b hbc n _ ih

/-- The distance against the edges is the distance from the other end. -/
theorem isDist_swap {a b : α} : IsDist (fun x y => R y x) {b} a n ↔ IsDist R {a} b n := by
  constructor
  · exact fun h => ⟨h.steps.swap, fun m hm => h.least m hm.swap⟩
  · exact fun h => ⟨h.steps.swap, fun m hm => h.least m hm.swap⟩

end Distances

/-! ## Walking by levels -/

/-- What is known when a level is being labelled. The relation is known for what has a label. -/
structure Explored (R : α → α → Prop) (S : Set α) (depth : Nat) (label : α → Option Nat) :
    Prop where
  /-- A label is a level that was reached. -/
  le : ∀ a n, label a = some n → n ≤ depth
  start : ∀ a, label a = some 0 → a ∈ S
  zero : ∀ a ∈ S, ∀ n, label a = some n → n = 0
  pred : ∀ b n, label b = some (n + 1) → ∃ a, label a = some n ∧ R a b
  step : ∀ a b n m, label a = some n → R a b → label b = some m → m ≤ n + 1
  known : ∀ a b, R a b → (label a).isSome
  /-- Earlier levels are complete. -/
  starts : 0 < depth → ∀ a ∈ S, (label a).isSome
  earlier : ∀ a b n, label a = some n → n + 1 < depth → R a b → (label b).isSome

/-- What belongs to a level and has no label. -/
structure Pending (R : α → α → Prop) (S : Set α) (depth : Nat) (label : α → Option Nat) (a : α) :
    Prop where
  none : label a = none
  reached : (depth = 0 ∧ a ∈ S) ∨ ∃ n c, depth = n + 1 ∧ label c = some n ∧ R c a

section Levels

variable {R R' : α → α → Prop} {S : Set α} {depth : Nat} {label label' : α → Option Nat} {v : α}

theorem explored_start : Explored (fun _ _ : α => False) S 0 fun _ => none := by
  constructor <;> simp

/-- Labelling what is pending keeps what is known. -/
theorem Explored.insert [DecidableEq α] (h : Explored R S depth label)
    (hv : Pending R S depth label v)
    (hlabel : ∀ a, label' a = if a = v then some depth else label a)
    (hR : ∀ a b, a ≠ v → (R' a b ↔ R a b)) : Explored R' S depth label' := by
  have hnew : label' v = some depth := by rw [hlabel, if_pos rfl]
  have hold : ∀ {a n}, label a = some n → a ≠ v ∧ label' a = some n := by
    intro a n ha
    have hne : a ≠ v := by
      rintro rfl
      simp [hv.none] at ha
    exact ⟨hne, by rw [hlabel, if_neg hne, ha]⟩
  have hsome : ∀ {a}, (label a).isSome → (label' a).isSome := by
    intro a ha
    obtain ⟨n, hn⟩ := Option.isSome_iff_exists.mp ha
    simp [(hold hn).2]
  have hcases : ∀ {a n}, label' a = some n → (a = v ∧ n = depth) ∨ (a ≠ v ∧ label a = some n) := by
    intro a n ha
    rw [hlabel] at ha
    split_ifs at ha with hav
    · exact .inl ⟨hav, (Option.some.inj ha).symm⟩
    · exact .inr ⟨hav, ha⟩
  constructor
  · intro a n ha
    rcases hcases ha with ⟨-, rfl⟩ | ⟨-, ha⟩
    · exact le_rfl
    · exact h.le a n ha
  · intro a ha
    rcases hcases ha with ⟨rfl, rfl⟩ | ⟨-, ha⟩
    · rcases hv.reached with ⟨-, hstart⟩ | ⟨n, -, hn, -⟩
      · exact hstart
      · exact absurd hn (by omega)
    · exact h.start a ha
  · intro a hstart n ha
    rcases hcases ha with ⟨rfl, rfl⟩ | ⟨-, ha⟩
    · by_contra hn
      have := h.starts (Nat.pos_of_ne_zero hn) a hstart
      simp [hv.none] at this
    · exact h.zero a hstart n ha
  · intro b n hb
    rcases hcases hb with ⟨rfl, hn⟩ | ⟨-, hb⟩
    · rcases hv.reached with ⟨hzero, -⟩ | ⟨k, c, hk, hc, hcb⟩
      · omega
      · obtain rfl : k = n := by omega
        exact ⟨c, (hold hc).2, (hR c b (hold hc).1).mpr hcb⟩
    · obtain ⟨a, ha, hab⟩ := h.pred b n hb
      exact ⟨a, (hold ha).2, (hR a b (hold ha).1).mpr hab⟩
  · intro a b n m ha hab hb
    rcases hcases ha with ⟨rfl, rfl⟩ | ⟨hne, ha⟩
    · rcases hcases hb with ⟨-, rfl⟩ | ⟨-, hb⟩
      · omega
      · exact (h.le b m hb).trans (Nat.le_succ n)
    · have hab := (hR a b hne).mp hab
      rcases hcases hb with ⟨rfl, rfl⟩ | ⟨-, hb⟩
      -- A level before the one before would have labelled the vertex already.
      · by_contra hlt
        have := h.earlier a b n ha (by omega) hab
        simp [hv.none] at this
      · exact h.step a b n m ha hab hb
  · intro a b hab
    by_cases hav : a = v
    · simp [hav, hnew]
    · exact hsome (h.known a b ((hR a b hav).mp hab))
  · exact fun hpos a ha => hsome (h.starts hpos a ha)
  · intro a b n ha hlt hab
    rcases hcases ha with ⟨rfl, rfl⟩ | ⟨hne, ha⟩
    · omega
    · exact hsome (h.earlier a b n ha hlt ((hR a b hne).mp hab))

/-- What is pending then is what was pending, without what was labelled. -/
theorem pending_insert [DecidableEq α] (hv : Pending R S depth label v)
    (hlabel : ∀ a, label' a = if a = v then some depth else label a)
    (hR : ∀ a b, a ≠ v → (R' a b ↔ R a b)) (a : α) :
    Pending R' S depth label' a ↔ Pending R S depth label a ∧ a ≠ v := by
  have hbefore : ∀ n c, depth = n + 1 → (label' c = some n ↔ label c = some n) := by
    intro n c hn
    rw [hlabel]
    split_ifs with hc
    · rw [hc, hv.none, Option.some.injEq]
      simp only [reduceCtorEq, iff_false]
      omega
    · rfl
  have hreached : (∃ n c, depth = n + 1 ∧ label' c = some n ∧ R' c a) ↔
      ∃ n c, depth = n + 1 ∧ label c = some n ∧ R c a := by
    refine exists_congr fun n => exists_congr fun c => and_congr_right fun hn => ?_
    rw [hbefore n c hn]
    refine and_congr_right fun hc => hR c a ?_
    rintro rfl
    simp [hv.none] at hc
  constructor
  · rintro ⟨hnone, hcase⟩
    rw [hlabel] at hnone
    split_ifs at hnone with hav
    exact ⟨⟨hnone, hcase.imp_right hreached.mp⟩, hav⟩
  · rintro ⟨⟨hnone, hcase⟩, hav⟩
    exact ⟨by rw [hlabel, if_neg hav, hnone], hcase.imp_right hreached.mpr⟩

/-- When nothing is pending the next level begins. -/
theorem Explored.next_depth (h : Explored R S depth label)
    (hnone : ∀ a, ¬ Pending R S depth label a) : Explored R S (depth + 1) label := by
  refine ⟨fun a n ha => (h.le a n ha).trans (Nat.le_succ _), h.start, h.zero, h.pred, h.step,
    h.known, fun _ a ha => ?_, fun a b n ha hlt hab => ?_⟩
  · rcases Nat.eq_zero_or_pos depth with hzero | hpos
    · by_contra hlabel
      exact hnone a ⟨by simpa using hlabel, .inl ⟨hzero, ha⟩⟩
    · exact h.starts hpos a ha
  · rcases Nat.lt_or_ge (n + 1) depth with hlt' | hge
    · exact h.earlier a b n ha hlt' hab
    · by_contra hlabel
      exact hnone b ⟨by simpa using hlabel, .inr ⟨n, a, by omega, ha, hab⟩⟩

/-- Everything the walk could reach has a label. -/
structure Closed (R : α → α → Prop) (S : Set α) (label : α → Option Nat) : Prop where
  starts : ∀ a ∈ S, (label a).isSome
  steps : ∀ a b, R a b → (label b).isSome

/-- Where every edge was followed nothing is left to visit. -/
theorem Closed.not_pending (h : Closed R S label) (depth : Nat) (a : α) :
    ¬ Pending R S depth label a := by
  rintro ⟨hnone, ⟨-, hstart⟩ | ⟨n, c, -, -, hca⟩⟩
  · simpa [hnone] using h.starts a hstart
  · simpa [hnone] using h.steps c a hca

/-- At the start of a level, a walk is complete just when nothing is pending. -/
theorem Explored.closed_iff (h : Explored R S depth label)
    (hlt : ∀ a n, label a = some n → n < depth) :
    Closed R S label ↔ ∀ a, ¬ Pending R S depth label a := by
  refine ⟨fun hclosed a => hclosed.not_pending depth a, fun hnone => ?_⟩
  have hnext := h.next_depth hnone
  refine ⟨hnext.starts (Nat.succ_pos _), fun a b hab => ?_⟩
  obtain ⟨n, hn⟩ := Option.isSome_iff_exists.mp (h.known a b hab)
  exact hnext.earlier a b n hn (Nat.succ_lt_succ (hlt a n hn)) hab

/-- The labels are the distances over the steps to what has a label. -/
theorem Explored.isDist (h : Explored R S depth label) {a : α} {n : Nat}
    (ha : label a = some n) : IsDist (fun a b => R a b ∧ (label b).isSome) S a n := by
  refine isDist_of_labels h.start h.zero (fun b n hb => ?_)
    (fun a b n m ha hab hb => h.step a b n m ha hab.1 hb)
    (fun a b hab => ⟨h.known a b hab.1, hab.2⟩) ha
  obtain ⟨a, ha, hab⟩ := h.pred b n hb
  exact ⟨a, ha, hab, by simp [hb]⟩

end Levels

/-! ## The search -/

variable [LinearOrder α]

/-- Visit one neighbour, unless it was seen before. -/
def visit (depth : Nat) (found : SortedMap α Nat × List α) (a : α) : SortedMap α Nat × List α :=
  if (found.1.get? a).isSome then found else (found.1.insert a depth, found.2 ++ [a])

/-- Visit the neighbours of every vertex of a level. -/
def visitLevel (next : α → List α) (depth : Nat) (seen : SortedMap α Nat) (frontier : List α) :
    SortedMap α Nat × List α :=
  frontier.foldl (fun found a => (next a).foldl (visit depth) found) (seen, [])

/-- Visit level after level until one is empty, for at most a number of rounds. -/
def search (next : α → List α) : (rounds depth : Nat) → SortedMap α Nat → List α → SortedMap α Nat
  | 0, _, seen, _ => seen
  | rounds + 1, depth, seen, frontier =>
    if frontier.isEmpty then seen
    else
      let found := visitLevel next (depth + 1) seen frontier
      search next rounds (depth + 1) found.1 found.2

/-- The vertices a search finds from one, with their distances. -/
def distances (next : α → List α) (rounds : Nat) (start : α) : SortedMap α Nat :=
  search next rounds 0 (SortedMap.empty.insert start 0) [start]

section Search

variable {next : α → List α}

/-- Visiting neighbours labels those that have no label, and lists them. -/
theorem foldl_visit (depth : Nat) : ∀ (neighbours : List α) (found : SortedMap α Nat × List α),
    (∀ a n, (neighbours.foldl (visit depth) found).1.get? a = some n ↔
      found.1.get? a = some n ∨ (found.1.get? a = none ∧ a ∈ neighbours ∧ n = depth)) ∧
    ∀ a, a ∈ (neighbours.foldl (visit depth) found).2 ↔
      a ∈ found.2 ∨ (found.1.get? a = none ∧ a ∈ neighbours) := by
  intro neighbours
  induction neighbours with
  | nil => simp
  | cons b neighbours ih =>
    intro found
    obtain ⟨hget, hmem⟩ := ih (visit depth found b)
    rw [List.foldl_cons]
    by_cases hb : (found.1.get? b).isSome
    · have hvisit : visit depth found b = found := if_pos hb
      rw [hvisit] at hget hmem ⊢
      have hnot : ∀ a, found.1.get? a = none → a ≠ b := by
        rintro a ha rfl
        simp [ha] at hb
      refine ⟨fun a n => ?_, fun a => ?_⟩
      · rw [hget, List.mem_cons]
        refine or_congr_right (and_congr_right fun ha => ?_)
        simp [hnot a ha]
      · rw [hmem, List.mem_cons]
        refine or_congr_right (and_congr_right fun ha => ?_)
        simp [hnot a ha]
    · have hvisit : visit depth found b = (found.1.insert b depth, found.2 ++ [b]) := if_neg hb
      have hnone : found.1.get? b = none := by simpa using hb
      rw [hvisit] at hget hmem ⊢
      refine ⟨fun a n => ?_, fun a => ?_⟩
      · rw [hget]
        by_cases hab : a = b
        · subst hab
          simp [hnone, eq_comm]
        · simp [SortedMap.get?_insert, hab]
      · rw [hmem]
        by_cases hab : a = b
        · subst hab
          simp [hnone]
        · simp [SortedMap.get?_insert, hab]

/-- A level adds the unseen neighbours of the frontier, at one depth, and they are the next
frontier. -/
theorem visitLevel_spec (depth : Nat) (seen : SortedMap α Nat) (frontier : List α) :
    (∀ a n, (visitLevel next depth seen frontier).1.get? a = some n ↔ seen.get? a = some n ∨
      (seen.get? a = none ∧ (∃ b ∈ frontier, a ∈ next b) ∧ n = depth)) ∧
    ∀ a, a ∈ (visitLevel next depth seen frontier).2 ↔
      seen.get? a = none ∧ ∃ b ∈ frontier, a ∈ next b := by
  have hflat : visitLevel next depth seen frontier =
      (frontier.flatMap next).foldl (visit depth) (seen, []) := by
    rw [visitLevel, List.foldl_flatMap]
  obtain ⟨hget, hmem⟩ := foldl_visit depth (frontier.flatMap next) (seen, [])
  rw [hflat]
  refine ⟨fun a n => ?_, fun a => ?_⟩
  · simpa [List.mem_flatMap] using hget a n
  · simpa [List.mem_flatMap] using hmem a

/-- What was seen by the time a level is visited. -/
structure Level (next : α → List α) (S : Set α) (depth : Nat) (seen : SortedMap α Nat)
    (frontier : List α) : Prop where
  seen : ∀ a n, seen.get? a = some n ↔ n ≤ depth ∧ IsDist (fun a b => b ∈ next a) S a n
  frontier : ∀ a, a ∈ frontier ↔ IsDist (fun a b => b ∈ next a) S a depth

variable {S : Set α} {depth : Nat} {seen : SortedMap α Nat} {frontier : List α}

/-- One level of a search, whole. -/
theorem Level.next_level (h : Level next S depth seen frontier) :
    Level next S (depth + 1) (visitLevel next (depth + 1) seen frontier).1
      (visitLevel next (depth + 1) seen frontier).2 := by
  obtain ⟨hget, hmem⟩ := @visitLevel_spec α _ next (depth + 1) seen frontier
  have hnone : ∀ a, seen.get? a = none ↔
      ∀ n ≤ depth, ¬ IsDist (fun a b => b ∈ next a) S a n := by
    intro a
    rw [Option.eq_none_iff_forall_ne_some]
    simp only [ne_eq, h.seen, not_and]
  have hnew : ∀ a, (seen.get? a = none ∧ ∃ b ∈ frontier, a ∈ next b) ↔
      IsDist (fun a b => b ∈ next a) S a (depth + 1) := by
    intro a
    rw [isDist_succ, hnone, and_comm]
    simp only [h.frontier]
  refine ⟨fun a n => ?_, fun a => by rw [hmem, hnew]⟩
  rw [hget, h.seen, ← and_assoc, hnew]
  constructor
  · rintro (⟨hn, ha⟩ | ⟨ha, rfl⟩)
    · exact ⟨Nat.le_succ_of_le hn, ha⟩
    · exact ⟨le_rfl, ha⟩
  · rintro ⟨hn, ha⟩
    rcases Nat.eq_or_lt_of_le hn with rfl | hlt
    · exact .inr ⟨ha, rfl⟩
    · exact .inl ⟨Nat.le_of_lt_succ hlt, ha⟩

/-- A search that has as many rounds left as there are vertices records the distances. -/
theorem Level.search (U : Finset α)
    (hU : ∀ a n, IsDist (fun a b => b ∈ next a) S a n → a ∈ U) :
    ∀ {rounds depth : Nat} {seen : SortedMap α Nat} {frontier : List α},
      Level next S depth seen frontier → U.card ≤ rounds + depth →
      ∀ a n, (search next rounds depth seen frontier).get? a = some n ↔
        IsDist (fun a b => b ∈ next a) S a n := by
  have hdone : ∀ {depth : Nat} {seen : SortedMap α Nat} {frontier : List α},
      Level next S depth seen frontier →
      (∀ a, ¬ IsDist (fun a b => b ∈ next a) S a depth) →
      ∀ a n, seen.get? a = some n ↔ IsDist (fun a b => b ∈ next a) S a n := by
    intro depth seen frontier h hempty a n
    rw [h.seen, and_iff_right_iff_imp]
    intro ha
    by_contra hn
    obtain ⟨b, hb⟩ := ha.exists_of_le (Nat.le_of_not_le hn)
    exact hempty b hb
  intro rounds
  induction rounds with
  | zero =>
    intro depth seen frontier h hcard
    refine hdone h fun a ha => ?_
    have := ha.lt_card U hU
    omega
  | succ rounds ih =>
    intro depth seen frontier h hcard
    rw [Search.search]
    split_ifs with hfrontier
    · refine hdone h fun a ha => ?_
      rw [List.isEmpty_iff] at hfrontier
      have := (h.frontier a).mpr ha
      simp [hfrontier] at this
    · exact ih h.next_level (by omega)

/-- A search from one vertex records the distances from it. -/
theorem get?_distances {rounds : Nat} {start : α} (U : Finset α) (hstart : start ∈ U)
    (hU : ∀ a b, b ∈ next a → b ∈ U) (hrounds : U.card ≤ rounds) (a : α) (n : Nat) :
    (distances next rounds start).get? a = some n ↔
      IsDist (fun a b => b ∈ next a) {start} a n := by
  have hlevel : Level next {start} 0 (SortedMap.empty.insert start 0) [start] := by
    refine ⟨fun a n => ?_, fun a => by simp⟩
    rw [SortedMap.get?_insert]
    by_cases ha : a = start
    · subst ha
      simp only [if_true, Option.some.injEq, Nat.le_zero]
      constructor
      · rintro rfl
        exact ⟨rfl, isDist_zero.mpr rfl⟩
      · exact fun h => h.1.symm
    · simp only [if_neg ha, SortedMap.get?_empty, reduceCtorEq, Nat.le_zero, false_iff]
      rintro ⟨rfl, hdist⟩
      exact ha (Set.mem_singleton_iff.mp (isDist_zero.mp hdist))
  refine hlevel.search U (fun a n ha => ?_) (by omega) a n
  cases n with
  | zero => exact (isDist_zero.mp ha) ▸ hstart
  | succ n =>
    obtain ⟨b, -, hb⟩ := ha.pred
    exact hU b a hb

end Search

end Search
