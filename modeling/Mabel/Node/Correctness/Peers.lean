import Mabel.Ledger.Sign.Keys
import Mabel.Node.Peers

/-!
# The hint cache over its runs

However the calls that record successes and failures and drop old hints are mixed, each ledger
keeps between one and eight hints of distinct endpoints. The one just recorded is never the one
dropped for it, because its key is the greatest: its success is the latest there is, and it stands
last.
-/

namespace Mabel.Node

variable {C : Crypto}

/-! ## Calls -/

/-- One call that changes the cache. -/
inductive HintCall (C : Crypto) where
  | success (ledger : LedgerId) (endpoint : EndpointId C) (nowMs : Nat)
  | failure (ledger : LedgerId) (endpoint : EndpointId C)
  | prune (nowMs : Nat)
  deriving DecidableEq

namespace HintCall

/-- The clock reading of a call. -/
def reading : HintCall C → Option Nat
  | success _ _ nowMs | prune nowMs => some nowMs
  | failure .. => none

/-- The cache after a call. -/
def perform (peers : Peers C) : HintCall C → Peers C
  | success ledger endpoint nowMs => peers.recordSuccess ledger endpoint nowMs
  | failure ledger endpoint => (peers.recordFailure ledger endpoint).2
  | prune nowMs => (peers.prune nowMs).2

end HintCall

/-- The clock readings of a run, in order. -/
def readings (calls : List (HintCall C)) : List Nat := calls.filterMap HintCall.reading

/-- The clock never reads zero and never runs backwards. -/
def Clocked (calls : List (HintCall C)) : Prop :=
  (∀ t ∈ readings calls, 0 < t) ∧ (readings calls).Pairwise (· ≤ ·)

instance (calls : List (HintCall C)) : Decidable (Clocked calls) :=
  inferInstanceAs (Decidable (_ ∧ _))

namespace Peers

/-- The cache after calls, from no hints. -/
def performed (calls : List (HintCall C)) : Peers C := calls.foldl HintCall.perform default

/-- The hints of a ledger. -/
def hintsOf (peers : Peers C) (ledger : LedgerId) : List (PeerHint C) :=
  (peers.ledgers.get? ledger).getD []

end Peers

/-! ## The hints of one ledger -/

section Hints

variable {hints : List (PeerHint C)} {hint other : PeerHint C} {endpoint : EndpointId C}
  {index now later : Nat}

/-- The position found is the endpoint's. -/
theorem position_eq_some (h : position hints endpoint = some index) :
    ∃ hint, hints[index]? = some hint ∧ hint.endpoint = endpoint := by
  obtain ⟨hlt, hfound, -⟩ := List.findIdx?_eq_some_iff_getElem.mp h
  exact ⟨hints[index], List.getElem?_eq_getElem hlt, of_decide_eq_true hfound⟩

/-- No position is found where no hint names the endpoint. -/
theorem position_eq_none (h : position hints endpoint = none) :
    ∀ hint ∈ hints, hint.endpoint ≠ endpoint := by
  intro hint hhint
  exact of_decide_eq_false (List.findIdx?_eq_none_iff.mp h hint hhint)

/-- What one change of a hint leaves: the others as they were, and the changed one. -/
theorem mem_modify {f : PeerHint C → PeerHint C} (h : hint ∈ hints.modify index f) :
    (∃ j, j ≠ index ∧ hints[j]? = some hint) ∨ ∃ old, hints[index]? = some old ∧ hint = f old := by
  obtain ⟨j, hj⟩ := List.mem_iff_getElem?.mp h
  rw [List.getElem?_modify] at hj
  obtain ⟨old, hold, hsame⟩ := Option.map_eq_some_iff.mp hj
  split_ifs at hsame with hindex
  · exact .inr ⟨old, hindex ▸ hold, hsame.symm⟩
  · exact .inl ⟨j, Ne.symm hindex, hsame ▸ hold⟩

/-- A change that keeps endpoints keeps the list of them. -/
theorem map_endpoint_modify {f : PeerHint C → PeerHint C}
    (hf : ∀ hint, (f hint).endpoint = hint.endpoint) (hints : List (PeerHint C)) (index : Nat) :
    (hints.modify index f).map PeerHint.endpoint = hints.map PeerHint.endpoint := by
  apply List.ext_getElem?
  intro j
  rw [List.getElem?_map, List.getElem?_map, List.getElem?_modify]
  cases hints[j]? with
  | none => rfl
  | some hint =>
    simp only [Option.map_eq_map, Option.map_some]
    split_ifs
    · rw [hf]
    · rfl

/-- The hint that goes has the oldest success, of those the oldest sight, of those the first
place. -/
theorem oldest_spec (h : oldest hints = some index) : ∃ hint, hints[index]? = some hint ∧
    ∀ (j : Nat) other, hints[j]? = some other →
      hint.lastSuccessMs < other.lastSuccessMs ∨ hint.lastSuccessMs = other.lastSuccessMs ∧
        (hint.firstSeenMs < other.firstSeenMs ∨
          hint.firstSeenMs = other.firstSeenMs ∧ index ≤ j) := by
  obtain ⟨⟨hint, i⟩, hmin, rfl⟩ := Option.map_eq_some_iff.mp h
  refine ⟨hint, List.mem_zipIdx_iff_getElem?.mp (List.argmin_mem hmin), ?_⟩
  intro j other hother
  have hle := List.le_of_mem_argmin (List.mem_zipIdx_iff_getElem?.mpr
    (show hints[(other, j).2]? = some (other, j).1 from hother)) hmin
  simpa [Prod.Lex.le_iff] using hle

/-- A list with hints has an oldest one. -/
theorem oldest_isSome (h : hints ≠ []) : ∃ index, oldest hints = some index := by
  cases hmin : oldest hints with
  | some index => exact ⟨index, rfl⟩
  | none =>
    have hnil := List.argmin_eq_none.mp (Option.map_eq_none_iff.mp hmin)
    exact absurd (List.zipIdx_eq_nil_iff.mp hnil) h

theorem enforceCap_of_le (h : hints.length ≤ maxHints) : enforceCap hints = hints := by
  rw [enforceCap, if_neg (not_lt.mpr h)]

/-- One hint over the cap is one hint dropped. -/
theorem enforceCap_over (h : hints.length = maxHints + 1) :
    ∃ index, oldest hints = some index ∧ enforceCap hints = hints.eraseIdx index := by
  obtain ⟨index, hindex⟩ := oldest_isSome (show hints ≠ [] by rintro rfl; cases h)
  refine ⟨index, hindex, ?_⟩
  rw [enforceCap, if_pos (by omega)]
  split
  · rename_i i hi
    obtain rfl : index = i := Option.some.inj (hindex.symm.trans hi)
    apply enforceCap_of_le
    rw [List.length_eraseIdx_of_lt (oldest_lt hindex), h]
    rfl
  · rename_i hnone
    rw [hindex] at hnone
    cases hnone

/-- What holds of the hints of a ledger at a clock reading. -/
structure Bounded (now : Nat) (hints : List (PeerHint C)) : Prop where
  capped : hints.length ≤ 8
  distinct : (hints.map PeerHint.endpoint).Nodup
  failing : ∀ hint ∈ hints, hint.failures < 3
  dated : ∀ hint ∈ hints, 0 < hint.firstSeenMs ∧ hint.firstSeenMs ≤ hint.lastSuccessMs ∧
    hint.lastSuccessMs ≤ now

theorem Bounded.nil : Bounded now ([] : List (PeerHint C)) :=
  ⟨Nat.zero_le _, List.nodup_nil, by simp, by simp⟩

/-- Hints stay bounded as time passes. -/
theorem Bounded.mono (h : Bounded now hints) (hle : now ≤ later) : Bounded later hints where
  capped := h.capped
  distinct := h.distinct
  failing := h.failing
  dated hint hhint := ⟨(h.dated hint hhint).1, (h.dated hint hhint).2.1,
    (h.dated hint hhint).2.2.trans hle⟩

/-- Part of bounded hints is bounded. -/
theorem Bounded.sublist {kept : List (PeerHint C)} (h : Bounded now hints)
    (hsub : kept.Sublist hints) : Bounded now kept where
  capped := hsub.length_le.trans h.capped
  distinct := h.distinct.sublist (hsub.map _)
  failing hint hhint := h.failing hint (hsub.subset hhint)
  dated hint hhint := h.dated hint (hsub.subset hhint)

/-- No two hints of a ledger share an endpoint. -/
theorem Bounded.eq_of_endpoint (h : Bounded now hints) {j : Nat} (hhint : hints[index]? = some hint)
    (hother : hints[j]? = some other) (hsame : hint.endpoint = other.endpoint) : index = j := by
  have hlt : index < (hints.map PeerHint.endpoint).length := by
    rw [List.length_map]
    exact (List.getElem?_eq_some_iff.mp hhint).1
  apply (List.getElem?_inj hlt h.distinct).mp
  rw [List.getElem?_map, List.getElem?_map, hhint, hother, Option.map_some, Option.map_some, hsame]

/-! ## A success -/

/-- What a success leaves of the hints of a ledger: its hint refreshed in place, or a new one behind
the others, with one of the oldest successes gone when there was no room. -/
inductive Succeeds (hints : List (PeerHint C)) (endpoint : EndpointId C) (now : Nat) :
    List (PeerHint C) → Prop
  | refreshed {index : Nat} {hint : PeerHint C} (hget : hints[index]? = some hint)
    (hsame : hint.endpoint = endpoint) :
    Succeeds hints endpoint now (hints.modify index (·.refreshed now))
  | added (fresh : ∀ hint ∈ hints, hint.endpoint ≠ endpoint) (room : hints.length < 8) :
    Succeeds hints endpoint now (hints ++ [.served endpoint now])
  | replaced {index : Nat} {oldest : PeerHint C}
    (fresh : ∀ hint ∈ hints, hint.endpoint ≠ endpoint) (full : hints.length = 8)
    (hget : hints[index]? = some oldest)
    (hold : ∀ other ∈ hints, oldest.lastSuccessMs ≤ other.lastSuccessMs) :
    Succeeds hints endpoint now (hints.eraseIdx index ++ [.served endpoint now])

/-- A success changes the hints as it says. -/
theorem succeeds_afterSuccess (h : Bounded now hints) (endpoint : EndpointId C) :
    Succeeds hints endpoint now (afterSuccess hints endpoint now) := by
  unfold afterSuccess
  cases hposition : position hints endpoint with
  | some index =>
    obtain ⟨hint, hget, hsame⟩ := position_eq_some hposition
    exact .refreshed hget hsame
  | none =>
    have hfresh := position_eq_none hposition
    have hcapped := h.capped
    rcases Nat.lt_or_eq_of_le hcapped with hroom | hfull
    · have hwithin : (hints ++ [PeerHint.served endpoint now]).length ≤ maxHints := by
        rw [List.length_append]
        exact hroom
      rw [enforceCap_of_le hwithin]
      exact .added hfresh hroom
    · have hover : (hints ++ [PeerHint.served endpoint now]).length = maxHints + 1 := by
        simp [hfull, maxHints]
      obtain ⟨index, hindex, hcap⟩ := enforceCap_over hover
      obtain ⟨oldest, hget, hold⟩ := oldest_spec hindex
      -- The new hint stands last with the latest success and sight, so the first hint goes before.
      have hlt : index < hints.length := by
        obtain ⟨first, hfirst⟩ : ∃ first, hints[0]? = some first :=
          ⟨_, List.getElem?_eq_getElem (by omega)⟩
        have hdated := h.dated first (List.mem_of_getElem? hfirst)
        have hkey := hold 0 first (by rw [List.getElem?_append_left (by omega), hfirst])
        by_contra hlast
        rw [List.getElem?_append_right (by omega)] at hget
        have hnew := List.mem_of_getElem? hget
        obtain rfl := List.mem_singleton.mp hnew
        simp only [PeerHint.served] at hkey
        omega
      rw [hcap, List.eraseIdx_append_of_lt_length hlt]
      rw [List.getElem?_append_left hlt] at hget
      refine .replaced hfresh hfull hget fun other hother => ?_
      obtain ⟨j, hj⟩ := List.mem_iff_getElem?.mp hother
      have hjlt := (List.getElem?_eq_some_iff.mp hj).1
      have hkey := hold j other (by rw [List.getElem?_append_left hjlt, hj])
      omega

variable {after : List (PeerHint C)}

/-- The hint just recorded is there. -/
theorem Succeeds.recorded (h : Succeeds hints endpoint now after) : ∃ hint ∈ after,
    hint.endpoint = endpoint ∧ hint.lastSuccessMs = now ∧ hint.failures = 0 := by
  cases h with
  | @refreshed index hint hget hsame =>
    have hnew : (hints.modify index (·.refreshed now))[index]? = some (hint.refreshed now) := by
      rw [List.getElem?_modify_eq, hget]
      rfl
    exact ⟨hint.refreshed now, List.mem_of_getElem? hnew, hsame, rfl, rfl⟩
  | added | replaced => exact ⟨.served endpoint now, by simp, rfl, rfl, rfl⟩

/-- The cap keeps hints that were there. -/
theorem mem_enforceCap (h : hint ∈ enforceCap hints) : hint ∈ hints := by
  induction hints using enforceCap.induct with
  | case1 hints hover index hindex ih =>
    rw [enforceCap, if_pos hover] at h
    split at h
    · rename_i i hi
      obtain rfl : index = i := Option.some.inj (hindex.symm.trans hi)
      exact List.mem_of_mem_eraseIdx (ih h)
    · exact h
  | case2 hints hover hnone =>
    rw [enforceCap, if_pos hover] at h
    split at h
    · rename_i i hi
      rw [hnone] at hi
      cases hi
    · exact h
  | case3 hints hwithin =>
    rw [enforceCap, if_neg hwithin] at h
    exact h

/-- A success changes no hint of another endpoint. -/
theorem mem_afterSuccess (h : hint ∈ afterSuccess hints endpoint now) :
    hint ∈ hints ∨ hint.endpoint = endpoint := by
  unfold afterSuccess at h
  cases hposition : position hints endpoint with
  | some index =>
    rw [hposition] at h
    obtain ⟨found, hget, hsame⟩ := position_eq_some hposition
    rcases mem_modify h with ⟨j, -, hold⟩ | ⟨old, hold, rfl⟩
    · exact .inl (List.mem_of_getElem? hold)
    · obtain rfl := Option.some.inj (hget.symm.trans hold)
      exact .inr hsame
  | none =>
    rw [hposition] at h
    rcases List.mem_append.mp (mem_enforceCap h) with hold | hnew
    · exact .inl hold
    · obtain rfl := List.mem_singleton.mp hnew
      exact .inr rfl

/-- Hints with a new one behind them. -/
theorem Bounded.added (h : Bounded now hints) (hpos : 0 < now) (hroom : hints.length < 8)
    (hfresh : ∀ hint ∈ hints, hint.endpoint ≠ endpoint) :
    Bounded now (hints ++ [.served endpoint now]) := by
  constructor
  · rw [List.length_append]
    exact hroom
  · rw [List.map_append, List.nodup_append]
    refine ⟨h.distinct, List.nodup_singleton _, ?_⟩
    intro a ha b hb hab
    obtain ⟨hint, hhint, rfl⟩ := List.mem_map.mp ha
    obtain rfl := List.mem_singleton.mp hb
    exact hfresh hint hhint hab
  · intro hint hhint
    rcases List.mem_append.mp hhint with hold | hnew
    · exact h.failing hint hold
    · obtain rfl := List.mem_singleton.mp hnew
      exact Nat.zero_lt_succ _
  · intro hint hhint
    rcases List.mem_append.mp hhint with hold | hnew
    · exact h.dated hint hold
    · obtain rfl := List.mem_singleton.mp hnew
      exact ⟨hpos, le_rfl, le_rfl⟩

/-- A success keeps hints bounded. -/
theorem Bounded.success (h : Bounded now hints) (hpos : 0 < now)
    (hsuccess : Succeeds hints endpoint now after) : Bounded now after := by
  cases hsuccess with
  | @refreshed index hint hget hsame =>
    have hdated := h.dated hint (List.mem_of_getElem? hget)
    constructor
    · rw [List.length_modify]
      exact h.capped
    · rw [map_endpoint_modify (f := (·.refreshed now)) fun _ => rfl]
      exact h.distinct
    · intro other hother
      rcases mem_modify hother with ⟨j, -, hold⟩ | ⟨old, -, rfl⟩
      · exact h.failing other (List.mem_of_getElem? hold)
      · exact Nat.zero_lt_succ _
    · intro other hother
      rcases mem_modify hother with ⟨j, -, hold⟩ | ⟨old, hold, rfl⟩
      · exact h.dated other (List.mem_of_getElem? hold)
      · obtain rfl := Option.some.inj (hget.symm.trans hold)
        simp only [PeerHint.refreshed]
        split_ifs <;> omega
  | added hfresh hroom => exact h.added hpos hroom hfresh
  | @replaced index oldest hfresh hfull hget hold =>
    have hlt := (List.getElem?_eq_some_iff.mp hget).1
    refine (h.sublist (List.eraseIdx_sublist hints index)).added hpos ?_ ?_
    · rw [List.length_eraseIdx_of_lt hlt]
      omega
    · exact fun hint hhint => hfresh hint (List.mem_of_mem_eraseIdx hhint)

/-! ## A failure -/

/-- What a failure leaves of the hints of a ledger. -/
inductive Fails (hints : List (PeerHint C)) (endpoint : EndpointId C) : List (PeerHint C) → Prop
  | unknown (fresh : ∀ hint ∈ hints, hint.endpoint ≠ endpoint) : Fails hints endpoint hints
  | struck {index : Nat} {hint : PeerHint C} (hget : hints[index]? = some hint)
    (hsame : hint.endpoint = endpoint) (hfew : hint.failures + 1 < 3) :
    Fails hints endpoint (hints.modify index PeerHint.failed)
  | evicted {index : Nat} {hint : PeerHint C} (hget : hints[index]? = some hint)
    (hsame : hint.endpoint = endpoint) (hmany : 3 ≤ hint.failures + 1) :
    Fails hints endpoint (hints.eraseIdx index)

/-- The hints of a ledger after an endpoint failed to serve it. -/
def afterFailure (hints : List (PeerHint C)) (endpoint : EndpointId C) : List (PeerHint C) :=
  match position hints endpoint with
  | none => hints
  | some index =>
    let hints := hints.modify index PeerHint.failed
    if (hints[index]?.map PeerHint.failures).getD 0 < maxFailures then hints
    else hints.eraseIdx index

/-- A hint about to be erased may be changed. -/
theorem eraseIdx_modify (f : PeerHint C → PeerHint C) (hints : List (PeerHint C)) (index : Nat) :
    (hints.modify index f).eraseIdx index = hints.eraseIdx index := by
  apply List.ext_getElem?
  intro j
  rw [List.getElem?_eraseIdx, List.getElem?_eraseIdx]
  split_ifs <;> exact List.getElem?_modify_ne f _ (by omega)

/-- A hint that may be dialled counts its failures exactly. -/
theorem Bounded.failures_failed (h : Bounded now hints) (hhint : hint ∈ hints) :
    hint.failed.failures = hint.failures + 1 := by
  have hfew := h.failing hint hhint
  exact Nat.min_eq_left ((Nat.succ_le_of_lt hfew).trans (by decide))

/-- A failure changes the hints as it says. -/
theorem fails_afterFailure (h : Bounded now hints) (endpoint : EndpointId C) :
    Fails hints endpoint (afterFailure hints endpoint) := by
  unfold afterFailure
  cases hposition : position hints endpoint with
  | none => exact .unknown (position_eq_none hposition)
  | some index =>
    obtain ⟨hint, hget, hsame⟩ := position_eq_some hposition
    have hcount := h.failures_failed (List.mem_of_getElem? hget)
    simp only [List.getElem?_modify_eq, hget, Option.map_eq_map, Option.map_some,
      Option.getD_some, hcount, eraseIdx_modify]
    split_ifs with hfew
    · exact .struck hget hsame hfew
    · exact .evicted hget hsame (not_lt.mp hfew)

/-- A failure counts against the hint of its endpoint and changes no other. -/
theorem Fails.mem (h : Bounded now hints) (hfails : Fails hints endpoint after)
    (hhint : hint ∈ after) : hint ∈ hints ∧ hint.endpoint ≠ endpoint ∨
      ∃ old ∈ hints, old.endpoint = endpoint ∧ hint = old.failed ∧ old.failures + 1 < 3 := by
  cases hfails with
  | unknown hfresh => exact .inl ⟨hhint, hfresh hint hhint⟩
  | @struck index old hget hsame hfew =>
    rcases mem_modify hhint with ⟨j, hj, hold⟩ | ⟨same, hold, rfl⟩
    · refine .inl ⟨List.mem_of_getElem? hold, fun hendpoint => hj ?_⟩
      exact h.eq_of_endpoint hold hget (hendpoint.trans hsame.symm)
    · obtain rfl := Option.some.inj (hget.symm.trans hold)
      exact .inr ⟨old, List.mem_of_getElem? hget, hsame, rfl, hfew⟩
  | @evicted index old hget hsame hmany =>
    obtain ⟨j, hj, hold⟩ := List.mem_eraseIdx_iff_getElem?.mp hhint
    refine .inl ⟨List.mem_of_getElem? hold, fun hendpoint => hj ?_⟩
    exact h.eq_of_endpoint hold hget (hendpoint.trans hsame.symm)

/-- A failure keeps hints bounded. -/
theorem Bounded.failure (h : Bounded now hints) (hfails : Fails hints endpoint after) :
    Bounded now after := by
  have hmem : ∀ hint ∈ after, hint.failures < 3 ∧ 0 < hint.firstSeenMs ∧
      hint.firstSeenMs ≤ hint.lastSuccessMs ∧ hint.lastSuccessMs ≤ now := by
    intro hint hhint
    rcases hfails.mem h hhint with ⟨hold, -⟩ | ⟨old, hold, -, rfl, hfew⟩
    · exact ⟨h.failing hint hold, h.dated hint hold⟩
    · rw [h.failures_failed hold]
      exact ⟨hfew, h.dated old hold⟩
  constructor
  · cases hfails with
    | unknown => exact h.capped
    | struck => exact (List.length_modify ..).trans_le h.capped
    | evicted => exact (List.eraseIdx_sublist ..).length_le.trans h.capped
  · cases hfails with
    | unknown => exact h.distinct
    | struck =>
      rw [map_endpoint_modify (f := PeerHint.failed) fun _ => rfl]
      exact h.distinct
    | evicted => exact h.distinct.sublist ((List.eraseIdx_sublist ..).map _)
  · exact fun hint hhint => (hmem hint hhint).1
  · exact fun hint hhint => (hmem hint hhint).2

end Hints

/-! ## The hints of every ledger -/

section Cache

variable {peers : Peers C} {ledger other : LedgerId} {endpoint : EndpointId C} {now later : Nat}

/-- A recorded success changes its own ledger's hints. -/
theorem get?_recordSuccess (peers : Peers C) (ledger other : LedgerId) (endpoint : EndpointId C)
    (now : Nat) : (peers.recordSuccess ledger endpoint now).ledgers.get? other =
      if other = ledger then some (afterSuccess (peers.hintsOf ledger) endpoint now)
      else peers.ledgers.get? other := by
  rw [Peers.recordSuccess, SortedMap.get?_insert]
  split_ifs <;> rfl

/-- What holds of a cache at a clock reading: no ledger is left without a hint, and each keeps its
bounds. -/
def BoundedAll (now : Nat) (peers : Peers C) : Prop :=
  ∀ ledger hints, peers.ledgers.get? ledger = some hints → hints ≠ [] ∧ Bounded now hints

theorem BoundedAll.mono (h : BoundedAll now peers) (hle : now ≤ later) : BoundedAll later peers :=
  fun ledger hints hget => ⟨(h ledger hints hget).1, (h ledger hints hget).2.mono hle⟩

/-- The hints of a ledger are bounded. -/
theorem BoundedAll.hintsOf (h : BoundedAll now peers) (ledger : LedgerId) :
    Bounded now (peers.hintsOf ledger) := by
  unfold Peers.hintsOf
  cases hget : peers.ledgers.get? ledger with
  | none => exact Bounded.nil
  | some hints => exact (h ledger hints hget).2

/-- A recorded failure changes its own ledger's hints and drops an emptied list. -/
theorem get?_recordFailure (h : BoundedAll now peers) (ledger other : LedgerId)
    (endpoint : EndpointId C) : (peers.recordFailure ledger endpoint).2.ledgers.get? other =
      if other = ledger then
        ((peers.ledgers.get? ledger).map (afterFailure · endpoint)).filter fun hints =>
          !hints.isEmpty
      else peers.ledgers.get? other := by
  unfold Peers.recordFailure afterFailure
  cases hget : peers.ledgers.get? ledger with
  | none =>
    split_ifs with hledger
    · rw [hledger]
      exact hget
    · rfl
  | some hints =>
    obtain ⟨hne, -⟩ := h ledger hints hget
    cases hposition : position hints endpoint with
    | none =>
      have hkeep : (!hints.isEmpty) = true := by simpa using hne
      simp only [hposition, Option.map_some, Option.filter_some, if_pos hkeep]
      split_ifs with hledger
      · rw [hledger, hget]
      · rfl
    | some index =>
      have hkeep : (hints.modify index PeerHint.failed).isEmpty = false := by
        rw [List.isEmpty_eq_false_iff, ← List.length_pos_iff, List.length_modify]
        exact List.length_pos_iff.mpr hne
      simp only [hposition, Option.map_some, Option.filter_some]
      generalize hints.modify index PeerHint.failed = changed at hkeep
      by_cases hfew : (changed[index]?.map PeerHint.failures).getD 0 < maxFailures
      · simp only [if_pos hfew, hkeep, Bool.not_false, if_true, SortedMap.get?_insert]
        split_ifs <;> rfl
      · simp only [if_neg hfew]
        cases (changed.eraseIdx index).isEmpty
        · simp only [Bool.false_eq_true, if_false, Bool.not_false, if_true, SortedMap.get?_insert]
          split_ifs <;> rfl
        · simp only [if_true, Bool.not_true, Bool.false_eq_true, if_false, SortedMap.get?_remove]
          split_ifs <;> rfl

/-- A recorded success keeps the cache bounded. -/
theorem BoundedAll.success (h : BoundedAll now peers) (hpos : 0 < now) (ledger : LedgerId)
    (endpoint : EndpointId C) : BoundedAll now (peers.recordSuccess ledger endpoint now) := by
  intro other hints hget
  rw [get?_recordSuccess] at hget
  split_ifs at hget with hledger
  · obtain rfl := Option.some.inj hget
    have hsuccess := succeeds_afterSuccess (h.hintsOf ledger) endpoint
    obtain ⟨hint, hhint, -⟩ := hsuccess.recorded
    exact ⟨List.ne_nil_of_mem hhint, (h.hintsOf ledger).success hpos hsuccess⟩
  · exact h other hints hget

/-- A recorded failure keeps the cache bounded. -/
theorem BoundedAll.failure (h : BoundedAll now peers) (ledger : LedgerId)
    (endpoint : EndpointId C) : BoundedAll now (peers.recordFailure ledger endpoint).2 := by
  intro other hints hget
  rw [get?_recordFailure h] at hget
  split_ifs at hget with hledger
  · obtain ⟨hmap, hne⟩ := Option.filter_eq_some_iff.mp hget
    obtain ⟨before, hbefore, rfl⟩ := Option.map_eq_some_iff.mp hmap
    have hkept := (h ledger before hbefore).2
    exact ⟨by simpa using hne, hkept.failure (fails_afterFailure hkept endpoint)⟩
  · exact h other hints hget

/-- Pruning drops what has aged out and the lists it emptied. -/
theorem get?_prune (peers : Peers C) (nowMs : Nat) (ledger : LedgerId) :
    (peers.prune nowMs).2.ledgers.get? ledger =
      ((peers.ledgers.get? ledger).map (·.filter fun hint => !hint.agedOut nowMs)).filter
        fun hints => !hints.isEmpty := by
  rw [Peers.prune, SortedMap.get?_retain, SortedMap.get?_mapValues]

/-- Pruning keeps the cache bounded. -/
theorem BoundedAll.prune (h : BoundedAll now peers) (nowMs : Nat) :
    BoundedAll now (peers.prune nowMs).2 := by
  intro ledger hints hget
  rw [get?_prune] at hget
  obtain ⟨hmap, hne⟩ := Option.filter_eq_some_iff.mp hget
  obtain ⟨before, hbefore, rfl⟩ := Option.map_eq_some_iff.mp hmap
  exact ⟨by simpa using hne, (h ledger before hbefore).2.sublist List.filter_sublist⟩

/-- A list that is dropped once it is empty reads as the list. -/
theorem getD_filter (hints : Option (List (PeerHint C))) :
    (hints.filter fun hints => !hints.isEmpty).getD [] = hints.getD [] := by
  rcases hints with _ | _ | ⟨hint, hints⟩ <;> rfl

/-- The hints after a recorded success. -/
theorem hintsOf_recordSuccess (peers : Peers C) (ledger other : LedgerId) (endpoint : EndpointId C)
    (now : Nat) : (peers.recordSuccess ledger endpoint now).hintsOf other =
      if other = ledger then afterSuccess (peers.hintsOf ledger) endpoint now
      else peers.hintsOf other := by
  rw [Peers.hintsOf, get?_recordSuccess]
  split_ifs <;> rfl

/-- The hints after a recorded failure. -/
theorem hintsOf_recordFailure (h : BoundedAll now peers) (ledger other : LedgerId)
    (endpoint : EndpointId C) : (peers.recordFailure ledger endpoint).2.hintsOf other =
      if other = ledger then afterFailure (peers.hintsOf ledger) endpoint
      else peers.hintsOf other := by
  rw [Peers.hintsOf, get?_recordFailure h]
  split_ifs
  · rw [getD_filter]
    cases hget : peers.ledgers.get? ledger <;> simp [Peers.hintsOf, hget, afterFailure, position]
  · rfl

/-- The hints after pruning. -/
theorem hintsOf_prune (peers : Peers C) (nowMs : Nat) (ledger : LedgerId) :
    (peers.prune nowMs).2.hintsOf ledger =
      (peers.hintsOf ledger).filter fun hint => !hint.agedOut nowMs := by
  rw [Peers.hintsOf, get?_prune, getD_filter, Peers.hintsOf]
  cases peers.ledgers.get? ledger <;> rfl

/-- The cache holds an endpoint when a hint of the ledger names it. -/
theorem holds_iff_hintsOf : peers.holds ledger endpoint = true ↔
    ∃ hint ∈ peers.hintsOf ledger, hint.endpoint = endpoint := by
  unfold Peers.holds Peers.hintsOf
  cases peers.ledgers.get? ledger <;> simp

end Cache

/-! ## Runs -/

section Runs

variable {calls more : List (HintCall C)} {call : HintCall C} {ledger : LedgerId}
  {endpoint : EndpointId C} {now t k : Nat} {peers : Peers C}

theorem readings_append : readings (calls ++ more) = readings calls ++ readings more :=
  List.filterMap_append

/-- The earlier calls were made by the clock as well. -/
theorem Clocked.before (h : Clocked (calls ++ more)) : Clocked calls := by
  unfold Clocked at h ⊢
  rw [readings_append] at h
  exact ⟨fun t ht => h.1 t (List.mem_append_left _ ht), (List.pairwise_append.mp h.2).1⟩

/-- The last reading is no earlier than those before it. -/
theorem Clocked.last (h : Clocked (calls ++ [call])) (ht : call.reading = some t) :
    0 < t ∧ ∀ earlier ∈ readings calls, earlier ≤ t := by
  have hlast : readings [call] = [t] := by simp [readings, ht]
  unfold Clocked at h
  rw [readings_append, hlast] at h
  exact ⟨h.1 t (by simp), fun earlier hearlier =>
    (List.pairwise_append.mp h.2).2.2 earlier hearlier t (List.mem_singleton_self t)⟩

theorem performed_concat : Peers.performed (calls ++ [call]) =
    HintCall.perform (Peers.performed calls) call := by
  rw [Peers.performed, List.foldl_concat, Peers.performed]

/-- Every run keeps the bounds of every ledger. -/
theorem boundedAll_performed (h : Clocked calls) (hnow : ∀ t ∈ readings calls, t ≤ now) :
    BoundedAll now (Peers.performed calls) := by
  induction calls using List.reverseRecOn generalizing now with
  | nil =>
    intro ledger hints hget
    cases hget
  | append_singleton calls call ih =>
    have hbefore : ∀ t ∈ readings calls, t ≤ now := by
      intro t ht
      apply hnow
      rw [readings_append]
      exact List.mem_append_left _ ht
    rw [performed_concat]
    cases call with
    | success ledger endpoint t =>
      obtain ⟨hpos, hearlier⟩ := h.last rfl
      have hle : t ≤ now := by
        apply hnow
        rw [readings_append]
        exact List.mem_append_right _ (List.mem_singleton_self t)
      exact ((ih h.before hearlier).success hpos ledger endpoint).mono hle
    | failure ledger endpoint => exact (ih h.before hbefore).failure ledger endpoint
    | prune t => exact (ih h.before hbefore).prune t

/-- Every cache calls by the clock leave is bounded. -/
theorem exists_boundedAll (h : Clocked calls) : ∃ now, BoundedAll now (Peers.performed calls) := by
  obtain ⟨now, hnow⟩ : ∃ now, ∀ t ∈ readings calls, t ≤ now :=
    ⟨(readings calls).sum, fun t ht => List.single_le_sum (fun _ _ => Nat.zero_le _) t ht⟩
  exact ⟨now, boundedAll_performed h hnow⟩

/-! ## Failures in a row -/

/-- Every hint of an endpoint has counted some failures. -/
def Struck (k : Nat) (peers : Peers C) (ledger : LedgerId) (endpoint : EndpointId C) : Prop :=
  ∀ hint ∈ peers.hintsOf ledger, hint.endpoint = endpoint → k ≤ hint.failures

/-- A call other than a success of the endpoint forgets no failure, and a failure counts. -/
theorem Struck.perform (h : Struck k peers ledger endpoint) (hkept : BoundedAll now peers)
    (hcall : ∀ t, call ≠ .success ledger endpoint t) :
    Struck (k + if call = .failure ledger endpoint then 1 else 0) (HintCall.perform peers call)
      ledger endpoint := by
  intro hint hhint hendpoint
  cases call with
  | success other served t =>
    simp only [HintCall.perform, hintsOf_recordSuccess] at hhint
    simp only [reduceCtorEq, if_false, Nat.add_zero]
    split_ifs at hhint with hledger
    · subst hledger
      rcases mem_afterSuccess hhint with hold | hserved
      · exact h hint hold hendpoint
      · obtain rfl : endpoint = served := hendpoint.symm.trans hserved
        exact absurd rfl (hcall t)
    · exact h hint hhint hendpoint
  | failure other refused =>
    simp only [HintCall.perform, hintsOf_recordFailure hkept] at hhint
    split_ifs at hhint with hledger
    · subst hledger
      have hbounds := hkept.hintsOf ledger
      rcases (fails_afterFailure hbounds refused).mem hbounds hhint with
        ⟨hold, hne⟩ | ⟨old, hold, hsame, rfl, -⟩
      · have hother : refused ≠ endpoint := fun heq => hne (hendpoint.trans heq.symm)
        simpa [hother] using h hint hold hendpoint
      · have hcount := h old hold hendpoint
        rw [hbounds.failures_failed hold]
        split_ifs <;> omega
    · have hother : ledger ≠ other := hledger
      simpa [hother.symm] using h hint hhint hendpoint
  | prune t =>
    simp only [HintCall.perform, hintsOf_prune] at hhint
    simp only [reduceCtorEq, if_false, Nat.add_zero]
    exact h hint (List.mem_of_mem_filter hhint) hendpoint

/-- Over a run without a success of the endpoint every failure counts. -/
theorem struck_performed (h : Clocked (calls ++ more))
    (hmore : ∀ t, .success ledger endpoint t ∉ more) :
    Struck (more.count (.failure ledger endpoint)) (Peers.performed (calls ++ more)) ledger
      endpoint := by
  induction more using List.reverseRecOn with
  | nil => exact fun hint _ _ => Nat.zero_le _
  | append_singleton more call ih =>
    rw [← List.append_assoc] at h ⊢
    obtain ⟨now, hkept⟩ := exists_boundedAll h.before
    have hcall : ∀ t, call ≠ .success ledger endpoint t := fun t ht => hmore t (by simp [ht])
    have hstep :=
      (ih h.before fun t ht => hmore t (List.mem_append_left _ ht)).perform hkept hcall
    rw [performed_concat, List.count_append, List.count_singleton]
    simpa [beq_iff_eq] using hstep

/-! ## Reading -/

/-- A hint of a run is live while its last success is no older than a month. -/
theorem Bounded.live_iff {hints : List (PeerHint C)} (h : Bounded t hints) {hint : PeerHint C}
    (hhint : hint ∈ hints) (now : Nat) :
    hint.live now = decide (now - hint.lastSuccessMs ≤ hintMaxAgeMs) := by
  obtain ⟨hpos, hle, -⟩ := h.dated hint hhint
  have hfew : hint.failures < maxFailures := h.failing hint hhint
  have hstamp : (if hint.lastSuccessMs > hint.firstSeenMs then hint.lastSuccessMs
      else hint.firstSeenMs) = hint.lastSuccessMs := by
    split_ifs <;> omega
  unfold PeerHint.live PeerHint.agedOut
  simp only [hstamp, hfew, decide_true, Bool.true_and]
  rw [if_neg (by omega), ← decide_not]
  simp only [gt_iff_lt, not_lt]

/-- The later success is dialled first, and of two the earlier hint. -/
theorem dialledFirst_iff {a b : PeerHint C × Nat} : Peers.dialledFirst a b = true ↔
    b.1.lastSuccessMs < a.1.lastSuccessMs ∨
      a.1.lastSuccessMs = b.1.lastSuccessMs ∧ a.2 ≤ b.2 := by
  simp [Peers.dialledFirst]

instance : Std.Total fun a b : PeerHint C × Nat => Peers.dialledFirst a b = true where
  total a b := by
    simp only [dialledFirst_iff]
    omega

instance : IsTrans (PeerHint C × Nat) fun a b => Peers.dialledFirst a b = true where
  trans a b c := by
    simp only [dialledFirst_iff]
    omega

/-- A read lists the endpoints of the hints no older than a month, freshest success first. -/
theorem hintsAt_spec (h : BoundedAll t peers) (ledger : LedgerId) (now : Nat) :
    ∃ live : List (PeerHint C),
      live.Perm ((peers.hintsOf ledger).filter fun hint =>
        now - hint.lastSuccessMs ≤ hintMaxAgeMs) ∧
      live.Pairwise (fun a b => b.lastSuccessMs ≤ a.lastSuccessMs) ∧
      peers.hintsAt ledger now = live.map PeerHint.endpoint := by
  have hbounds := h.hintsOf ledger
  unfold Peers.hintsAt Peers.hintsOf at *
  cases hget : peers.ledgers.get? ledger with
  | none => exact ⟨[], by simp, List.Pairwise.nil, rfl⟩
  | some hints =>
    rw [hget, Option.getD_some] at hbounds
    let dialled := (hints.zipIdx.filter fun e => e.1.live now).insertionSort
      (Peers.dialledFirst · ·)
    refine ⟨dialled.map Prod.fst, ?_, ?_, ?_⟩
    · have hlive : (hints.zipIdx.filter fun e => e.1.live now).map Prod.fst =
          hints.filter (·.live now) := by
        conv_rhs => rw [← List.zipIdx_map_fst 0 hints, List.filter_map]
        rfl
      have hsame : hints.filter (·.live now) =
          hints.filter fun hint => now - hint.lastSuccessMs ≤ hintMaxAgeMs :=
        List.filter_congr fun hint hhint => hbounds.live_iff hhint now
      rw [Option.getD_some, ← hsame, ← hlive]
      exact (List.perm_insertionSort _ _).map _
    · rw [List.pairwise_map]
      refine (List.pairwise_insertionSort _ _).imp fun {a b} hab => ?_
      rcases dialledFirst_iff.mp hab with hlt | ⟨heq, -⟩
      · exact hlt.le
      · exact heq.ge
    · rw [List.map_map]
      rfl

/-! ## The cache -/

/-- In every run over a clock that is never zero and never runs backwards, each ledger with hints
has between one and eight of distinct endpoints, none with three failures. A success is recorded,
whatever goes to make room for it, and what goes has the oldest success. Three failures with no
success between them drop a hint. A read lists the hints no older than a month, freshest first. -/
theorem hint_cache (calls : List (HintCall C)) (hclock : Clocked calls) :
    (∀ ledger hints, (Peers.performed calls).ledgers.get? ledger = some hints →
      1 ≤ hints.length ∧ hints.length ≤ 8 ∧ (hints.map PeerHint.endpoint).Nodup ∧
        ∀ hint ∈ hints, hint.failures < 3) ∧
    (∀ before ledger endpoint now, calls = before ++ [.success ledger endpoint now] →
      (Peers.performed calls).holds ledger endpoint = true ∧
      Succeeds ((Peers.performed before).hintsOf ledger) endpoint now
        ((Peers.performed calls).hintsOf ledger)) ∧
    (∀ before more ledger endpoint, calls = before ++ more →
      3 ≤ more.count (.failure ledger endpoint) → (∀ now, .success ledger endpoint now ∉ more) →
        (Peers.performed calls).holds ledger endpoint = false) ∧
    ∀ ledger now, ∃ live : List (PeerHint C),
      live.Perm (((Peers.performed calls).hintsOf ledger).filter fun hint =>
        now - hint.lastSuccessMs ≤ 30 * 24 * 60 * 60 * 1000) ∧
      live.Pairwise (fun a b => b.lastSuccessMs ≤ a.lastSuccessMs) ∧
      (Peers.performed calls).hintsAt ledger now = live.map PeerHint.endpoint := by
  obtain ⟨now, hkept⟩ := exists_boundedAll hclock
  refine ⟨?_, ?_, ?_, fun ledger now => hintsAt_spec hkept ledger now⟩
  · intro ledger hints hget
    obtain ⟨hne, hbounds⟩ := hkept ledger hints hget
    exact ⟨List.length_pos_iff.mpr hne, hbounds.capped, hbounds.distinct, hbounds.failing⟩
  · rintro before ledger endpoint t rfl
    have hbounds := boundedAll_performed hclock.before (hclock.last rfl).2
    have hsuccess := succeeds_afterSuccess (hbounds.hintsOf ledger) endpoint
    have hafter : (Peers.performed (before ++ [.success ledger endpoint t])).hintsOf ledger =
        afterSuccess ((Peers.performed before).hintsOf ledger) endpoint t := by
      rw [performed_concat, HintCall.perform, hintsOf_recordSuccess, if_pos rfl]
    rw [holds_iff_hintsOf, hafter]
    obtain ⟨hint, hhint, hsame, -⟩ := hsuccess.recorded
    exact ⟨⟨hint, hhint, hsame⟩, hsuccess⟩
  · rintro before more ledger endpoint rfl hcount hmore
    rw [← Bool.not_eq_true, holds_iff_hintsOf]
    rintro ⟨hint, hhint, hsame⟩
    have hstruck := struck_performed hclock hmore hint hhint hsame
    have hfew := (hkept.hintsOf ledger).failing hint hhint
    omega

/-- Nine endpoints that serve one ledger at one instant. -/
def sampleServes : List (HintCall Crypto.sample) :=
  (List.range 9).map fun n => .success ⟨.ofNat idBytes 4⟩ (SecretKey.sample n).publicKey 5

/-- The calls of the sample are by the clock and leave the eight last hints. -/
theorem hint_cache_sampleServes : Clocked sampleServes ∧
    (Peers.performed sampleServes).holds ⟨.ofNat idBytes 4⟩ (SecretKey.sample 8).publicKey = true ∧
    (Peers.performed sampleServes).hintsAt ⟨.ofNat idBytes 4⟩ 5 =
      ((List.range' 1 8).map fun n => (SecretKey.sample n).publicKey) := by
  have hclock : Clocked sampleServes := by decide
  refine ⟨hclock, ((hint_cache sampleServes hclock).2.1 (sampleServes.take 8) _ _ 5 rfl).1, ?_⟩
  decide +kernel

end Runs

end Mabel.Node
