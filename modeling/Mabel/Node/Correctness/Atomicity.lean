import Mabel.Node.Correctness.Truncation
import Mabel.Node.Correctness.Winner

/-!
# What a failed query of the witnesses leaves

A query that fails for any other reason than a lost race should leave the local copy as it was
when the failing witness was asked, and one that lost a race should leave the chain of the
witness that won it. Where the two chains differ from their first event on, the truncation
keeps the local first event, which the store of the other chain then refuses: the query fails
and everything behind that event is gone.
-/

namespace Mabel.Node

open Wire Proto Net Program

variable {C : Crypto} {setup : Setup} {lock ledger : LedgerId}

/-! ## Local copies -/

/-- The local copy of a ledger is a chain that verifies. -/
structure Copies (ledger : LedgerId) (loaded : LoadedLedger C) (s : LedgerStorage C) : Prop where
  verifies : loaded.Verifies ledger
  stores : StoresOf ledger loaded.events s

/-- What a witness serves is taken only where it verifies. -/
theorem candidate_verifies {witness : Witness C} {chain : LoadedLedger C}
    (h : candidate ledger witness = .ok (some chain)) : chain.Verifies ledger := by
  obtain ⟨served, -, h⟩ := Outcome.bind_eq_ok.mp h
  rcases served with _ | _ | ⟨event, events⟩
  · simp at h
  · simp at h
  obtain ⟨chain', hverified, h⟩ := Outcome.bind_eq_ok.mp h
  obtain rfl := Option.some.inj (Except.ok.inj h)
  rw [verified] at hverified
  rcases hfold : fold C (event :: events) with (e | site) | ⟨state, _ | violation⟩
  · exact e.elim
  · simp [hfold] at hverified
  · rw [hfold] at hverified
    obtain ⟨_, hledger, hverified⟩ := Outcome.bind_eq_ok.mp hverified
    rw [Outcome.rejectIf_eq_ok, not_not] at hledger
    obtain ⟨loaded, hloaded, -, -, hany⟩ :=
      LoadedLedger.Verifies.of_run (fold_eq_ok.mp hfold) hledger
    rw [Except.ok.inj ((hany _).symm.trans hverified)] at hloaded
    exact hloaded
  · simp [hfold] at hverified

namespace Copies

variable {loaded : LoadedLedger C} {s : LedgerStorage C}

/-- Loading a local copy leaves it where it is. -/
theorem looked (h : Copies ledger loaded s) (witness : Witness C) :
    (run FileOp.exec (load (setup.ledger ledger) witness.loaded) (s.filesOf ledger)).1 =
        .ok loaded ∧ Copies ledger loaded (s.looked setup ledger witness) := by
  obtain ⟨files', hrun, -, hstores⟩ := h.stores.run_load (setup.ledger ledger) h.verifies
    witness.loaded
  refine ⟨by rw [hrun], h.verifies, ?_⟩
  rw [LedgerStorage.looked, hrun]
  exact storesOf_withFiles.mpr hstores

/-- A copy is what reading the ledger answers. -/
theorem serves (h : Copies ledger loaded s) (setup : Setup) :
    (setup.ledger ledger).Serves (s.filesOf ledger) loaded.events := h.stores.serves _

end Copies

/-! ## Taking a served chain -/

section Take

variable {loaded chain : LoadedLedger C} {s : LedgerStorage C} (witness : Witness C)

/-- Linking control leaves the events. -/
theorem linkControl_storesOf {log : List Bytes} (h : StoresOf ledger log s)
    (controller : Option IdentityId) :
    StoresOf ledger log (CoreOp.exec (.linkControl ledger controller) s).2 := by
  change Stores ((s.home.linkControl ledger controller).files.get ledger) log
  rw [NodeHome.files_linkControl]
  exact h

/-- What storing a served chain answers and leaves, by how the store of its events ended. -/
theorem run_storeServed_ok {stored : Nat} {t : LedgerStorage C} {log : List Bytes}
    (h : run StoreOp.exec (storeEvents setup lock
      ⟨ledger, chain.events, some witness.endpoint, witness.stored⟩) s = (.ok stored, t))
    (hstores : StoresOf ledger log t) : ∃ u,
      run CoreOp.exec (storeServed setup lock ledger witness chain) s = (.ok stored, u) ∧
        StoresOf ledger log u := by
  refine ⟨_, ?_, linkControl_storesOf hstores witness.controller⟩
  have hfirst : run CoreOp.exec (onStore ((storeEvents setup lock
      ⟨ledger, chain.events, some witness.endpoint, witness.stored⟩).mapReject SyncError.core)) s =
      (.ok stored, t) := by
    rw [run_onStore]
    exact run_mapReject_eq_ok.mpr h
  rw [storeServed, run_bind_of_ok hfirst]
  rfl

/-- A served chain that cannot be stored leaves what the store did. -/
theorem run_storeServed_error {e : Fault (CoreError C)} {t : LedgerStorage C}
    (h : run StoreOp.exec (storeEvents setup lock
      ⟨ledger, chain.events, some witness.endpoint, witness.stored⟩) s = (.error e, t)) :
    run CoreOp.exec (storeServed setup lock ledger witness chain) s =
      (Outcome.mapReject SyncError.core (.error e), t) := by
  have hfirst : run CoreOp.exec (onStore ((storeEvents setup lock
      ⟨ledger, chain.events, some witness.endpoint, witness.stored⟩).mapReject SyncError.core)) s =
      (Outcome.mapReject SyncError.core (.error e), t) := by
    rw [run_onStore, run_mapReject, h]
  rcases e with error | site
  · exact run_bind_of_error hfirst
  · exact run_bind_of_error hfirst

/-- Where the local copy is a prefix of the served chain, the copy becomes the chain, or the
query fails and the copy stays. -/
theorem takeServed_forwards (hcopies : Copies ledger loaded s) (hchain : chain.Verifies ledger)
    (freshness : Freshness) (head : Net.Head)
    (hshared : sharedPrefix loaded.events chain.events = loaded.events.length) :
    (∃ after t, run CoreOp.exec (takeServed setup lock ledger witness freshness loaded head chain)
        s = (.ok after, t) ∧ Copies ledger chain t) ∨
      ∃ e t, run CoreOp.exec (takeServed setup lock ledger witness freshness loaded head chain) s =
        (Outcome.mapReject SyncError.core (.error e), t) ∧ StoresOf ledger loaded.events t := by
  have hfailed : ∀ {e : Fault (CoreError C)} {t : LedgerStorage C},
      run StoreOp.exec (storeEvents setup lock
        ⟨ledger, chain.events, some witness.endpoint, witness.stored⟩) s = (.error e, t) →
      run CoreOp.exec (takeServed setup lock ledger witness freshness loaded head chain) s =
        (Outcome.mapReject SyncError.core (.error e), t) := by
    intro e t hstore
    have hserved := run_storeServed_error witness hstore
    rw [takeServed, if_pos hshared]
    rcases e with error | site
    · exact run_bind_of_error hserved
    · exact run_bind_of_error hserved
  by_cases hlock : lock = ledger
  swap
  · exact .inr ⟨_, s, hfailed (storeEvents_unlocked hlock), hcopies.stores⟩
  subst hlock
  have hle : loaded.events <+: chain.events := by
    rw [← sharedPrefix_eq_length_iff, sharedPrefix_comm]
    exact hshared
  have hwhole : loaded.events ++ chain.events.drop loaded.events.length = chain.events :=
    (List.prefix_append_drop hle).symm
  obtain ⟨hfits, hrefused⟩ := @StoresOf.run_storeEvents C _ setup s chain.state
    ⟨lock, chain.events, some witness.endpoint, witness.stored⟩ hcopies.stores (.inl hle)
    hchain.decodes (by dsimp only; rw [hwhole]; exact hchain.run)
  by_cases hoffered : Offered (s.filesOf lock) loaded.events.length
    (numbered C loaded.events.length (chain.events.drop loaded.events.length))
  · obtain ⟨t, hstore, hstores⟩ := hfits hoffered
    obtain ⟨u, hserved, hstores⟩ := run_storeServed_ok witness hstore hstores
    refine .inl ⟨if chain.events.length - loaded.events.length > 0 then
      .fastForwarded chain.headSeq else freshness, u, ?_, hchain, ?_⟩
    · rw [takeServed, if_pos hshared, run_bind_of_ok hserved]
      rfl
    · dsimp only at hstores
      rwa [hwhole] at hstores
  · obtain ⟨e, t, hstore, hstores⟩ := hrefused hoffered
    rcases e with error | site
    · exact .inr ⟨_, t, hfailed hstore, hstores⟩
    · exact .inr ⟨_, t, hfailed hstore, hstores⟩

/-- With the lock of another ledger, what conflicts is not replaced. -/
theorem takeServed_wrongLock (freshness : Freshness) (head : Net.Head) (hlock : lock ≠ ledger)
    (hshared : sharedPrefix loaded.events chain.events ≠ loaded.events.length) :
    run CoreOp.exec (takeServed setup lock ledger witness freshness loaded head chain) s =
      (Outcome.reject (.core (.wrongAppendLock lock ledger)), s) := by
  rw [takeServed, if_neg hshared]
  refine run_bind_of_error ?_
  rw [run_onStore, run_mapReject, truncate, run_lift_error_bind (checkLock_of_ne hlock)]
  rfl

/-- The local copy cut back to what it shares with a served chain, but no shorter than one
event. -/
theorem run_cutBack (hcopies : Copies ledger loaded s)
    (hshared : sharedPrefix loaded.events chain.events ≠ loaded.events.length) : ∃ t,
      run CoreOp.exec (onStore ((truncate setup ledger ⟨ledger,
          sharedPrefix loaded.events chain.events - 1, witness.truncated,
          witness.noted⟩).mapReject SyncError.core)) s = (.ok (), t) ∧
        StoresOf ledger (loaded.events.take (sharedPrefix loaded.events chain.events - 1 + 1)) t ∧
        ∀ k, sharedPrefix loaded.events chain.events - 1 < k →
          (t.filesOf ledger).events.get? k = none := by
  have hlt : sharedPrefix loaded.events chain.events < loaded.events.length :=
    lt_of_le_of_ne ((sharedPrefix_le _ _).trans (Nat.min_le_left _ _)) hshared
  obtain ⟨t, hrun, hstores, hpast⟩ := @StoresOf.run_truncate C _ setup s loaded.state
    ⟨ledger, sharedPrefix loaded.events chain.events - 1, witness.truncated, witness.noted⟩
    hcopies.stores hcopies.verifies.run (by dsimp only; omega)
  refine ⟨t, ?_, hstores, hpast⟩
  rw [run_onStore]
  exact run_mapReject_eq_ok.mpr hrun

/-- Where the two share an event and part behind it, the served chain takes the place of the
copy and the query is stale. -/
theorem takeServed_stale (hcopies : Copies ledger loaded s) (hchain : chain.Verifies ledger)
    (freshness : Freshness) (head : Net.Head)
    (hshared : sharedPrefix loaded.events chain.events ≠ loaded.events.length)
    (hpos : 0 < sharedPrefix loaded.events chain.events) : ∃ t,
      run CoreOp.exec (takeServed setup ledger ledger witness freshness loaded head chain) s =
        (Outcome.reject (.staleHead loaded.headSeq head.headSeq witness.endpoint), t) ∧
        StoresOf ledger chain.events t := by
  obtain ⟨t, hcut, hstores, hpast⟩ := @run_cutBack C setup ledger loaded chain s witness hcopies
    hshared
  rw [Nat.sub_add_cancel hpos, take_sharedPrefix] at hstores
  have hlen : (chain.events.take (sharedPrefix loaded.events chain.events)).length =
      sharedPrefix loaded.events chain.events := by
    rw [List.length_take, min_eq_left ((sharedPrefix_le _ _).trans (Nat.min_le_right _ _))]
  have hwhole : chain.events.take (sharedPrefix loaded.events chain.events) ++
      chain.events.drop (chain.events.take (sharedPrefix loaded.events chain.events)).length =
      chain.events := by
    rw [hlen, List.take_append_drop]
  obtain ⟨hfits, -⟩ := @StoresOf.run_storeEvents C _ setup t chain.state
    ⟨ledger, chain.events, some witness.endpoint, witness.stored⟩ hstores
    (.inl (List.take_prefix _ _)) hchain.decodes (by dsimp only; rw [hwhole]; exact hchain.run)
  have hoffered : Offered (t.filesOf ledger)
      (chain.events.take (sharedPrefix loaded.events chain.events)).length
      (numbered C (chain.events.take (sharedPrefix loaded.events chain.events)).length
        (chain.events.drop (chain.events.take
          (sharedPrefix loaded.events chain.events)).length)) := by
    refine (offered_numbered _ _ fun bytes hmem => hchain.decodes bytes
      (List.mem_of_mem_drop hmem)).mpr fun i bytes held _ hget => ?_
    rw [hpast _ (by omega)] at hget
    simp at hget
  obtain ⟨u, hstore, hstored⟩ := hfits hoffered
  obtain ⟨v, hserved, hstored⟩ := run_storeServed_ok witness hstore hstored
  refine ⟨v, ?_, ?_⟩
  · rw [takeServed, if_neg hshared, run_bind_of_ok hcut, run_bind_of_ok hserved]
    rfl
  · dsimp only at hstored
    rwa [hwhole] at hstored

/-- Where the two differ from the first event on, the query fails with the local first event
alone left of the copy. -/
theorem takeServed_torn (hcopies : Copies ledger loaded s) (hchain : chain.Verifies ledger)
    (freshness : Freshness) (head : Net.Head)
    (hzero : sharedPrefix loaded.events chain.events = 0) : ∃ k t,
      run CoreOp.exec (takeServed setup ledger ledger witness freshness loaded head chain) s =
        (Outcome.reject (.core (.divergentLocalCopy ledger k)), t) ∧
        StoresOf ledger (loaded.events.take 1) t := by
  have hshared : sharedPrefix loaded.events chain.events ≠ loaded.events.length := by
    rw [hzero]
    exact (List.length_pos_iff.mpr hcopies.verifies.ne_nil).ne
  obtain ⟨t, hcut, hstores, -⟩ := @run_cutBack C setup ledger loaded chain s witness hcopies hshared
  have hone : loaded.events.take (sharedPrefix loaded.events chain.events - 1 + 1) =
      loaded.events.take 1 := by rw [hzero]
  rw [hone] at hstores
  have hnot : ¬ Comparable (loaded.events.take 1) chain.events := by
    obtain ⟨one, left, hleft⟩ := List.exists_cons_of_ne_nil hcopies.verifies.ne_nil
    obtain ⟨other, right, hright⟩ := List.exists_cons_of_ne_nil hchain.ne_nil
    rw [hleft, hright, sharedPrefix_cons] at hzero
    rw [hleft, hright, comparable_iff]
    intro hall
    rw [if_pos (hall 0 one other rfl rfl)] at hzero
    omega
  obtain ⟨k, u, hstore, hstored⟩ := @StoresOf.storeEvents_divergent C _ setup t
    ⟨ledger, chain.events, some witness.endpoint, witness.stored⟩ hstores hnot
  have hserved := run_storeServed_error witness hstore
  refine ⟨k, u, ?_, hstored⟩
  rw [takeServed, if_neg hshared, run_bind_of_ok hcut]
  exact run_bind_of_error hserved

end Take

/-! ## One witness -/

/-- The error says that a local event lost a race. -/
def SyncError.IsStale : SyncError C → Prop
  | .staleHead _ _ _ => True
  | _ => False

/-- A witness that cannot be asked is reported as unreachable. -/
def Witness.Dials (witness : Witness C) : Prop :=
  ∀ e, witness.head = Outcome.reject e ∨ witness.served = Outcome.reject e →
    e = .peerUnreachable witness.endpoint

/-- What a query that failed at a witness left: the chain of the witness where a local event lost
a race, and what was stored before the witness was asked otherwise. -/
structure FailsCleanly (setup : Setup) (ledger : LedgerId) (v : Visit C) (error : SyncError C) :
    Prop where
  stale : error.IsStale → ∃ chain, candidate ledger v.witness = .ok (some chain) ∧
    (setup.ledger ledger).Serves (v.after.filesOf ledger) chain.events
  other : ¬ error.IsStale → ∀ log, (setup.ledger ledger).Serves (v.before.filesOf ledger) log →
    (setup.ledger ledger).Serves (v.after.filesOf ledger) log

/-- The witness is asked for its chain, and it differs from a local copy of several events in
the first of them. -/
def PartsAtFirst (setup : Setup) (ledger : LedgerId) (s : LedgerStorage C) (witness : Witness C) :
    Prop :=
  ∃ loaded head chain, Fetches setup ledger s witness loaded head chain ∧
    loaded.events.head? ≠ chain.events.head? ∧ 1 < loaded.events.length

section Visit

variable {s t : LedgerStorage C} {loaded : LoadedLedger C} {witness : Witness C}

/-- A failure for another reason that leaves the copy where it was. -/
theorem FailsCleanly.of_kept {log : List Bytes} {error : SyncError C}
    (hbefore : StoresOf ledger log s) (hafter : StoresOf ledger log t) (hnot : ¬ error.IsStale) :
    FailsCleanly setup ledger ⟨s, witness, t⟩ error := by
  refine ⟨fun hstale => absurd hstale hnot, fun _ log' hserves => ?_⟩
  obtain rfl := hserves.unique (hbefore.serves (setup.ledger ledger))
  exact hafter.serves _

/-- The failures of a query that come from the witness are no lost race. -/
theorem candidate_not_stale (hdials : witness.Dials) {error : SyncError C}
    (h : candidate ledger witness = Outcome.reject error) : ¬ error.IsStale := by
  rcases Outcome.bind_eq_error.mp h with hserved | ⟨served, -, h⟩
  · rw [hdials error (.inr hserved)]
    exact id
  rcases served with _ | _ | ⟨event, events⟩
  · simp at h
  · simp at h
  rcases Outcome.bind_eq_error.mp h with hverified | ⟨chain, -, h⟩
  swap
  · simp at h
  rw [verified] at hverified
  rcases hfold : fold C (event :: events) with (e | site) | ⟨state, _ | violation⟩
  · exact e.elim
  · simp [hfold, Outcome.panic] at hverified
  · rw [hfold] at hverified
    rcases Outcome.bind_eq_error.mp hverified with hledger | ⟨_, hledger, hfolds⟩
    · obtain ⟨-, hreject⟩ := Outcome.rejectIf_eq_error.mp hledger
      rw [Fault.reject.inj hreject]
      exact id
    · rw [Outcome.rejectIf_eq_ok, not_not] at hledger
      obtain ⟨loaded, -, -, -, hany⟩ := LoadedLedger.Verifies.of_run (fold_eq_ok.mp hfold) hledger
      exact absurd ((hany _).symm.trans hfolds) (by simp)
  · rw [hfold] at hverified
    obtain rfl : SyncError.invalidChain witness.endpoint violation = error := by
      simpa [Outcome.reject] using hverified
    exact id

/-- Where the two differ from the first event on, they share nothing. -/
theorem sharedPrefix_eq_zero_iff {left right : List Bytes} (hleft : left ≠ []) (hright : right ≠ []) :
    sharedPrefix left right = 0 ↔ left.head? ≠ right.head? := by
  obtain ⟨one, left, rfl⟩ := List.exists_cons_of_ne_nil hleft
  obtain ⟨other, right, rfl⟩ := List.exists_cons_of_ne_nil hright
  rw [sharedPrefix_cons]
  by_cases h : one = other
  · simp [h]
  · simp [h]

/-- How asking one witness ends: with a copy that verifies, with a failure that is clean exactly
when the two chains do not differ from the first event on, or in a panic of the witness's. -/
inductive Asked (setup : Setup) (lock ledger : LedgerId) (s : LedgerStorage C) (witness : Witness C) :
    Outcome (SyncError C) Freshness → LedgerStorage C → Prop
  | fresh {freshness : Freshness} {t : LedgerStorage C} (loaded : LoadedLedger C)
      (copies : Copies ledger loaded t)
      (agrees : ¬ (lock = ledger ∧ PartsAtFirst setup ledger s witness)) :
      Asked setup lock ledger s witness (.ok freshness) t
  | failed {error : SyncError C} {t : LedgerStorage C}
      (clean : FailsCleanly setup ledger ⟨s, witness, t⟩ error ↔
        ¬ (lock = ledger ∧ PartsAtFirst setup ledger s witness)) :
      Asked setup lock ledger s witness (Outcome.reject error) t
  | panicked {site : String} {t : LedgerStorage C}
      (agrees : ¬ (lock = ledger ∧ PartsAtFirst setup ledger s witness)) :
      Asked setup lock ledger s witness (Outcome.panic site) t

/-- What asking a witness that dials does to a ledger copied whole. -/
theorem asked (hcopies : Copies ledger loaded s) (hdials : witness.Dials) (freshness : Freshness) :
    Asked setup lock ledger s witness
      (run CoreOp.exec (freshenFrom setup lock ledger freshness witness) s).1
      (run CoreOp.exec (freshenFrom setup lock ledger freshness witness) s).2 := by
  obtain ⟨hloads, hlooked⟩ := @Copies.looked C setup ledger loaded s hcopies witness
  rcases @freshenFrom_cases C setup lock ledger s freshness witness with
    ⟨loaded', head, chain, hfetches, hrun⟩ | ⟨hnone, hafter, herror⟩
  swap
  · -- The chain is not fetched, and what is stored stays.
    have hagrees : ¬ (lock = ledger ∧ PartsAtFirst setup ledger s witness) := by
      rintro ⟨-, loaded', head, chain, hfetches, -⟩
      exact hnone ⟨loaded', head, chain, hfetches⟩
    rw [hafter]
    rcases hresult : (run CoreOp.exec (freshenFrom setup lock ledger freshness witness) s).1 with
      (error | site) | after
    · refine .failed (iff_of_true (.of_kept hcopies.stores hlooked.stores ?_) hagrees)
      rcases herror _ hresult with ⟨e', hload⟩ | hhead | hchain
      · exact absurd (hloads.symm.trans hload) (by simp)
      · rw [hdials error (.inl hhead)]
        exact id
      · exact candidate_not_stale hdials hchain
    · exact .panicked hagrees
    · exact .fresh loaded hlooked hagrees
  obtain rfl := Except.ok.inj (hloads.symm.trans hfetches.loads)
  have hchain := candidate_verifies hfetches.serves
  have hparts : PartsAtFirst setup ledger s witness ↔
      sharedPrefix loaded.events chain.events = 0 ∧ 1 < loaded.events.length := by
    rw [sharedPrefix_eq_zero_iff hcopies.verifies.ne_nil hchain.ne_nil]
    refine ⟨?_, fun h => ⟨loaded, head, chain, hfetches, h⟩⟩
    rintro ⟨loaded', head', chain', hfetches', h⟩
    obtain rfl := Except.ok.inj (hfetches.loads.symm.trans hfetches'.loads)
    obtain rfl := Option.some.inj (Except.ok.inj (hfetches.serves.symm.trans hfetches'.serves))
    exact h
  rw [hrun]
  by_cases hshared : sharedPrefix loaded.events chain.events = loaded.events.length
  · have hagrees : ¬ (lock = ledger ∧ PartsAtFirst setup ledger s witness) := by
      rw [hparts]
      rintro ⟨-, hzero, hlong⟩
      omega
    rcases @takeServed_forwards C setup lock ledger loaded chain (s.looked setup ledger witness)
      witness hlooked hchain freshness head hshared with ⟨after, t, htake, hcopy⟩ |
        ⟨error | site, t, htake, hkept⟩
    · rw [htake]
      exact .fresh chain hcopy hagrees
    · rw [htake]
      exact .failed (iff_of_true (.of_kept hcopies.stores hkept id) hagrees)
    · rw [htake]
      exact .panicked hagrees
  by_cases hlock : lock = ledger
  swap
  · rw [takeServed_wrongLock witness freshness head hlock hshared]
    exact .failed (iff_of_true (.of_kept hcopies.stores hlooked.stores id) fun h => hlock h.1)
  subst hlock
  rcases Nat.eq_zero_or_pos (sharedPrefix loaded.events chain.events) with hzero | hpos
  · obtain ⟨k, t, htake, hleft⟩ := @takeServed_torn C setup lock loaded chain
      (s.looked setup lock witness) witness hlooked hchain freshness head hzero
    rw [htake]
    refine .failed ?_
    rw [hparts]
    by_cases hlong : 1 < loaded.events.length
    · refine iff_of_false (fun hclean => ?_) (not_not.mpr ⟨rfl, hzero, hlong⟩)
      have hserves := hclean.other id loaded.events (hcopies.serves setup)
      have hshort := congrArg List.length (hserves.unique (hleft.serves (setup.ledger lock)))
      rw [List.length_take] at hshort
      omega
    · refine iff_of_true (.of_kept hcopies.stores ?_ id) fun h => hlong h.2.2
      rwa [List.take_of_length_le (by omega)] at hleft
  · obtain ⟨t, htake, hstored⟩ := @takeServed_stale C setup lock loaded chain
      (s.looked setup lock witness) witness hlooked hchain freshness head hshared hpos
    rw [htake]
    refine .failed (iff_of_true ⟨fun _ => ⟨chain, hfetches.serves, hstored.serves _⟩,
      fun hnot => absurd trivial hnot⟩ fun h => ?_)
    have := (hparts.mp h.2).1
    omega

end Visit

/-! ## Whole queries -/

/-- One witness is visited once. -/
theorem visits_singleton (freshness : Freshness) (s : LedgerStorage C) (witness : Witness C) :
    visits setup lock ledger s freshness [witness] =
      [⟨s, witness, (run CoreOp.exec (freshenFrom setup lock ledger freshness witness) s).2⟩] := by
  rw [visits]
  rcases run CoreOp.exec (freshenFrom setup lock ledger freshness witness) s with ⟨_ | after, t⟩
  · rfl
  · rfl

/-- A query that failed left the local copy cleanly, by its last visit. -/
def QueryFailsCleanly (setup : Setup) (ledger : LedgerId) (result : Outcome (SyncError C) Freshness)
    (visited : List (Visit C)) : Prop :=
  ∀ error, result = Outcome.reject error →
    ∃ v, visited.getLast? = some v ∧ FailsCleanly setup ledger v error

/-- Failure atomicity over the witnesses that are left to ask. -/
theorem askWitnesses_fails_cleanly_iff (witnesses : List (Witness C)) :
    ∀ (freshness : Freshness) {s : LedgerStorage C} {loaded : LoadedLedger C},
      Copies ledger loaded s → (∀ witness ∈ witnesses, witness.Dials) →
      (QueryFailsCleanly setup ledger
          (run CoreOp.exec (askWitnesses setup lock ledger freshness witnesses) s).1
          (visits setup lock ledger s freshness witnesses) ↔
        ∀ v ∈ visits setup lock ledger s freshness witnesses,
          ¬ (lock = ledger ∧ PartsAtFirst setup ledger v.before v.witness)) := by
  induction witnesses with
  | nil =>
    refine fun _ _ _ _ _ => iff_of_true (fun error h => ?_) (by simp [visits])
    simp [askWitnesses, Outcome.reject] at h
  | cons witness witnesses ih =>
    intro freshness s loaded hcopies hdials
    have hasked := @asked C setup lock ledger s loaded witness hcopies
      (hdials witness List.mem_cons_self) freshness
    rw [askWitnesses, visits]
    rcases hrun : run CoreOp.exec (freshenFrom setup lock ledger freshness witness) s with ⟨x, t⟩
    rw [hrun] at hasked
    cases hasked with
    | fresh loaded' copies agrees =>
      rename_i after
      rw [run_bind_of_ok hrun]
      dsimp only
      rw [List.forall_mem_cons, and_iff_right agrees, ← ih after copies fun w hw => hdials w
        (List.mem_cons_of_mem _ hw)]
      refine forall_congr' fun error => imp_congr_right fun herror => ?_
      have hmore : visits setup lock ledger t after witnesses ≠ [] := by
        cases witnesses with
        | nil => simp [askWitnesses, Outcome.reject] at herror
        | cons next rest => exact List.ne_nil_of_mem (first_visit after t next rest)
      rw [List.getLast?_cons, List.getLast?_eq_some_getLast hmore]
      rfl
    | failed clean =>
      rw [run_bind_of_error hrun]
      dsimp only
      rw [List.forall_mem_singleton, ← clean]
      constructor
      · intro h
        obtain ⟨v, hv, hclean⟩ := h _ rfl
        obtain rfl := Option.some.inj hv
        exact hclean
      · rintro hclean error herror
        obtain rfl := Fault.reject.inj (Except.error.inj herror)
        exact ⟨_, rfl, hclean⟩
    | panicked agrees =>
      rw [run_bind_of_error hrun]
      dsimp only
      rw [List.forall_mem_singleton]
      refine iff_of_true (fun error herror => ?_) agrees
      exact absurd (Except.error.inj herror) (by simp)

/-- Failure atomicity of a query. For every local copy that verifies and whatever the witnesses
answer: a query that fails for another reason than a lost race leaves what was stored when the
failing witness was asked, and one that lost a race leaves exactly the chain of the witness that
won it, if and only if no witness that is asked for its chain, under the lock of the ledger,
serves one that differs from a local copy of several events in the first of them. -/
theorem query_fails_cleanly_iff (setup : Setup) (lock ledger : LedgerId)
    (witnesses : List (Witness C)) (s : LedgerStorage C) {loaded : LoadedLedger C}
    (hserves : (setup.ledger ledger).Serves (s.filesOf ledger) loaded.events)
    (hverifies : loaded.Verifies ledger) (hdials : ∀ witness ∈ witnesses, witness.Dials) :
    QueryFailsCleanly setup ledger
        (run CoreOp.exec (ensureFreshLocked setup lock ledger witnesses) s).1
        (visits setup lock ledger s .upToDate witnesses) ↔
      ∀ v ∈ visits setup lock ledger s .upToDate witnesses,
        ¬ (lock = ledger ∧ PartsAtFirst setup ledger v.before v.witness) :=
  askWitnesses_fails_cleanly_iff witnesses .upToDate
    ⟨hverifies, .of_serves hserves hverifies.decodes⟩ hdials

/-- The sample's first two events verify as a copy. -/
theorem copyVerifies_sampleLoaded : (sampleLoaded (sampleLedger.take 2)).Verifies sampleLedgerId ∧
    (sampleLoaded (sampleLedger.take 2)).events = sampleLedger.take 2 := by
  obtain ⟨hevents, hvalid⟩ : (sampleLoaded (sampleLedger.take 2)).events = sampleLedger.take 2 ∧
      (sampleLoaded (sampleLedger.take 2)).violation = none ∧
      (sampleLoaded (sampleLedger.take 2)).state.ledger = some sampleLedgerId := by decide +kernel
  exact ⟨verifies_sampleLoaded _ hvalid, hevents⟩

/-- A witness that reports a head past the local copy and serves the inception alone. -/
theorem query_fails_cleanly_iff_sampleLiar :
    QueryFailsCleanly sampleSetup sampleLedgerId
        (run CoreOp.exec (ensureFreshLocked sampleSetup sampleLedgerId sampleLedgerId [sampleLiar])
          sampleCopy).1
        (visits sampleSetup sampleLedgerId sampleLedgerId sampleCopy .upToDate [sampleLiar]) ↔
      ∀ v ∈ visits sampleSetup sampleLedgerId sampleLedgerId sampleCopy .upToDate [sampleLiar],
        ¬ (sampleLedgerId = sampleLedgerId ∧
          PartsAtFirst sampleSetup sampleLedgerId v.before v.witness) := by
  obtain ⟨hverifies, hevents⟩ := copyVerifies_sampleLoaded
  refine query_fails_cleanly_iff sampleSetup sampleLedgerId sampleLedgerId [sampleLiar] sampleCopy
    ?_ hverifies ?_
  · rw [hevents]
    exact storesOf_sampleCopy.serves _
  · rw [List.forall_mem_singleton]
    rintro e (hhead | hserved)
    · simp [sampleLiar, Outcome.reject] at hhead
    · simp [sampleLiar, Outcome.reject] at hserved

/-! ## Two signatures of one inception -/

/-- An inception signed in one of two ways, with one of two events behind it. -/
def resignedPair (second : Bool) : List Bytes :=
  match buildTrustAttestation (SecretKey.resigning 1 false)
    ⟨resignedLedger, 1, Mabel.eventIdOf Crypto.resigning ((resignedChain false).headD []), 1000,
      one_le_u64Max⟩ ⟨.ofNat idBytes (if second then 9 else 8)⟩ 5000 with
  | .ok built => resignedChain second ++ [built.signedEvent]
  | .error _ => []

/-- A home that stores one of the two chains. -/
def resignedCopy : LedgerStorage Crypto.resigning :=
  ((LedgerStorage.empty sampleSetup (SortedMap.empty.insert resignedLedger ⟨true, none⟩)
    (SecretKey.resigning 1 false).publicKey).push
      ⟨resignedLedger, resignedPair false, ⟨none⟩, sampleClock⟩).2

/-- A witness of the other chain. -/
def resignedWitness : Witness Crypto.resigning where
  endpoint := (SecretKey.resigning 2 false).publicKey
  head := .ok (some ⟨1, Mabel.eventIdOf Crypto.resigning ((resignedPair true).getLastD []), 2⟩)
  served := .ok (some (resignedPair true))
  controller := none
  loaded := 1
  truncated := 2
  noted := ⟨3, 4⟩
  stored := ⟨5, 6, 7, 8, ⟨9, 10⟩⟩

/-- A witness holds the same inception under another signature, with another event behind it. The
query fails with a divergent local copy, which is no lost race, and the second local event is
gone. -/
theorem resigned_inception_tears_copy :
    (resignedCopy.filesOf resignedLedger).stored = resignedPair false ∧
      (run CoreOp.exec (ensureFreshLocked sampleSetup resignedLedger resignedLedger
        [resignedWitness]) resignedCopy).1 =
          Outcome.reject (.core (.divergentLocalCopy resignedLedger 0)) ∧
      ((run CoreOp.exec (ensureFreshLocked sampleSetup resignedLedger resignedLedger
        [resignedWitness]) resignedCopy).2.filesOf resignedLedger).stored =
          (resignedPair false).take 1 ∧
      ¬ QueryFailsCleanly sampleSetup resignedLedger
        (run CoreOp.exec (ensureFreshLocked sampleSetup resignedLedger resignedLedger
          [resignedWitness]) resignedCopy).1
        (visits sampleSetup resignedLedger resignedLedger resignedCopy .upToDate
          [resignedWitness]) := by
  obtain ⟨hbefore, hresult, hafter, hread, hholds, hdecodes, hseq⟩ :
      (resignedCopy.filesOf resignedLedger).stored = resignedPair false ∧
      (run CoreOp.exec (ensureFreshLocked sampleSetup resignedLedger resignedLedger
        [resignedWitness]) resignedCopy).1 =
          Outcome.reject (.core (.divergentLocalCopy resignedLedger 0)) ∧
      ((run CoreOp.exec (ensureFreshLocked sampleSetup resignedLedger resignedLedger
        [resignedWitness]) resignedCopy).2.filesOf resignedLedger).stored =
          (resignedPair false).take 1 ∧
      (run FileOp.exec ((sampleSetup.ledger resignedLedger).readAll 0)
        ((run CoreOp.exec (ensureFreshLocked sampleSetup resignedLedger resignedLedger
          [resignedWitness]) resignedCopy).2.filesOf resignedLedger)).1 ≠
            .ok (storedEvents (resignedPair false)) ∧
      (∀ seq < (resignedPair false).length,
        (resignedCopy.filesOf resignedLedger).events.get? seq = (resignedPair false)[seq]?) ∧
      (∀ bytes ∈ resignedPair false, (SignedEvent.decode bytes).isSome = true) ∧
      (resignedCopy.filesOf resignedLedger).headFile.map (fun head => head.seq + 1) =
        some (resignedPair false).length := by decide +kernel
  obtain ⟨head, hhead, hseq⟩ := Option.map_eq_some_iff.mp hseq
  have hstores : StoresOf resignedLedger (resignedPair false) resignedCopy :=
    .of_cached hholds hdecodes hhead hseq
  refine ⟨hbefore, hresult, hafter, fun h => ?_⟩
  obtain ⟨v, hv, hclean⟩ := h _ hresult
  rw [visits_singleton] at hv
  obtain rfl := Option.some.inj hv
  have hserves := hclean.other id _ (hstores.serves _)
  rw [ensureFreshLocked, run_askWitnesses_visits, visits_singleton] at hread
  exact hread (hserves 0)

end Mabel.Node
