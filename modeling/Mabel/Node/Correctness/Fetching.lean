import Mabel.Node.Correctness.Atomicity

/-!
# What a fetch reports

Storing keeps the longer of the local copy and the served chain, while the report and the
control link are taken from the served one. The two agree exactly where the local copy is not
the longer one.
-/

namespace Mabel.Node

open Wire Proto Net Program

variable {C : Crypto}

/-! ## The control link -/

namespace NodeHome

/-- The local identity a ledger is linked to. -/
def controlLink (home : NodeHome C) (ledger : LedgerId) : Option IdentityId :=
  (home.identities.get? ledger).bind IdentityFiles.controlledBy

/-- The active key of an identity that signs for itself here is a controller key of a state. -/
def ControlledHere (home : NodeHome C) (keys : ActiveKeys C) (state : LedgerState C) : Prop :=
  ∃ identity secret, home.keysItself identity = true ∧ keys identity = some secret ∧
    secret.publicKey ∈ state.controllerKeys

variable {home : NodeHome C} {keys : ActiveKeys C} {ledger : LedgerId} {state : LedgerState C}

/-- Writing an identity leaves who keys itself. -/
theorem keysItself_writeIdentity (home : NodeHome C) (identity other : IdentityId)
    (controlledBy : Option IdentityId) :
    (home.writeIdentity identity controlledBy).keysItself other = home.keysItself other := by
  change ((home.identities.insert identity ⟨home.keysItself identity, controlledBy⟩).get?
    other).any IdentityFiles.activeKey = _
  rw [SortedMap.get?_insert]
  by_cases h : other = identity
  · rw [if_pos h, h]
    rfl
  · rw [if_neg h]
    rfl

/-- The control link just written. -/
theorem controlLink_writeIdentity (home : NodeHome C) (identity : IdentityId)
    (controlledBy : Option IdentityId) :
    (home.writeIdentity identity controlledBy).controlLink identity = controlledBy := by
  change ((home.identities.insert identity ⟨home.keysItself identity, controlledBy⟩).get?
    identity).bind IdentityFiles.controlledBy = _
  rw [SortedMap.get?_insert, if_pos rfl]
  rfl

/-- Linking the control of a ledger leaves every key where it is. -/
theorem keysItself_linkControl (home : NodeHome C) (ledger : LedgerId)
    (controller : Option IdentityId) (identity : IdentityId) :
    (home.linkControl ledger controller).keysItself identity = home.keysItself identity := by
  unfold linkControl
  by_cases hkeys : home.keysItself ledger = true
  · rw [if_pos hkeys]
  · rw [if_neg hkeys]
    cases controller with
    | some controller => exact keysItself_writeIdentity ..
    | none =>
      dsimp only
      split_ifs
      · exact keysItself_writeIdentity ..
      · rfl

/-- The link of a ledger without a key of its own is the one that was found for it. -/
theorem controlLink_linkControl (hkeys : home.keysItself ledger = false)
    (controller : Option IdentityId) :
    (home.linkControl ledger controller).controlLink ledger = controller := by
  unfold linkControl
  rw [if_neg (by simp [hkeys])]
  cases controller with
  | some controller => exact controlLink_writeIdentity ..
  | none =>
    dsimp only
    split_ifs with hlinked
    · exact controlLink_writeIdentity ..
    · exact Option.not_isSome_iff_eq_none.mp hlinked

/-- A local controller is found exactly when there is one. -/
theorem localController_isSome_iff (hkeys : home.keysItself ledger = false) :
    (home.localController keys ledger state).isSome = true ↔ home.ControlledHere keys state := by
  unfold localController
  dsimp only
  by_cases hnone : state.controllerKeys = []
  · rw [if_pos hnone]
    refine iff_of_false (by simp) ?_
    rintro ⟨identity, secret, -, -, hmem⟩
    rw [hnone] at hmem
    simp at hmem
  rw [if_neg hnone, List.find?_isSome]
  constructor
  · rintro ⟨identity, hmem, hfound⟩
    rw [keyedIdentities, List.mem_filter] at hmem
    rw [Bool.and_eq_true, Option.any_eq_true] at hfound
    obtain ⟨-, secret, hsecret, hcontroller⟩ := hfound
    rw [identityActiveKey, signingIdentity, if_pos hmem.2] at hsecret
    exact ⟨identity, secret, hmem.2, hsecret, of_decide_eq_true hcontroller⟩
  · rintro ⟨identity, secret, hkeyed, hsecret, hcontroller⟩
    have hlisted : identity ∈ home.identities.keys := by
      rw [keysItself, Option.any_eq_true] at hkeyed
      obtain ⟨files, hfiles, -⟩ := hkeyed
      exact SortedMap.mem_keys.mpr ⟨files, hfiles⟩
    have hne : identity ≠ ledger := by
      rintro rfl
      rw [hkeys] at hkeyed
      simp at hkeyed
    refine ⟨identity, List.mem_filter.mpr ⟨hlisted, hkeyed⟩, ?_⟩
    rw [Bool.and_eq_true, Option.any_eq_true, identityActiveKey, signingIdentity, if_pos hkeyed]
    exact ⟨decide_eq_true hne, secret, hsecret, decide_eq_true hcontroller⟩

/-- Once the control of a ledger is linked, the link is set exactly when the loaded state names
a local controller key. -/
theorem controlLink_linkLocalControl {loaded : LoadedLedger C} (hledger : loaded.ledger = ledger)
    (hkeys : (home.linkLocalControl keys loaded).2.keysItself ledger = false) :
    ((home.linkLocalControl keys loaded).2.controlLink ledger).isSome = true ↔
      (home.linkLocalControl keys loaded).2.ControlledHere keys loaded.state := by
  subst hledger
  by_cases hown : home.keysItself loaded.ledger = true
  · rw [linkLocalControl, if_pos hown] at hkeys
    rw [hown] at hkeys
    simp at hkeys
  have hnot : home.keysItself loaded.ledger = false := by simpa using hown
  rw [linkLocalControl, if_neg hown]
  dsimp only
  rw [controlLink_linkControl hnot, localController_isSome_iff hnot]
  unfold ControlledHere
  simp only [keysItself_linkControl]

end NodeHome

/-! ## The report -/

/-- A report of a fetch, and the control link it left, are those of a chain. -/
structure ReportsStored (keys : ActiveKeys C) (ledger : LedgerId) (fetched : Fetched C)
    (t : LedgerStorage C) (stored : LoadedLedger C) : Prop where
  headSeq : fetched.headSeq = stored.headSeq
  headEvent : fetched.headEvent = stored.headEvent
  /-- Where the home holds no key files of the ledger's own. -/
  link : t.home.keysItself ledger = false → ((t.home.controlLink ledger).isSome = true ↔
    t.home.ControlledHere keys stored.state)

section Fetch

variable {s t : LedgerStorage C} {keys : ActiveKeys C} {ledger : LedgerId} {source : Witness C}
  {now : Nat} {chain : LoadedLedger C} {fetched : Fetched C}

/-- What a fetch that answers did. -/
theorem fetch_eq_ok (hchain : candidate ledger source = .ok (some chain))
    (h : s.fetch keys ledger source now = (.ok fetched, t)) : ∃ stored u,
      run StoreOp.exec (storeEvents s.setup ledger
        ⟨ledger, chain.events, some source.endpoint, source.stored⟩) s = (.ok stored, u) ∧
      fetched.headSeq = chain.headSeq ∧ fetched.headEvent = chain.headEvent ∧
      t = { u with home := (u.home.linkLocalControl keys chain).2 } := by
  rw [LedgerStorage.fetch, hchain] at h
  dsimp only at h
  rcases hrun : run StoreOp.exec (storeEvents s.setup ledger
    ⟨ledger, chain.events, some source.endpoint, source.stored⟩) s with ⟨(error | site) | stored, u⟩
  · simp [hrun] at h
  · simp [hrun] at h
  · rw [hrun] at h
    obtain ⟨hfetched, rfl⟩ := Prod.mk.inj h
    obtain rfl := Except.ok.inj hfetched
    exact ⟨stored, u, rfl, rfl, rfl, rfl⟩

/-- Linking local control leaves the ledgers' files. -/
theorem filesOf_linkLocalControl (home : NodeHome C) (l : LedgerId) :
    (home.linkLocalControl keys chain).2.files.get l = home.files.get l := by
  rw [NodeHome.linkLocalControl]
  split_ifs
  · rfl
  · rw [NodeHome.files_linkControl]

/-- A fetch that answers leaves the longer of the two chains. -/
theorem fetch_stores {log : List Bytes} {loaded : LoadedLedger C} (hstores : StoresOf ledger log s)
    (hchain : candidate ledger source = .ok (some chain)) (hcomparable : Comparable log chain.events)
    (hwhole : loaded.Verifies ledger)
    (hlonger : loaded.events = log ++ chain.events.drop log.length)
    (h : s.fetch keys ledger source now = (.ok fetched, t)) : StoresOf ledger loaded.events t := by
  obtain ⟨stored, u, hrun, -, -, rfl⟩ := fetch_eq_ok hchain h
  have hverifies := candidate_verifies hchain
  obtain ⟨hfits, hrefused⟩ := @StoresOf.run_storeEvents C _ s.setup s loaded.state
    ⟨ledger, chain.events, some source.endpoint, source.stored⟩ hstores hcomparable
    hverifies.decodes (by dsimp only; rw [← hlonger]; exact hwhole.run)
  have hafter : StoresOf ledger loaded.events u := by
    rw [hlonger]
    by_cases hoffered : Offered (s.filesOf ledger) log.length
      (numbered C log.length (chain.events.drop log.length))
    · obtain ⟨t, hstore, hstored⟩ := hfits hoffered
      obtain ⟨-, rfl⟩ := Prod.mk.inj (hstore.symm.trans hrun)
      exact hstored
    · obtain ⟨e, t, hstore, -⟩ := hrefused hoffered
      obtain ⟨hfailed, -⟩ := Prod.mk.inj (hstore.symm.trans hrun)
      rcases e with error | site
      · simp [Outcome.mapReject] at hfailed
      · simp [Outcome.mapReject] at hfailed
  change Stores ((u.home.linkLocalControl keys chain).2.files.get ledger) loaded.events
  rw [filesOf_linkLocalControl]
  exact hafter

end Fetch

/-- For every local copy that verifies, or none, and every served chain that verifies and does not
part from it: once a fetch answers, its report and the control link are those of the chain that
is stored then, if and only if the local copy was not longer than what the source served. -/
theorem fetch_reports_stored_iff (s : LedgerStorage C) (keys : ActiveKeys C) (ledger : LedgerId)
    (source : Witness C) (now : Nat) {log : List Bytes} {chain : LoadedLedger C}
    {fetched : Fetched C} {t : LedgerStorage C}
    (hserves : (s.setup.ledger ledger).Serves (s.filesOf ledger) log)
    (hlocal : log = [] ∨ ∃ loaded : LoadedLedger C, loaded.Verifies ledger ∧ loaded.events = log)
    (hchain : candidate ledger source = .ok (some chain))
    (hcomparable : Comparable log chain.events)
    (hok : s.fetch keys ledger source now = (.ok fetched, t)) :
    (∃ stored : LoadedLedger C, stored.Verifies ledger ∧
      (s.setup.ledger ledger).Serves (t.filesOf ledger) stored.events ∧
      ReportsStored keys ledger fetched t stored) ↔ log.length ≤ chain.events.length := by
  have hstores : StoresOf ledger log s := by
    refine .of_serves hserves fun bytes hmem => ?_
    rcases hlocal with rfl | ⟨loaded, hverifies, rfl⟩
    · simp at hmem
    · exact hverifies.decodes bytes hmem
  have hverifies := candidate_verifies hchain
  obtain ⟨stored, u, -, hseq, hevent, hlinked⟩ := fetch_eq_ok hchain hok
  constructor
  · rintro ⟨after, hafter, hreads, hreports⟩
    by_contra hlonger
    have hle : chain.events <+: log := hcomparable.symm.prefix_of_le (by omega)
    obtain ⟨loaded, hloaded, rfl⟩ := hlocal.resolve_left (by rintro rfl; simp at hlonger)
    have hkept := fetch_stores hstores hchain hcomparable hloaded (by
      rw [List.drop_of_length_le (by omega), List.append_nil]) hok
    have hsame := hreads.unique (hkept.serves (s.setup.ledger ledger))
    have hheads := hreports.headSeq
    rw [hseq, hverifies.head_eq.1, hafter.head_eq.1, hsame] at hheads
    have hpos := List.length_pos_iff.mpr hverifies.ne_nil
    omega
  · intro hle
    have hbefore : log <+: chain.events := hcomparable.prefix_of_le hle
    have hkept := fetch_stores hstores hchain hcomparable hverifies
      (List.prefix_append_drop hbefore) hok
    refine ⟨chain, hverifies, hkept.serves _, hseq, hevent, fun hkeys => ?_⟩
    rw [hlinked] at hkeys ⊢
    exact NodeHome.controlLink_linkLocalControl
      (LoadedLedger.foldFrom_eq_ok chain.events hverifies.folds).ledger hkeys

/-! ## Sample fetches -/

/-- A source that serves the first events of the sample ledger. -/
def sampleSource (count : Nat) : Witness Crypto.sample :=
  { sampleLiar with served := .ok (some (sampleLedger.take count)) }

/-- A home whose only readable key is that of the sample ledger. -/
def sampleKeys : ActiveKeys Crypto.sample :=
  fun identity => if identity = sampleLedgerId then some (SecretKey.sample 1) else none

/-- A fetch of what is stored already. -/
theorem fetch_reports_stored_iff_sampleSource : ∃ fetched t,
    sampleCopy.fetch sampleKeys sampleLedgerId (sampleSource 2) 7 = (.ok fetched, t) ∧
      ((∃ stored : LoadedLedger Crypto.sample, stored.Verifies sampleLedgerId ∧
        (sampleCopy.setup.ledger sampleLedgerId).Serves (t.filesOf sampleLedgerId) stored.events ∧
        ReportsStored sampleKeys sampleLedgerId fetched t stored) ↔
          (sampleLedger.take 2).length ≤ (sampleLoaded (sampleLedger.take 2)).events.length) := by
  obtain ⟨hchain, hanswers⟩ : candidate sampleLedgerId (sampleSource 2) =
        .ok (some (sampleLoaded (sampleLedger.take 2))) ∧
      (sampleCopy.fetch sampleKeys sampleLedgerId (sampleSource 2) 7).1.isOk = true := by
    decide +kernel
  rcases hfetch : sampleCopy.fetch sampleKeys sampleLedgerId (sampleSource 2) 7 with ⟨e | fetched, t⟩
  · rw [hfetch] at hanswers
    simp [Except.isOk, Except.toBool] at hanswers
  obtain ⟨hverifies, hevents⟩ := copyVerifies_sampleLoaded
  refine ⟨fetched, t, rfl, ?_⟩
  exact fetch_reports_stored_iff sampleCopy sampleKeys sampleLedgerId (sampleSource 2) 7
    (storesOf_sampleCopy.serves _) (.inr ⟨_, hverifies, hevents⟩) hchain
    (by rw [hevents]; exact .refl _) hfetch

/-- The home stores two events and the source serves the first of them: the fetch reports the
first as the head after storing, while both are stored. -/
theorem short_source_misreports_head : ∃ fetched t,
    sampleCopy.fetch sampleKeys sampleLedgerId (sampleSource 1) 7 = (.ok fetched, t) ∧
      fetched.headSeq = 0 ∧ (t.filesOf sampleLedgerId).stored = sampleLedger.take 2 ∧
      ¬ ∃ stored : LoadedLedger Crypto.sample, stored.Verifies sampleLedgerId ∧
        (sampleCopy.setup.ledger sampleLedgerId).Serves (t.filesOf sampleLedgerId) stored.events ∧
        ReportsStored sampleKeys sampleLedgerId fetched t stored := by
  obtain ⟨hhead, hstored, hread⟩ :
      (sampleCopy.fetch sampleKeys sampleLedgerId (sampleSource 1) 7).1.map Fetched.headSeq =
        .ok 0 ∧
      ((sampleCopy.fetch sampleKeys sampleLedgerId (sampleSource 1) 7).2.filesOf
        sampleLedgerId).stored = sampleLedger.take 2 ∧
      (run FileOp.exec ((sampleCopy.setup.ledger sampleLedgerId).readAll 0)
        ((sampleCopy.fetch sampleKeys sampleLedgerId (sampleSource 1) 7).2.filesOf
          sampleLedgerId)).1 = .ok (storedEvents (sampleLedger.take 2)) := by decide +kernel
  rcases hfetch : sampleCopy.fetch sampleKeys sampleLedgerId (sampleSource 1) 7 with ⟨e | fetched, t⟩
  · rw [hfetch] at hhead
    simp [Except.map] at hhead
  rw [hfetch] at hhead hstored hread
  refine ⟨fetched, t, rfl, Except.ok.inj hhead, hstored, ?_⟩
  rintro ⟨stored, hverifies, hserves, hreports⟩
  have hevents := storedEvents_injective (Except.ok.inj ((hserves 0).symm.trans hread))
  have hseq := hreports.headSeq
  rw [Except.ok.inj hhead, hverifies.head_eq.1, hevents] at hseq
  exact absurd hseq (by decide +kernel)

end Mabel.Node
