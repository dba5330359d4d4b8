import Mabel.Ledger.Fold.Membership
import Mabel.Ledger.Sign.Build

/-!
# Control of a ledger

Whatever byte strings are handed to the fold, somebody controls the ledger, the root of a
self-keyed ledger stays where its inception put it, and a key signs for one identity.
Each follows from the roster the fold keeps.
-/

namespace Mabel

open Wire Proto Validate Machine

variable {C : Crypto}

theorem sound_after (events : List Bytes) : (after C events).roster.Sound :=
  (foldRun_after events).roster.sound

/-- The founder is known from the root and the id of the ledger. -/
theorem rootIdentity_of_seeds {s : LedgerState C} {id : EventId} {r : Option Root}
    {root : LedgerRoot C} {rid : IdentityId} {key : PublicKey C}
    (h : LedgerState.Seeds id r root rid key) (hroot : s.root = some root)
    (hledger : s.ledger = some id.toIdentity) : s.rootIdentity = some rid := by
  rw [LedgerState.rootIdentity, hroot, Option.bind_some, hledger]
  cases h <;> rfl

/-! ## A ledger is never left without a controller -/

/-- A ledger with a head has a controller, whatever bytes were offered to it: the roster's
soundness holds in every folded state. -/
theorem after_controlled (events : List Bytes) (hhead : (after C events).head ≠ none) :
    (∃ id p, (after C events).principals.get? id = some p ∧ p.role = .controller) ∧
      (after C events).controllerKeys ≠ [] := by
  obtain ⟨first, rest, -, ⟨f⟩⟩ := (foldRun_after events).founded hhead
  obtain ⟨id, hcontrols⟩ := (sound_after events).controlled f.rid
    (rootIdentity_of_seeds f.seeds f.root_eq f.ledger_eq)
  obtain ⟨key, hget⟩ := roster_controls.mp hcontrols
  exact ⟨⟨id, _, hget, rfl⟩,
    List.ne_nil_of_mem (LedgerState.mem_controllerKeys.mpr ⟨id, hget⟩)⟩

/-- All five events of the sample ledger apply, and it has a controller then. -/
theorem after_controlled_sampleLedger :
    (acceptedOf Crypto.sample sampleLedger).length = 5 ∧
      (∃ id p, (after Crypto.sample sampleLedger).principals.get? id = some p ∧
        p.role = .controller) ∧
      (after Crypto.sample sampleLedger).controllerKeys ≠ [] := by
  have hhead : (after Crypto.sample sampleLedger).head ≠ none := by decide +kernel
  exact ⟨by decide +kernel, after_controlled sampleLedger hhead⟩

/-! ## The root of a self-keyed ledger is permanent -/

/-- A raw root, its key and the ledger's id are the first accepted event's, and once there is a
head no continuation changes ledger, root or kind. -/
theorem root_permanent (events : List Bytes) :
    (∀ key commit, (after C events).root = some (.raw key commit) →
      ∃ first rest signed body i m, acceptedOf C events = first :: rest ∧
        openEvent first = some (signed, body, .inception i) ∧ i.root = some (.rawRoot m) ∧
        m.activeKey = key.asBytes ∧
        (after C events).ledger = some (eventId C signed.body).toIdentity ∧
        (after C events).principals.get? (eventId C signed.body).toIdentity =
          some ⟨.controller, key⟩) ∧
    ((after C events).head ≠ none → ∀ more,
      (after C (events ++ more)).ledger = (after C events).ledger ∧
      (after C (events ++ more)).root = (after C events).root ∧
      (after C (events ++ more)).declaredKind = (after C events).declaredKind) := by
  constructor
  · intro key commit hroot
    have hhead : (after C events).head ≠ none := fun h => by
      rw [((foldRun_after events).empty_of_head h).2] at hroot
      simp [LedgerState.default] at hroot
    obtain ⟨first, rest, hlog, ⟨signed, body, i, kind, root, rid, key', hopened, hkind, hseeds, -,
      hfroot, hledger⟩⟩ := (foldRun_after events).founded hhead
    obtain rfl : root = .raw key commit := Option.some.inj (hfroot.symm.trans hroot)
    have hseat := (sound_after events).permanent (eventId C signed.body).toIdentity key (by
      simp [LedgerState.roster, hroot, hledger])
    obtain ⟨key', hget⟩ := roster_controls.mp ⟨key, hseat⟩
    obtain rfl : key' = key := by
      rw [roster_seat hget] at hseat
      exact congrArg Seat.key (Option.some.inj hseat)
    generalize hir : i.root = iroot at hseeds
    cases hseeds with
    | @raw m _ _ hkey hcommit =>
      exact ⟨first, rest, signed, body, i, m, hlog, openEvent_of_opened hopened, hir, hkey,
        hledger, hget⟩
  · intro hhead more
    obtain ⟨-, hkind, hroot, hledger⟩ := fixed_of_runFrom (runFrom_after events more) hhead
    exact ⟨hledger, hroot, hkind⟩

/-! ## A key signs for one identity -/

/-- Two principals of one ledger hold different keys. -/
theorem principals_key_unique (events : List Bytes) {i j : IdentityId} {p q : Principal C}
    (hp : (after C events).principals.get? i = some p)
    (hq : (after C events).principals.get? j = some q) (hkey : p.activeKey = q.activeKey) :
    i = j :=
  (sound_after events).keys i j p.seat q.seat (roster_seat hp) (roster_seat hq) hkey

/-- A controller's key signs for that controller. -/
theorem signingPrincipal_of_controller (events : List Bytes) {who : IdentityId}
    {key : PublicKey C} (h : (after C events).principals.get? who = some ⟨.controller, key⟩) :
    (after C events).signingPrincipal key = some ⟨who, key⟩ := by
  obtain ⟨⟨identity, key'⟩, hsp⟩ := Option.isSome_iff_exists.mp
    (LedgerState.signingPrincipal_isSome.mpr ⟨who, h⟩)
  obtain ⟨hkey, hget⟩ := LedgerState.signingPrincipal_some hsp
  simp only at hkey hget
  rw [hsp, hkey, principals_key_unique events hget h rfl]

/-- One byte string changes the key of no principal it leaves in place. -/
theorem principals_key_step (events : List Bytes) (event : Bytes) {id : IdentityId}
    {p q : Principal C} (hp : (after C events).principals.get? id = some p)
    (hq : (after C (events ++ [event])).principals.get? id = some q) :
    p.activeKey = q.activeKey := by
  rw [after, replay_append] at hq
  rcases offer_cases (after C events) event with haccept | hsame
  · obtain ⟨st⟩ := apply_iff.mp haccept
    have hmoves := st.moves (foldRun_after events) (sound_after events)
    exact hmoves.key_eq (sound_after events) (roster_seat hp) (roster_seat hq)
  · have hq' : (after C events).principals.get? id = some q := hsame ▸ hq
    rw [Option.some.inj (hp.symm.trans hq')]

/-- A principal that stays present keeps its key. -/
theorem principals_key_stays (events segment : List Bytes) {id : IdentityId}
    (hpresent : ∀ k ≤ segment.length,
      (after C (events ++ segment.take k)).principals.get? id ≠ none) {p q : Principal C}
    (hp : (after C events).principals.get? id = some p)
    (hq : (after C (events ++ segment)).principals.get? id = some q) :
    p.activeKey = q.activeKey := by
  induction segment using List.reverseRecOn generalizing q with
  | nil =>
    rw [List.append_nil] at hq
    rw [Option.some.inj (hp.symm.trans hq)]
  | append_singleton segment event ih =>
    have hbefore : ∀ k ≤ segment.length, (segment ++ [event]).take k = segment.take k :=
      fun k hk => List.take_append_of_le_length hk
    obtain ⟨mid, hmid⟩ := Option.ne_none_iff_exists'.mp
      (hpresent segment.length (by simp))
    rw [hbefore _ le_rfl, List.take_length] at hmid
    refine (ih (fun k hk => ?_) hmid).trans ?_
    · rw [← hbefore k hk]
      exact hpresent k (hk.trans (by simp))
    · rw [← List.append_assoc] at hq
      exact principals_key_step (events ++ segment) event hmid hq

/-- A key names at most one principal of the ledger, the lookup finds it in any order of the
entries, and a principal's key stays while the principal does. -/
theorem signer_attribution (events : List Bytes) :
    (∀ i j p q, (after C events).principals.get? i = some p →
      (after C events).principals.get? j = some q → p.activeKey = q.activeKey → i = j) ∧
    (∀ key sp, (after C events).signingPrincipal key = some sp ↔
      sp.key = key ∧ (after C events).principals.get? sp.identity = some ⟨.controller, key⟩) ∧
    (∀ key (entries : List (IdentityId × Principal C)), entries.Perm (after C events).principals.entries →
      (entries.find? fun e => decide (e.2.role = .controller) &&
        decide (e.2.activeKey = key)).map (fun e => ⟨e.1, key⟩) =
          (after C events).signingPrincipal key) ∧
    (∀ segment id p q, (∀ k ≤ segment.length,
        (after C (events ++ segment.take k)).principals.get? id ≠ none) →
      (after C events).principals.get? id = some p →
      (after C (events ++ segment)).principals.get? id = some q → p.activeKey = q.activeKey) := by
  refine ⟨fun i j p q => principals_key_unique events, fun key sp => ⟨?_, ?_⟩, ?_,
    fun segment id p q hpresent => principals_key_stays events segment hpresent⟩
  · exact LedgerState.signingPrincipal_some
  · rintro ⟨hkey, hget⟩
    rw [signingPrincipal_of_controller events hget, ← hkey]
  · intro key entries hperm
    rw [LedgerState.signingPrincipal]
    congr 1
    refine SortedMap.find?_of_perm hperm ?_
    rintro ⟨i, p⟩ hp ⟨j, q⟩ hq hcp hcq
    simp only [Bool.and_eq_true, decide_eq_true_eq] at hcp hcq
    obtain rfl := principals_key_unique events (SortedMap.get?_eq_some.mpr hp)
      (SortedMap.get?_eq_some.mpr hq) (hcp.2.trans hcq.2.symm)
    rw [Option.some.inj ((SortedMap.get?_eq_some.mpr hp).symm.trans
      (SortedMap.get?_eq_some.mpr hq))]

end Mabel
