import Mabel.Ledger.Fold.Change
import Mabel.Ledger.Validate.Totality

/-!
# Verification stops at no assertion

The fold unwraps what the validator checked: ids, keys and signatures have their lengths,
kinds and roles are defined, payloads and roots are present. What it unwraps from the
state is there because the state was reached through the fold, and what it unwraps while
it commits is there because the check of the same event found it.
-/

namespace Mabel

open Wire Proto Validate Outcome

variable {C : Crypto}

/-! ## Field readers -/

theorem identity_noPanic {bytes : Bytes} (h : bytes.length = idBytes) :
    NoPanic (identity bytes : Checked C IdentityId) :=
  NoPanic.expect (IdentityId.exists_fromSlice h)

theorem publicKey_noPanic {bytes : Bytes} (h : bytes.length = idBytes) {field : String} :
    NoPanic (publicKey bytes field : Checked C (PublicKey C)) :=
  (NoPanic.expect (Block.exists_ofBytes? h)).bind fun _ _ => NoPanic.orReject

theorem verify_noPanic {key : PublicKey C} {input signature : Bytes}
    (h : signature.length = sigBytes) : NoPanic (Mabel.verify key input signature) :=
  (NoPanic.expect (Block.exists_ofBytes? h)).bind fun _ _ => NoPanic.rejectIf

/-- Every number the table admits as a kind names one. -/
theorem DeclaredKind.exists_tryFrom {n : Nat} (h : 1 ≤ n ∧ n ≤ 4) :
    ∃ kind, DeclaredKind.tryFrom n = some kind := by
  obtain rfl | rfl | rfl | rfl : n = 1 ∨ n = 2 ∨ n = 3 ∨ n = 4 := by omega
  · exact ⟨.person, rfl⟩
  · exact ⟨.organization, rfl⟩
  · exact ⟨.agent, rfl⟩
  · exact ⟨.service, rfl⟩

/-- Every number the table admits as a role names one. -/
theorem Role.exists_tryFrom {n : Int} (h : n = 1 ∨ n = 2) :
    ∃ role, Role.tryFrom n = some role := by
  rcases h with rfl | rfl
  · exact ⟨.member, rfl⟩
  · exact ⟨.controller, rfl⟩

namespace LedgerState

variable {s : LedgerState C} {id : EventId} {k : Nat}

/-! ## The checks of each payload -/

/-- A valid inception seeds without a panic. -/
theorem seedFromInception_noPanic {i : Inception} (h : i.Valid C k) :
    NoPanic (seedFromInception id i : Checked C (Effect C)) := by
  obtain ⟨n, hn, hbounds⟩ := h.kind
  obtain ⟨r, hr, hroot⟩ := h.root
  refine NoPanic.bind ?_ fun _ _ => NoPanic.bind ?_ fun _ _ => NoPanic.ok
  · rw [hn]
    exact NoPanic.expect (DeclaredKind.exists_tryFrom hbounds)
  · rw [hr]
    cases r with
    | rawRoot m =>
      have hm : m.Valid := hroot
      refine (publicKey_noPanic hm.activeKey).bind fun _ _ => ?_
      exact (NoPanic.expect (Block.exists_ofBytes? hm.reserveCommit)).bind fun _ _ => NoPanic.ok
    | identityRoot m =>
      have hm : m.Valid C (k + 1) := hroot
      refine (identity_noPanic hm.idLength).bind fun _ _ => ?_
      exact (publicKey_noPanic hm.keyLength).bind fun _ _ => NoPanic.ok

/-- A valid invitation is checked without a panic. -/
theorem checkInvitation_noPanic {i : MembershipInvitation} (h : i.Valid C k) :
    NoPanic (s.checkInvitation i) := by
  refine (identity_noPanic h.embeds.idLength).bind fun invitee _ => ?_
  refine (publicKey_noPanic h.embeds.keyLength).bind fun key _ => ?_
  refine (NoPanic.expect (Role.exists_tryFrom h.role)).bind fun role _ => ?_
  refine NoPanic.bind ?_ fun _ _ => NoPanic.bind ?_ fun _ _ => NoPanic.ok
  · unfold checkNoOpenInvitation
    split
    · exact NoPanic.reject
    · exact NoPanic.ok
  · unfold checkKnownKey
    split
    · exact NoPanic.rejectIf
    · exact NoPanic.ok

/-- An admission is checked without a panic. -/
theorem checkAdmission_noPanic {event : EventId} {i : Invitation C} :
    NoPanic (s.checkAdmission event i) := by
  refine NoPanic.bind ?_ fun _ _ => NoPanic.ite (fun _ => ?_) fun _ => NoPanic.ok
  · unfold checkUnheld
    split
    · exact NoPanic.reject
    · exact NoPanic.ok
  · refine NoPanic.bind ?_ fun _ _ => NoPanic.ok
    exact NoPanic.rejectIf.bind fun _ _ => NoPanic.rejectIf

/-- The blob of a valid acceptance decodes and its fields are sized. -/
theorem checkAcceptance_noPanic {a : MembershipAcceptance} (h : a.Valid C k) :
    NoPanic (s.checkAcceptance a) := by
  obtain ⟨blob, hblob, hencode, -⟩ := h.blob
  have hdecode : Acceptance.decode a.acceptance = some blob :=
    hencode ▸ acceptance_decode C hblob
  refine (NoPanic.expect ⟨blob, hdecode⟩).bind fun found hfound => ?_
  obtain rfl : blob = found := Option.some.inj (hdecode.symm.trans (expect_eq_ok.mp hfound))
  refine NoPanic.orReject.bind fun _ _ => ?_
  refine (identity_noPanic hblob.ledger).bind fun _ _ => NoPanic.rejectIf.bind fun _ _ => ?_
  refine (NoPanic.expect (EventId.exists_fromSlice hblob.invitationEvent)).bind fun _ _ => ?_
  refine NoPanic.orReject.bind fun _ _ => NoPanic.rejectIf.bind fun _ _ => ?_
  refine (identity_noPanic hblob.invitee).bind fun _ _ => NoPanic.rejectIf.bind fun _ _ => ?_
  refine (publicKey_noPanic hblob.inviteeKey).bind fun _ _ => NoPanic.rejectIf.bind fun _ _ => ?_
  exact checkAdmission_noPanic

/-- An attestation with a signer is checked without a panic. -/
theorem checkAttestation_noPanic {a : TrustAttestation} (h : a.subject.length = idBytes)
    {signer : Option (SigningPrincipal C)} (hsigner : ∃ sp, signer = some sp) :
    NoPanic (s.checkAttestation a signer) := by
  refine (identity_noPanic h).bind fun subject _ => NoPanic.rejectIf.bind fun _ _ => ?_
  refine NoPanic.bind ?_ fun _ _ => (NoPanic.expect hsigner).bind fun _ _ => NoPanic.ok
  unfold checkUnattested
  split
  · exact NoPanic.reject
  · exact NoPanic.ok

/-- A revocation is checked without a panic. -/
theorem checkRevocation_noPanic {r : TrustRevocation} (h : r.target.length = idBytes) :
    NoPanic (s.checkRevocation r) := by
  refine (NoPanic.expect (EventId.exists_fromSlice h)).bind fun target _ => ?_
  cases s.trust.get? target with
  | none => exact NoPanic.reject
  | some attestation =>
    simp only
    split
    · exact NoPanic.reject
    · exact NoPanic.ok

theorem checkRemoval_noPanic {target : IdentityId} : NoPanic (s.checkRemoval target) :=
  NoPanic.rejectIf.bind fun _ _ => NoPanic.rejectIf.bind fun _ _ =>
    NoPanic.rejectIf.bind fun _ _ => NoPanic.ok

/-- The semantic rules of a valid payload unwrap only fields the table sized, and a signer
that is absent at seq 0 alone. -/
theorem checkSemantics_noPanic {payload : Payload} (h : payload.Valid C k)
    {signer : Option (SigningPrincipal C)}
    (hsigner : isInception payload = false → ∃ sp, signer = some sp) :
    NoPanic (s.checkSemantics id payload signer) := by
  cases payload with
  | inception i => exact seedFromInception_noPanic h
  | witnessConfig w =>
    have hids : IdsOk 1 maxWitnesses w.witnesses := h
    refine NoPanic.bind (NoPanic.mapM fun x hx => ?_) fun _ _ => NoPanic.ok
    exact publicKey_noPanic (hids.sized x hx)
  | witnessSet w =>
    have hids : IdsOk 0 maxWitnesses w.witnesses := h
    refine NoPanic.bind (NoPanic.mapM fun x hx => ?_) fun _ _ => ?_
    · exact identity_noPanic (hids.sized x hx)
    · exact (NoPanic.expect (hsigner rfl)).bind fun _ _ => NoPanic.ok
  | endpointAdvertisement a =>
    have hids : IdsOk 0 maxEndpoints a.endpoints := h
    refine NoPanic.bind (NoPanic.mapM fun x hx => ?_) fun _ _ => ?_
    · exact publicKey_noPanic (hids.sized x hx)
    · exact (NoPanic.expect (hsigner rfl)).bind fun _ _ => NoPanic.ok
  | trustAttestation a => exact checkAttestation_noPanic h (hsigner rfl)
  | trustRevocation r => exact checkRevocation_noPanic h
  | membershipInvitation i => exact checkInvitation_noPanic h
  | membershipAcceptance a => exact checkAcceptance_noPanic h
  | membershipRemoval r => exact (identity_noPanic h).bind fun _ _ => checkRemoval_noPanic
  | profileUpdate p => exact (NoPanic.expect (hsigner rfl)).bind fun _ _ => NoPanic.ok

/-! ## The mutation -/

/-- The check of an event found every record its commit unwraps. -/
theorem commitEffect_of_checked {payload : Payload} {signer : Option (SigningPrincipal C)}
    {effect : Effect C} (hsem : s.checkSemantics id payload signer = .ok effect) (seq : Nat) :
    ∃ mid, s.commitEffect seq id effect = .ok mid := by
  cases payload with
  | inception i =>
    obtain ⟨kind, root, rid, key, -, -, rfl⟩ := seedFromInception_eq_ok.mp hsem
    exact ⟨_, rfl⟩
  | trustAttestation a =>
    obtain ⟨subject, sp, -, -, -, -, rfl⟩ := checkAttestation_eq_ok.mp hsem
    exact ⟨_, rfl⟩
  | trustRevocation r =>
    obtain ⟨target, a, -, hfound, -, rfl⟩ := checkRevocation_eq_ok.mp hsem
    exact ⟨_, by rw [commitEffect, hfound, expect_some, ok_bind]⟩
  | membershipInvitation i =>
    obtain ⟨invitee, key, role, -, -, -, -, -, rfl⟩ := checkInvitation_eq_ok.mp hsem
    exact ⟨_, rfl⟩
  | membershipAcceptance a =>
    obtain ⟨blob, event, i, -, hmatch, -, -, rfl⟩ := checkAcceptance_eq_ok.mp hsem
    exact ⟨_, by rw [commitEffect, hmatch.issued, expect_some, ok_bind]⟩
  | membershipRemoval r =>
    simp only [checkSemantics, bind_eq_ok, checkRemoval_eq_ok] at hsem
    obtain ⟨target, -, -, -, -, rfl⟩ := hsem
    exact ⟨_, by rw [commitEffect, cancelInvitation_eq_ok.mpr rfl, ok_bind]⟩
  | witnessConfig w =>
    simp only [checkSemantics, bind_eq_ok, Except.ok.injEq] at hsem
    obtain ⟨endpoints, -, rfl⟩ := hsem
    exact ⟨_, rfl⟩
  | witnessSet w =>
    simp only [checkSemantics, bind_eq_ok, Except.ok.injEq] at hsem
    obtain ⟨witnesses, -, sp, -, rfl⟩ := hsem
    exact ⟨_, rfl⟩
  | endpointAdvertisement a =>
    simp only [checkSemantics, bind_eq_ok, Except.ok.injEq] at hsem
    obtain ⟨endpoints, -, sp, -, rfl⟩ := hsem
    exact ⟨_, rfl⟩
  | profileUpdate p =>
    simp only [checkSemantics, bind_eq_ok, Except.ok.injEq] at hsem
    obtain ⟨sp, -, rfl⟩ := hsem
    exact ⟨_, rfl⟩

/-! ## The fold step -/

/-- A state with a head has an id. -/
def Anchored (s : LedgerState C) : Prop := s.head ≠ none → ∃ l, s.ledger = some l

/-- The link of a valid body is checked without a panic. -/
theorem checkLink_noPanic (hanchored : s.Anchored) {body : EventBody} (hbody : body.Valid C k)
    (hseq : body.seq = s.nextSeq) : NoPanic (s.checkLink body) := by
  unfold checkLink
  cases hhead : s.head with
  | none => exact NoPanic.ok
  | some head =>
    have hne : s.head ≠ none := by simp [hhead]
    have hpast : body.seq ≠ 0 := by
      rw [hseq]
      exact fun h => hne (nextSeq_eq_zero.mp h)
    have hledger : body.ledger.length = idBytes := by
      have := hbody.ledger
      rwa [if_neg hpast] at this
    have hprev : body.prev.length = idBytes := by
      have := hbody.prev
      rwa [if_neg hpast] at this
    refine (identity_noPanic hledger).bind fun _ _ => ?_
    refine (NoPanic.expect (hanchored hne)).bind fun _ _ => NoPanic.rejectIf.bind fun _ _ => ?_
    refine (NoPanic.expect (EventId.exists_fromSlice hprev)).bind fun _ _ => ?_
    exact NoPanic.rejectIf.bind fun _ _ => NoPanic.rejectIf

/-- On an anchored state every assertion of the fold step holds, whatever the bytes. -/
theorem Anchored.noPanic (hanchored : s.Anchored) (event : Bytes) :
    NoPanic (s.apply event) := by
  refine (NoPanic.mapReject (signedEvent_noPanic event)).bind fun _ hvalid => ?_
  obtain ⟨signed, body, payload, hopen⟩ := signedEvent_iff_opened.mp (mapReject_eq_ok.mp hvalid)
  rw [hopen.decode, expect_some, ok_bind, hopen.decodeBody, expect_some, ok_bind, hopen.holds,
    expect_some, ok_bind]
  refine NoPanic.rejectIf.bind fun _ hseq => ?_
  have hseq : body.seq = s.nextSeq := by simpa using hseq
  refine (checkLink_noPanic hanchored hopen.valid hseq).bind fun _ _ => ?_
  refine NoPanic.rejectIf.bind fun _ hposition => ?_
  refine (publicKey_noPanic hopen.valid.authorKey).bind fun key _ => ?_
  refine NoPanic.bind ?_ fun signer hsigner => ?_
  · exact NoPanic.ite (fun _ => NoPanic.ok) fun _ => NoPanic.orReject.bind fun _ _ => NoPanic.ok
  refine (verify_noPanic hopen.signature).bind fun _ _ => ?_
  refine NoPanic.bind ?_ fun effect heffect => ?_
  · refine checkSemantics_noPanic hopen.payloadValid fun hpast => ?_
    -- Past seq 0 the signer check found a controller, so the rules have one to record.
    have hne : ¬ s.nextSeq = 0 := by
      intro hzero
      simp [hpast, hzero] at hposition
    have hsigns := checkSigner_eq_ok.mp hsigner
    rw [Signs, if_neg hne] at hsigns
    obtain ⟨sp, -, hsp⟩ := hsigns
    exact ⟨sp, hsp⟩
  · obtain ⟨mid, hmid⟩ := commitEffect_of_checked heffect s.nextSeq
    rw [commit, hmid, ok_bind]
    exact NoPanic.ok

/-- Every folded state is anchored. -/
theorem anchored_of_run {log : List Bytes} (h : FoldRun log s) : s.Anchored := by
  intro hhead
  obtain ⟨first, rest, -, ⟨f⟩⟩ := h.founded hhead
  exact ⟨_, f.ledger_eq⟩

end LedgerState

/-! ## Every reachable state -/

/-- Handing any byte string to any reachable state answers or rejects: none of the fold's
or the validator's assertions fails. -/
theorem apply_noPanic (C : Crypto) (events : List Bytes) (event : Bytes) :
    NoPanic ((after C events).apply event) :=
  (LedgerState.anchored_of_run (foldRun_after events)).noPanic event

/-- A fold answers for every list of byte strings. -/
theorem fold_total (C : Crypto) (events : List Bytes) : ∃ result, fold C events = .ok result := by
  have hfrom : ∀ (events log : List Bytes) (s : LedgerState C), FoldRun log s →
      ∃ result, foldFrom s events = .ok result := by
    intro events
    induction events with
    | nil =>
      intro log s _
      exact ⟨_, rfl⟩
    | cons event events ih =>
      intro log s hrun
      have hsafe := (LedgerState.anchored_of_run hrun).noPanic event
      rw [foldFrom]
      rcases hstep : s.apply event with (reason | site) | s'
      · exact ⟨_, rfl⟩
      · exact absurd hstep (hsafe site)
      · exact ih _ _ (hrun.snoc hstep)
  exact hfrom events [] LedgerState.default .nil

end Mabel
