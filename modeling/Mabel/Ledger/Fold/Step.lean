import Mabel.Ledger.Fold.Apply
import Mabel.Ledger.Validate.Decode

/-!
# What one accepted event does

`apply_iff` says when an event is accepted and what the state becomes: the event opens to
valid messages, its body continues the chain, a controller signed it, its payload keeps
the rule of its kind and its effect is recorded. Each payload's rule is an equivalence,
so the same lemmas serve the proofs about accepted events and about built ones.
-/

namespace Mabel

open Wire Proto Validate

variable {C : Crypto}

/-! ## Field readers -/

theorem identity_eq_ok {bytes : Bytes} {id : IdentityId} :
    (identity bytes : Checked C IdentityId) = .ok id ↔ bytes = id.toVec := by
  rw [identity, Outcome.expect_eq_ok, IdentityId.fromSlice_eq_some]

/-- A key is read from exactly its own bytes. -/
theorem publicKey_eq_ok {bytes : Bytes} {field : String} {key : PublicKey C} :
    publicKey bytes field = .ok key ↔ bytes = key.asBytes := by
  simp only [publicKey, Outcome.bind_eq_ok, Outcome.expect_eq_ok, Outcome.orReject_eq_ok,
    Block.ofBytes?_eq_some, PublicKey.fromBytes_eq_some]
  constructor
  · rintro ⟨raw, rfl, rfl⟩
    rfl
  · rintro rfl
    exact ⟨key.raw, rfl, rfl⟩

/-- A signature passes when it has the length of one and verifies. -/
theorem verify_eq_ok {key : PublicKey C} {input signature : Bytes} {u : Unit} :
    verify key input signature = .ok u ↔
      ∃ sig : Block sigBytes, signature = sig.bytes ∧ key.verify input sig = true := by
  simp only [verify, Outcome.bind_eq_ok, Outcome.expect_eq_ok, Block.ofBytes?_eq_some,
    Outcome.rejectIf_eq_ok, Bool.not_eq_false]

/-- A list is mapped when every entry is. -/
theorem mapM_eq_ok {ε α β : Type} {f : α → Outcome ε β} {xs : List α} {ys : List β} :
    xs.mapM f = .ok ys ↔ List.Forall₂ (fun x y => f x = .ok y) xs ys := by
  induction xs generalizing ys with
  | nil => cases ys <;> simp [pure, Except.pure]
  | cons x xs ih =>
    rw [List.mapM_cons]
    simp only [Outcome.bind_eq_ok]
    constructor
    · rintro ⟨y, hy, rest, hrest, h⟩
      obtain rfl : y :: rest = ys := Except.ok.inj h
      exact .cons hy (ih.mp hrest)
    · intro h
      cases h with
      | @cons _ y _ rest hy hrest => exact ⟨y, hy, rest, ih.mpr hrest, rfl⟩

namespace LedgerState

variable {s s' : LedgerState C} {id : EventId} {effect : Effect C}

/-! ## The rules of each payload -/

/-- The check for an open invitation passes when there is none. -/
theorem checkNoOpenInvitation_eq_ok {invitee : IdentityId} {u : Unit} :
    s.checkNoOpenInvitation invitee = .ok u ↔ s.openInvitationOf invitee = none := by
  rw [checkNoOpenInvitation]
  cases s.openInvitationOf invitee <;> simp

/-- The key check passes when the invitee is absent or holds that key. -/
theorem checkKnownKey_eq_ok {invitee : IdentityId} {key : PublicKey C} {u : Unit} :
    s.checkKnownKey invitee key = .ok u ↔
      ∀ p, s.principals.get? invitee = some p → p.activeKey = key := by
  rw [checkKnownKey]
  cases s.principals.get? invitee <;> simp

/-- What an invitation must meet, and the effect it has. -/
theorem checkInvitation_eq_ok {i : MembershipInvitation} :
    s.checkInvitation i = .ok effect ↔ ∃ invitee key role,
      i.invitee = invitee.toVec ∧ i.inviteeKey = key.asBytes ∧ Role.tryFrom i.role = some role ∧
      s.openInvitationOf invitee = none ∧
      (∀ p, s.principals.get? invitee = some p → p.activeKey = key) ∧
      effect = .invite ⟨invitee, key, role, .open⟩ := by
  simp only [checkInvitation, Outcome.bind_eq_ok, identity_eq_ok, publicKey_eq_ok,
    Outcome.expect_eq_ok, checkNoOpenInvitation_eq_ok, checkKnownKey_eq_ok, exists_const,
    Except.ok.injEq]
  constructor
  · rintro ⟨invitee, hi, key, hk, role, hr, hopen, hkey, rfl⟩
    exact ⟨invitee, key, role, hi, hk, hr, hopen, hkey, rfl⟩
  · rintro ⟨invitee, key, role, hi, hk, hr, hopen, hkey, rfl⟩
    exact ⟨invitee, hi, key, hk, role, hr, hopen, hkey, rfl⟩

/-- The key is free when nobody but the invitee holds it. -/
theorem checkUnheld_eq_ok {key : PublicKey C} {invitee : IdentityId} {u : Unit} :
    s.checkUnheld key invitee = .ok u ↔
      ∀ holder p, s.principals.get? holder = some p → p.activeKey = key → holder = invitee := by
  have hnone : s.holderOf key invitee = none ↔
      ∀ holder p, s.principals.get? holder = some p → p.activeKey = key → holder = invitee := by
    rw [holderOf, SortedMap.find?_none]
    refine forall_congr' fun holder => forall_congr' fun p => forall_congr' fun _ => ?_
    by_cases hkey : p.activeKey = key <;> simp [hkey]
  rw [← hnone, checkUnheld]
  cases s.holderOf key invitee <;> simp

/-- A principal controls when its seat is a controller's. -/
theorem isController_iff {target : IdentityId} :
    s.isController target = true ↔ ∃ key, s.principals.get? target = some ⟨.controller, key⟩ := by
  rw [isController]
  cases h : s.principals.get? target with
  | none => simp
  | some p =>
    obtain ⟨role, key⟩ := p
    simp

/-- A raw root is the ledger's own identity. -/
theorem isRawRoot_iff {target : IdentityId} :
    s.isRawRoot target = true ↔ (∃ key commit, s.root = some (.raw key commit)) ∧
      s.ledger = some target := by
  rw [isRawRoot, rootIdentity]
  cases h : s.root with
  | none => simp
  | some root =>
    cases root with
    | raw key commit => simp [LedgerRoot.isRaw, eq_comm]
    | identity founder key => simp [LedgerRoot.isRaw]

/-- A controller may stop being one: it is not the raw root and another one remains. -/
def Dispensable (s : LedgerState C) (target : IdentityId) : Prop :=
  s.isRawRoot target = false ∧
    ∃ other key, other ≠ target ∧ s.principals.get? other = some ⟨.controller, key⟩

/-- Another controller remains when the keys without the target's are not empty. -/
theorem controllerKeysWithout_ne_nil {target : IdentityId} :
    s.controllerKeysWithout target ≠ [] ↔
      ∃ other key, other ≠ target ∧ s.principals.get? other = some ⟨.controller, key⟩ := by
  constructor
  · intro h
    obtain ⟨key, hkey⟩ := List.exists_mem_of_ne_nil _ h
    obtain ⟨other, hne, hget⟩ := mem_controllerKeysWithout.mp hkey
    exact ⟨other, key, hne, hget⟩
  · rintro ⟨other, key, hne, hget⟩
    exact List.ne_nil_of_mem (mem_controllerKeysWithout.mpr ⟨other, hne, hget⟩)

/-- A demotion passes when the ledger can do without the target. -/
theorem checkDemotion_eq_ok {target : IdentityId} {u : Unit} :
    s.checkDemotion target = .ok u ↔ s.Dispensable target := by
  simp only [checkDemotion, Outcome.bind_eq_ok, Outcome.rejectIf_eq_ok, exists_const,
    Bool.not_eq_true, Dispensable]
  exact and_congr_right fun _ => controllerKeysWithout_ne_nil

/-- An admission passes when the key is free and no last controller steps down. -/
theorem checkAdmission_eq_ok {event : EventId} {i : Invitation C} :
    s.checkAdmission event i = .ok effect ↔
      (∀ holder p, s.principals.get? holder = some p → p.activeKey = i.inviteeKey →
        holder = i.invitee) ∧
      (s.isController i.invitee = true → i.role ≠ .controller → s.Dispensable i.invitee) ∧
      effect = .admission event i.invitee ⟨i.role, i.inviteeKey⟩ := by
  simp only [checkAdmission, Outcome.bind_eq_ok, checkUnheld_eq_ok, exists_const]
  refine and_congr_right fun _ => ?_
  split_ifs with h
  · simp only [Outcome.bind_eq_ok, checkDemotion_eq_ok, exists_const, Except.ok.injEq]
    constructor
    · rintro ⟨hd, rfl⟩
      exact ⟨fun _ _ => hd, rfl⟩
    · rintro ⟨hd, rfl⟩
      exact ⟨hd h.1 h.2, rfl⟩
  · simp only [Except.ok.injEq]
    constructor
    · rintro rfl
      exact ⟨fun hc hr => absurd ⟨hc, hr⟩ h, rfl⟩
    · rintro ⟨-, rfl⟩
      rfl

/-- The blob of an acceptance names the ledger and the invitation it consumes. -/
structure Matches (s : LedgerState C) (blob : Acceptance) (event : EventId)
    (i : Invitation C) : Prop where
  ledger : ∃ l, s.ledger = some l ∧ blob.ledger = l.toVec
  names : blob.invitationEvent = event.toVec
  issued : s.invitations.get? event = some i
  isOpen : i.status = .open
  invitee : blob.invitee = i.invitee.toVec
  inviteeKey : blob.inviteeKey = i.inviteeKey.asBytes

/-- What an acceptance must meet, and the effect it has. -/
theorem checkAcceptance_eq_ok {a : MembershipAcceptance} :
    s.checkAcceptance a = .ok effect ↔ ∃ blob event i,
      Acceptance.decode a.acceptance = some blob ∧ s.Matches blob event i ∧
      (∀ holder p, s.principals.get? holder = some p → p.activeKey = i.inviteeKey →
        holder = i.invitee) ∧
      (s.isController i.invitee = true → i.role ≠ .controller → s.Dispensable i.invitee) ∧
      effect = .admission event i.invitee ⟨i.role, i.inviteeKey⟩ := by
  simp only [checkAcceptance, Outcome.bind_eq_ok, Outcome.expect_eq_ok, Outcome.orReject_eq_ok,
    identity_eq_ok, publicKey_eq_ok, Outcome.rejectIf_eq_ok, not_not, exists_const,
    EventId.fromSlice_eq_some, checkAdmission_eq_ok]
  constructor
  · rintro ⟨blob, hblob, l, hl, named, hnamed, rfl, event, hevent, i, hi, hopen, invitee, hinvitee,
      rfl, key, hkey, rfl, hunheld, hdemote, rfl⟩
    exact ⟨blob, event, i, hblob, ⟨⟨named, hl, hnamed⟩, hevent, hi, hopen, hinvitee, hkey⟩,
      hunheld, hdemote, rfl⟩
  · rintro ⟨blob, event, i, hblob, ⟨⟨l, hl, hnamed⟩, hevent, hi, hopen, hinvitee, hkey⟩, hunheld,
      hdemote, rfl⟩
    exact ⟨blob, hblob, l, hl, l, hnamed, rfl, event, hevent, i, hi, hopen, i.invitee, hinvitee,
      rfl, i.inviteeKey, hkey, rfl, hunheld, hdemote, rfl⟩

/-- What a removal must meet, and the effect it has. -/
theorem checkRemoval_eq_ok {target : IdentityId} :
    s.checkRemoval target = .ok effect ↔ s.isRawRoot target = false ∧
      (s.openInvitationOf target ≠ none ∨ s.principals.get? target ≠ none) ∧
      (s.isController target = true →
        ∃ other key, other ≠ target ∧ s.principals.get? other = some ⟨.controller, key⟩) ∧
      effect = .remove target ((s.openInvitationOf target).map Prod.fst)
        (s.principals.get? target).isSome := by
  simp only [checkRemoval, Outcome.bind_eq_ok, Outcome.rejectIf_eq_ok, exists_const,
    Bool.not_eq_true, Option.map_eq_none_iff, not_and_or, Except.ok.injEq,
    ← controllerKeysWithout_ne_nil]
  refine and_congr_right fun _ => and_congr_right fun _ => and_congr ?_ eq_comm
  cases s.isController target <;> simp

/-- What an attestation must meet, and the effect it has. -/
theorem checkAttestation_eq_ok {a : TrustAttestation} {signer : Option (SigningPrincipal C)} :
    s.checkAttestation a signer = .ok effect ↔ ∃ subject sp, a.subject = subject.toVec ∧
      s.ledger ≠ some subject ∧ s.unrevoked subject = none ∧ signer = some sp ∧
      effect = .attest subject sp := by
  have hunattested : ∀ {subject : IdentityId} {u : Unit},
      s.checkUnattested subject = .ok u ↔ s.unrevoked subject = none := by
    intro subject u
    rw [checkUnattested]
    cases s.unrevoked subject <;> simp
  simp only [checkAttestation, Outcome.bind_eq_ok, identity_eq_ok, Outcome.rejectIf_eq_ok,
    exists_const, Outcome.expect_eq_ok, hunattested, Except.ok.injEq]
  constructor
  · rintro ⟨subject, hs, hne, hun, sp, hsp, rfl⟩
    exact ⟨subject, sp, hs, fun h => hne h.symm, hun, hsp, rfl⟩
  · rintro ⟨subject, sp, hs, hne, hun, hsp, rfl⟩
    exact ⟨subject, hs, fun h => hne h.symm, hun, sp, hsp, rfl⟩

/-- What a revocation must meet, and the effect it has. -/
theorem checkRevocation_eq_ok {r : TrustRevocation} :
    s.checkRevocation r = .ok effect ↔ ∃ target a, r.target = target.toVec ∧
      s.trust.get? target = some a ∧ a.revokedBy = none ∧ effect = .revoke target := by
  simp only [checkRevocation, Outcome.bind_eq_ok, Outcome.expect_eq_ok,
    EventId.fromSlice_eq_some]
  constructor
  · rintro ⟨target, ht, h⟩
    cases ha : s.trust.get? target with
    | none => simp [ha] at h
    | some a =>
      cases hr : a.revokedBy with
      | some by' => simp [ha, hr] at h
      | none =>
        simp only [ha, hr, Except.ok.injEq] at h
        exact ⟨target, a, ht, ha, hr, h.symm⟩
  · rintro ⟨target, a, ht, ha, hr, rfl⟩
    exact ⟨target, ht, by simp [ha, hr]⟩

/-- The root, the root principal and its key that a seq-0 event seeds. -/
inductive Seeds (id : EventId) :
    Option Root → LedgerRoot C → IdentityId → PublicKey C → Prop
  /-- A self-keyed ledger is its own root principal. -/
  | raw {m : RawRoot} {key : PublicKey C} {commit : Block idBytes}
    (activeKey : m.activeKey = key.asBytes) (reserveCommit : m.reserveCommit = commit.bytes) :
    Seeds id (some (.rawRoot m)) (.raw key commit) id.toIdentity key
  /-- A founded ledger starts with its founder. -/
  | identity {m : IdentityRoot} {founder : IdentityId} {key : PublicKey C}
    (founderId : m.founder = founder.toVec) (founderKey : m.founderKey = key.asBytes) :
    Seeds id (some (.identityRoot m)) (.identity founder key) founder key

/-- The root is seeded exactly as the inception's root names it. -/
theorem seedRoot_eq_ok {r : Option Root} {root : LedgerRoot C} {rid : IdentityId}
    {key : PublicKey C} : seedRoot id r = .ok (root, rid, key) ↔ Seeds id r root rid key := by
  constructor
  · intro h
    match r with
    | none => simp [seedRoot] at h
    | some (.rawRoot m) =>
      simp only [seedRoot, Outcome.bind_eq_ok, publicKey_eq_ok, Outcome.expect_eq_ok,
        Block.ofBytes?_eq_some, Except.ok.injEq, Prod.mk.injEq] at h
      obtain ⟨k, hk, commit, hc, rfl, rfl, rfl⟩ := h
      exact .raw hk hc
    | some (.identityRoot m) =>
      simp only [seedRoot, Outcome.bind_eq_ok, publicKey_eq_ok, identity_eq_ok, Except.ok.injEq,
        Prod.mk.injEq] at h
      obtain ⟨founder, hf, k, hk, rfl, rfl, rfl⟩ := h
      exact .identity hf hk
  · intro h
    cases h with
    | raw hk hc =>
      simp only [seedRoot, Outcome.bind_eq_ok, publicKey_eq_ok, Outcome.expect_eq_ok,
        Block.ofBytes?_eq_some]
      exact ⟨_, hk, _, hc, rfl⟩
    | identity hf hk =>
      simp only [seedRoot, Outcome.bind_eq_ok, publicKey_eq_ok, identity_eq_ok]
      exact ⟨_, hf, _, hk, rfl⟩

/-- What an inception must name, and the state it seeds. -/
theorem seedFromInception_eq_ok {i : Inception} :
    seedFromInception id i = .ok effect ↔ ∃ kind root rid key,
      DeclaredKind.tryFrom i.kind = some kind ∧ Seeds id i.root root rid key ∧
      effect = .seed ⟨kind, root, SortedMap.empty.insert rid ⟨.controller, key⟩⟩ := by
  simp only [seedFromInception, Outcome.bind_eq_ok, Outcome.expect_eq_ok, Prod.exists,
    seedRoot_eq_ok, Except.ok.injEq]
  constructor
  · rintro ⟨kind, hkind, root, rid, key, hseeds, rfl⟩
    exact ⟨kind, root, rid, key, hkind, hseeds, rfl⟩
  · rintro ⟨kind, root, rid, key, hkind, hseeds, rfl⟩
    exact ⟨kind, hkind, root, rid, key, hseeds, rfl⟩

/-! ## The chain and the signer -/

/-- A body continues the chain a state ends: it names the ledger and the last event, and
time does not run backwards. -/
structure Links (s : LedgerState C) (body : EventBody) : Prop where
  chain : ∀ head, s.head = some head → ∃ l, s.ledger = some l ∧ body.ledger = l.toVec ∧
    body.prev = head.eventId.toVec ∧ head.timestampMs ≤ body.timestampMs

/-- The link check passes when the body continues the head. -/
theorem checkLink_eq_ok {body : EventBody} {u : Unit} :
    s.checkLink body = .ok u ↔ s.Links body := by
  rw [checkLink]
  cases hhead : s.head with
  | none => exact ⟨fun _ => ⟨fun _ h => by simp [hhead] at h⟩, fun _ => rfl⟩
  | some head =>
    simp only [Outcome.bind_eq_ok, identity_eq_ok, Outcome.expect_eq_ok, Outcome.rejectIf_eq_ok,
      not_not, exists_const, EventId.fromSlice_eq_some, not_lt]
    constructor
    · rintro ⟨l, hl, expected, hledger, rfl, prev, hprev, rfl, htime⟩
      refine ⟨fun head' h => ?_⟩
      obtain rfl : head = head' := Option.some.inj (hhead.symm.trans h)
      exact ⟨l, hledger, hl, hprev, htime⟩
    · intro h
      obtain ⟨l, hledger, hl, hprev, htime⟩ := h.chain head hhead
      exact ⟨l, hl, l, hledger, rfl, head.eventId, hprev, rfl, htime⟩

/-- Who signs an event: nobody at seq 0, a controller past it. -/
def Signs (s : LedgerState C) (key : PublicKey C) (signer : Option (SigningPrincipal C)) : Prop :=
  if s.nextSeq = 0 then signer = none
  else ∃ sp, s.signingPrincipal key = some sp ∧ signer = some sp

/-- The signer check passes for the key the state expects. -/
theorem checkSigner_eq_ok {key : PublicKey C} {signer : Option (SigningPrincipal C)} :
    s.checkSigner s.nextSeq key = .ok signer ↔ s.Signs key signer := by
  rw [checkSigner, Signs]
  split_ifs with h
  · simp [eq_comm]
  · simp only [Outcome.bind_eq_ok, Outcome.orReject_eq_ok, Except.ok.injEq]
    exact exists_congr fun sp => and_congr_right fun _ => eq_comm

theorem nextSeq_eq_zero : s.nextSeq = 0 ↔ s.head = none := by
  rw [nextSeq]
  cases s.head <;> simp

end LedgerState

/-! ## The accepted step -/

/-- Everything one accepted event established. -/
structure Step (s : LedgerState C) (event : Bytes) (s' : LedgerState C) where
  /-- The outer message. -/
  signed : SignedEvent
  /-- The message that was hashed and signed. -/
  body : EventBody
  /-- The payload. -/
  payload : Payload
  /-- The key that signed the event. -/
  key : PublicKey C
  /-- Its signature. -/
  sig : Block sigBytes
  /-- The principal it signed as. -/
  signer : Option (SigningPrincipal C)
  /-- What the event changes. -/
  effect : Effect C
  opened : Opened C event signed body payload
  seq : body.seq = s.nextSeq
  links : s.Links body
  position : isInception payload = decide (s.nextSeq = 0)
  author : body.authorKey = key.asBytes
  signs : s.Signs key signer
  signature : signed.signature = sig.bytes
  verified : key.verify (signInput signed.body) sig = true
  semantics : s.checkSemantics (eventId C signed.body) payload signer = .ok effect
  committed : s.commit s.nextSeq (eventId C signed.body) body.timestampMs effect = .ok s'

/-- The id of the event a step accepted. -/
def Step.id {s s' : LedgerState C} {event : Bytes} (st : Step s event s') : EventId :=
  eventId C st.signed.body

/-- An event is accepted exactly when a step records it. -/
theorem apply_iff {s s' : LedgerState C} {event : Bytes} :
    s.apply event = .ok s' ↔ Nonempty (Step s event s') := by
  simp only [LedgerState.apply, Outcome.bind_eq_ok, Outcome.mapReject_eq_ok,
    Outcome.expect_eq_ok, Outcome.rejectIf_eq_ok, LedgerState.checkLink_eq_ok, checkPosition,
    publicKey_eq_ok, LedgerState.checkSigner_eq_ok, verify_eq_ok, not_not, exists_const]
  constructor
  · rintro ⟨_, hvalid, signed, hsigned, body, hbody, payload, hpayload, hseq, hlink, hpos, key,
      hkey, signer, hsigner, ⟨sig, hsig, hver⟩, effect, heffect, hcommit⟩
    obtain ⟨signed', body', payload', hopened⟩ := signedEvent_iff_opened.mp hvalid
    obtain rfl : signed' = signed := Option.some.inj (hopened.decode.symm.trans hsigned)
    obtain rfl : body' = body := Option.some.inj (hopened.decodeBody.symm.trans hbody)
    obtain rfl : payload' = payload := Option.some.inj (hopened.holds.symm.trans hpayload)
    exact ⟨⟨signed', body', payload', key, sig, signer, effect, hopened, hseq, hlink, hpos, hkey,
      hsigner, hsig, hver, heffect, hcommit⟩⟩
  · rintro ⟨st⟩
    exact ⟨(), st.opened.accepted, st.signed, st.opened.decode, st.body, st.opened.decodeBody,
      st.payload, st.opened.holds, st.seq, st.links, st.position, st.key, st.author, st.signer,
      st.signs, ⟨st.sig, st.signature, st.verified⟩, st.effect, st.semantics, st.committed⟩

end Mabel
