import Mabel.Core.Run
import Mabel.Ledger.Fold.Step

/-!
# What each payload changes

`Change` lists, payload by payload, the rule the state before the event must satisfy and
the record the event leaves behind. The checks and the mutation of the source are two
passes over the payload; `change_iff` says that together they do exactly this, so every
invariant of the fold is one case analysis of `Change`.
-/

namespace Mabel

open Wire Proto Validate Machine

variable {C : Crypto}

namespace LedgerState

/-- The invitations after the open one of an identity is cancelled. -/
def cancelOpen (s : LedgerState C) (target : IdentityId) : SortedMap EventId (Invitation C) :=
  match s.openInvitationOf target with
  | some (event, _) => s.invitations.adjust event fun i => { i with status := .cancelled }
  | none => s.invitations

/-- The principals after an identity left. -/
def dropPrincipal (s : LedgerState C) (target : IdentityId) :
    SortedMap IdentityId (Principal C) :=
  if (s.principals.get? target).isSome then s.principals.remove target else s.principals

/-- The rule of each payload and the state it leaves, the head apart. -/
inductive Change (s : LedgerState C) (seq : Nat) (id : EventId)
    (signer : Option (SigningPrincipal C)) : Payload → LedgerState C → Prop
  | seeded {i : Inception} {kind : DeclaredKind} {root : LedgerRoot C} {rid : IdentityId}
    {key : PublicKey C} (kindOf : DeclaredKind.tryFrom i.kind = some kind)
    (seeds : Seeds id i.root root rid key) :
    Change s seq id signer (.inception i) { s with
      declaredKind := some kind
      root := some root
      ledger := some id.toIdentity
      principals := SortedMap.empty.insert rid ⟨.controller, key⟩ }
  | witnessEndpoints {w : WitnessConfig} {endpoints : List (EndpointId C)}
    (keys : List.Forall₂ (fun raw key => raw = key.asBytes) w.witnesses endpoints) :
    Change s seq id signer (.witnessConfig w) { s with witnessEndpoints := endpoints }
  | witnessSet {w : Proto.WitnessSet} {witnesses : List IdentityId} {sp : SigningPrincipal C}
    (ids : List.Forall₂ (fun raw id => raw = IdentityId.toVec id) w.witnesses witnesses)
    (signed : signer = some sp) :
    Change s seq id signer (.witnessSet w)
      { s with witnessSet := some ⟨witnesses, sp, id, seq⟩ }
  | endpoints {a : Proto.EndpointAdvertisement} {endpoints : List (EndpointId C)}
    {sp : SigningPrincipal C}
    (keys : List.Forall₂ (fun raw key => raw = key.asBytes) a.endpoints endpoints)
    (signed : signer = some sp) :
    Change s seq id signer (.endpointAdvertisement a)
      { s with endpointAdvertisement := some ⟨endpoints, sp, id, seq⟩ }
  | attested {a : TrustAttestation} {subject : IdentityId} {sp : SigningPrincipal C}
    (names : a.subject = subject.toVec) (other : s.ledger ≠ some subject)
    (unattested : s.unrevoked subject = none) (signed : signer = some sp) :
    Change s seq id signer (.trustAttestation a)
      { s with trust := s.trust.insert id ⟨subject, sp, none⟩ }
  | revoked {r : TrustRevocation} {target : EventId} {a : Attestation C}
    (names : r.target = target.toVec) (found : s.trust.get? target = some a)
    (live : a.revokedBy = none) :
    Change s seq id signer (.trustRevocation r)
      { s with trust := s.trust.adjust target fun a => { a with revokedBy := some id } }
  | invited {i : MembershipInvitation} {invitee : IdentityId} {key : PublicKey C} {role : Role}
    (names : i.invitee = invitee.toVec) (keyed : i.inviteeKey = key.asBytes)
    (roleOf : Role.tryFrom i.role = some role) (noOpen : s.openInvitationOf invitee = none)
    (sameKey : ∀ p, s.principals.get? invitee = some p → p.activeKey = key) :
    Change s seq id signer (.membershipInvitation i)
      { s with invitations := s.invitations.insert id ⟨invitee, key, role, .open⟩ }
  | admitted {a : MembershipAcceptance} {blob : Acceptance} {event : EventId} {i : Invitation C}
    (decode : Acceptance.decode a.acceptance = some blob) (consumes : s.Matches blob event i)
    (unheld : ∀ holder p, s.principals.get? holder = some p → p.activeKey = i.inviteeKey →
      holder = i.invitee)
    (demotes : s.isController i.invitee = true → i.role ≠ .controller →
      s.Dispensable i.invitee) :
    Change s seq id signer (.membershipAcceptance a) { s with
      invitations := s.invitations.adjust event fun i => { i with status := .accepted }
      principals := s.principals.insert i.invitee ⟨i.role, i.inviteeKey⟩ }
  | removed {r : MembershipRemoval} {target : IdentityId} (names : r.target = target.toVec)
    (notRoot : s.isRawRoot target = false)
    (known : s.openInvitationOf target ≠ none ∨ s.principals.get? target ≠ none)
    (spares : s.isController target = true →
      ∃ other key, other ≠ target ∧ s.principals.get? other = some ⟨.controller, key⟩) :
    Change s seq id signer (.membershipRemoval r) { s with
      invitations := s.cancelOpen target
      principals := s.dropPrincipal target }
  | profile {p : ProfileUpdate} {sp : SigningPrincipal C} (signed : signer = some sp) :
    Change s seq id signer (.profileUpdate p) { s with
      profile := some ⟨setName p.displayName, setName p.hostname, setName p.email, sp, id, seq⟩ }

variable {s s' mid : LedgerState C} {seq : Nat} {id : EventId}
  {signer : Option (SigningPrincipal C)} {payload : Payload}

/-- The removal check found the invitation it cancels. -/
theorem cancelInvitation_eq_ok {target : IdentityId}
    {invitations : SortedMap EventId (Invitation C)} :
    s.cancelInvitation ((s.openInvitationOf target).map Prod.fst) = .ok invitations ↔
      invitations = s.cancelOpen target := by
  rw [cancelOpen]
  cases h : s.openInvitationOf target with
  | none => simp [cancelInvitation, eq_comm]
  | some found =>
    obtain ⟨event, i⟩ := found
    simp [cancelInvitation, (openInvitationOf_some h).1, eq_comm]

/-- What the checks pass and the commit writes is a change. -/
theorem change_of_checked {effect : Effect C}
    (hsem : s.checkSemantics id payload signer = .ok effect)
    (hcommit : s.commitEffect seq id effect = .ok mid) :
    s.Change seq id signer payload mid := by
  cases payload with
  | inception i =>
    obtain ⟨kind, root, rid, key, hkind, hseeds, rfl⟩ := seedFromInception_eq_ok.mp hsem
    obtain rfl := Except.ok.inj hcommit
    exact .seeded hkind hseeds
  | witnessConfig w =>
    simp only [checkSemantics, Outcome.bind_eq_ok, mapM_eq_ok, publicKey_eq_ok,
      Except.ok.injEq] at hsem
    obtain ⟨endpoints, hkeys, rfl⟩ := hsem
    obtain rfl := Except.ok.inj hcommit
    exact .witnessEndpoints hkeys
  | witnessSet w =>
    simp only [checkSemantics, Outcome.bind_eq_ok, mapM_eq_ok, identity_eq_ok,
      Outcome.expect_eq_ok, Except.ok.injEq] at hsem
    obtain ⟨witnesses, hids, sp, hsp, rfl⟩ := hsem
    obtain rfl := Except.ok.inj hcommit
    exact .witnessSet hids hsp
  | endpointAdvertisement a =>
    simp only [checkSemantics, Outcome.bind_eq_ok, mapM_eq_ok, publicKey_eq_ok,
      Outcome.expect_eq_ok, Except.ok.injEq] at hsem
    obtain ⟨endpoints, hkeys, sp, hsp, rfl⟩ := hsem
    obtain rfl := Except.ok.inj hcommit
    exact .endpoints hkeys hsp
  | trustAttestation a =>
    obtain ⟨subject, sp, hs, hne, hun, hsp, rfl⟩ := checkAttestation_eq_ok.mp hsem
    obtain rfl := Except.ok.inj hcommit
    exact .attested hs hne hun hsp
  | trustRevocation r =>
    obtain ⟨target, a, ht, ha, hlive, rfl⟩ := checkRevocation_eq_ok.mp hsem
    simp only [commitEffect, ha, Outcome.expect_some, Outcome.ok_bind, Except.ok.injEq] at hcommit
    obtain rfl := hcommit
    exact .revoked ht ha hlive
  | membershipInvitation i =>
    obtain ⟨invitee, key, role, hi, hk, hr, hopen, hsame, rfl⟩ := checkInvitation_eq_ok.mp hsem
    obtain rfl := Except.ok.inj hcommit
    exact .invited hi hk hr hopen hsame
  | membershipAcceptance a =>
    obtain ⟨blob, event, i, hblob, hmatch, hunheld, hdemote, rfl⟩ := checkAcceptance_eq_ok.mp hsem
    simp only [commitEffect, hmatch.issued, Outcome.expect_some, Outcome.ok_bind,
      Except.ok.injEq] at hcommit
    obtain rfl := hcommit
    exact .admitted hblob hmatch hunheld hdemote
  | membershipRemoval r =>
    simp only [checkSemantics, Outcome.bind_eq_ok, identity_eq_ok, checkRemoval_eq_ok] at hsem
    obtain ⟨target, ht, hroot, hknown, hspares, rfl⟩ := hsem
    simp only [commitEffect, Outcome.bind_eq_ok, cancelInvitation_eq_ok, exists_eq_left,
      Except.ok.injEq] at hcommit
    obtain rfl := hcommit
    exact .removed ht hroot hknown hspares
  | profileUpdate p =>
    simp only [checkSemantics, Outcome.bind_eq_ok, Outcome.expect_eq_ok, Except.ok.injEq] at hsem
    obtain ⟨sp, hsp, rfl⟩ := hsem
    obtain rfl := Except.ok.inj hcommit
    exact .profile hsp

/-- A change passes the checks and is what the commit writes. -/
theorem Change.checked (h : s.Change seq id signer payload mid) :
    ∃ effect, s.checkSemantics id payload signer = .ok effect ∧
      s.commitEffect seq id effect = .ok mid := by
  cases h with
  | seeded hkind hseeds =>
    exact ⟨_, seedFromInception_eq_ok.mpr ⟨_, _, _, _, hkind, hseeds, rfl⟩, rfl⟩
  | witnessEndpoints hkeys =>
    refine ⟨.witnessEndpoints _, ?_, rfl⟩
    simp only [checkSemantics, Outcome.bind_eq_ok, mapM_eq_ok, publicKey_eq_ok]
    exact ⟨_, hkeys, rfl⟩
  | witnessSet hids hsp =>
    refine ⟨.witnessSet _ _, ?_, rfl⟩
    simp only [checkSemantics, Outcome.bind_eq_ok, mapM_eq_ok, identity_eq_ok,
      Outcome.expect_eq_ok]
    exact ⟨_, hids, _, hsp, rfl⟩
  | endpoints hkeys hsp =>
    refine ⟨.endpoints _ _, ?_, rfl⟩
    simp only [checkSemantics, Outcome.bind_eq_ok, mapM_eq_ok, publicKey_eq_ok,
      Outcome.expect_eq_ok]
    exact ⟨_, hkeys, _, hsp, rfl⟩
  | attested hs hne hun hsp =>
    exact ⟨_, checkAttestation_eq_ok.mpr ⟨_, _, hs, hne, hun, hsp, rfl⟩, rfl⟩
  | revoked ht ha hlive =>
    exact ⟨_, checkRevocation_eq_ok.mpr ⟨_, _, ht, ha, hlive, rfl⟩, by simp [commitEffect, ha]⟩
  | invited hi hk hr hopen hsame =>
    exact ⟨_, checkInvitation_eq_ok.mpr ⟨_, _, _, hi, hk, hr, hopen, hsame, rfl⟩, rfl⟩
  | admitted hblob hmatch hunheld hdemote =>
    refine ⟨_, checkAcceptance_eq_ok.mpr ⟨_, _, _, hblob, hmatch, hunheld, hdemote, rfl⟩, ?_⟩
    simp [commitEffect, hmatch.issued]
  | @removed r target ht hroot hknown hspares =>
    refine ⟨.remove target ((s.openInvitationOf target).map Prod.fst)
      (s.principals.get? target).isSome, ?_, ?_⟩
    · simp only [checkSemantics, Outcome.bind_eq_ok, identity_eq_ok, checkRemoval_eq_ok]
      exact ⟨target, ht, hroot, hknown, hspares, rfl⟩
    · simp only [commitEffect, Outcome.bind_eq_ok, cancelInvitation_eq_ok, exists_eq_left]
      rfl
  | profile hsp =>
    refine ⟨.profile _ _ _ _, ?_, rfl⟩
    simp only [checkSemantics, Outcome.bind_eq_ok, Outcome.expect_eq_ok]
    exact ⟨_, hsp, rfl⟩

/-- The checks pass and the mutation succeeds exactly on the changes. -/
theorem change_iff : s.Change seq id signer payload mid ↔
    ∃ effect, s.checkSemantics id payload signer = .ok effect ∧
      s.commitEffect seq id effect = .ok mid :=
  ⟨Change.checked, fun ⟨_, hsem, hcommit⟩ => change_of_checked hsem hcommit⟩

/-- Only an inception sets the kind, the root and the id of the ledger. -/
theorem Change.fixed (h : s.Change seq id signer payload mid) (hp : isInception payload = false) :
    mid.declaredKind = s.declaredKind ∧ mid.root = s.root ∧ mid.ledger = s.ledger := by
  cases h with
  | seeded => simp [isInception] at hp
  | _ => exact ⟨rfl, rfl, rfl⟩

/-- A commit records the effect and moves the head. -/
theorem commit_eq_ok {time : Nat} {effect : Effect C} :
    s.commit seq id time effect = .ok s' ↔
      ∃ mid, s.commitEffect seq id effect = .ok mid ∧
        s' = { mid with head := some ⟨seq, id, time⟩ } := by
  simp only [commit, Outcome.bind_eq_ok, Except.ok.injEq]
  exact exists_congr fun mid => and_congr_right fun _ => eq_comm

end LedgerState

/-! ## Runs of the fold -/

/-- The head an accepted event leaves. -/
def Step.newHead {s s' : LedgerState C} {event : Bytes} (st : Step s event s') : Head :=
  ⟨s.nextSeq, st.id, st.body.timestampMs⟩

/-- An accepted event changes the state as its payload says and moves the head. -/
theorem Step.change {s s' : LedgerState C} {event : Bytes} (st : Step s event s') :
    ∃ mid, s.Change s.nextSeq st.id st.signer st.payload mid ∧
      s' = { mid with head := some st.newHead } := by
  obtain ⟨mid, hmid, hs'⟩ := LedgerState.commit_eq_ok.mp st.committed
  exact ⟨mid, LedgerState.change_iff.mpr ⟨_, st.semantics, hmid⟩, hs'⟩

/-- An accepted event is the new head. -/
theorem Step.head {s s' : LedgerState C} {event : Bytes} (st : Step s event s') :
    s'.head = some st.newHead := by
  obtain ⟨mid, -, hs'⟩ := st.change
  exact (congrArg LedgerState.head hs').trans rfl

/-- The runs of the fold, by the log of the events it accepted. -/
abbrev FoldRun (log : List Bytes) (s : LedgerState C) : Prop :=
  RunFrom (Accepts LedgerState.apply) LedgerState.default log s

/-- Only the empty log leads to a state without a head. -/
theorem FoldRun.empty_of_head {log : List Bytes} {s : LedgerState C} (h : FoldRun log s)
    (hhead : s.head = none) : log = [] ∧ s = LedgerState.default := by
  cases h with
  | nil => exact ⟨rfl, rfl⟩
  | snoc hrun haccept =>
    obtain ⟨st⟩ := apply_iff.mp haccept
    simp [st.head] at hhead

/-- An inception is accepted on the state before any event and on no other. -/
theorem FoldRun.inception_iff {log : List Bytes} {s s' : LedgerState C} {event : Bytes}
    (h : FoldRun log s) (st : Step s event s') :
    isInception st.payload = true ↔ s = LedgerState.default := by
  rw [st.position, decide_eq_true_iff, LedgerState.nextSeq_eq_zero]
  exact ⟨fun hhead => (h.empty_of_head hhead).2, fun hs => hs ▸ rfl⟩

/-- What the first accepted event left for good: its inception's kind and root, and its id. -/
structure Founded (event : Bytes) (s : LedgerState C) where
  signed : SignedEvent
  body : EventBody
  inception : Inception
  kind : DeclaredKind
  root : LedgerRoot C
  rid : IdentityId
  key : PublicKey C
  opened : Opened C event signed body (.inception inception)
  kindOf : DeclaredKind.tryFrom inception.kind = some kind
  seeds : LedgerState.Seeds (eventId C signed.body) inception.root root rid key
  declaredKind_eq : s.declaredKind = some kind
  root_eq : s.root = some root
  ledger_eq : s.ledger = some (eventId C signed.body).toIdentity

/-- The id of the first event, which names the ledger. -/
def Founded.id {event : Bytes} {s : LedgerState C} (f : Founded event s) : EventId :=
  eventId C f.signed.body

/-- The first accepted event is an inception. -/
theorem Step.founded {s' : LedgerState C} {event : Bytes}
    (st : Step LedgerState.default event s') : Nonempty (Founded event s') := by
  obtain ⟨mid, hchange, hs'⟩ := st.change
  have hposition : isInception st.payload = true := st.position
  have hopened := st.opened
  generalize hp : st.payload = payload at hchange hposition hopened
  cases hchange with
  | @seeded i kind root rid key hkind hseeds =>
    exact ⟨⟨st.signed, st.body, i, kind, root, rid, key, hopened, hkind, hseeds,
      congrArg LedgerState.declaredKind hs', congrArg LedgerState.root hs',
      congrArg LedgerState.ledger hs'⟩⟩
  | _ => simp [isInception] at hposition

/-- Past the first event the kind, the root and the id of the ledger stay. -/
theorem Step.fixed {s s' : LedgerState C} {event : Bytes} (st : Step s event s')
    (hhead : s.head ≠ none) :
    s'.declaredKind = s.declaredKind ∧ s'.root = s.root ∧ s'.ledger = s.ledger := by
  obtain ⟨mid, hchange, hs'⟩ := st.change
  have hposition : isInception st.payload = false := by
    rw [st.position, decide_eq_false_iff_not, LedgerState.nextSeq_eq_zero]
    exact hhead
  rw [hs']
  exact hchange.fixed hposition

/-- From a state with a head on, a run changes neither the kind nor the root nor the id of
the ledger, and keeps a head. -/
theorem fixed_of_runFrom {s t : LedgerState C} {log : List Bytes}
    (h : RunFrom (Accepts LedgerState.apply) s log t) (hhead : s.head ≠ none) :
    t.head ≠ none ∧ t.declaredKind = s.declaredKind ∧ t.root = s.root ∧ t.ledger = s.ledger := by
  refine h.invariant (P := fun u => u.head ≠ none ∧ u.declaredKind = s.declaredKind ∧
    u.root = s.root ∧ u.ledger = s.ledger) ⟨hhead, rfl, rfl, rfl⟩ ?_
  rintro u event u' ⟨hu, hkind, hroot, hledger⟩ haccept
  obtain ⟨st⟩ := apply_iff.mp haccept
  obtain ⟨hkind', hroot', hledger'⟩ := st.fixed hu
  exact ⟨by simp [st.head], hkind'.trans hkind, hroot'.trans hroot, hledger'.trans hledger⟩

/-- A run with a head was founded by its first event. -/
theorem FoldRun.founded {log : List Bytes} {s : LedgerState C} (h : FoldRun log s)
    (hhead : s.head ≠ none) :
    ∃ first rest, log = first :: rest ∧ Nonempty (Founded first s) := by
  cases log with
  | nil => exact absurd (congrArg LedgerState.head h.eq_of_nil) hhead
  | cons first rest =>
    obtain ⟨s₁, haccept, hrest⟩ := h.cases_cons
    obtain ⟨st⟩ := apply_iff.mp haccept
    obtain ⟨f⟩ := st.founded
    obtain ⟨-, hkind, hroot, hledger⟩ := fixed_of_runFrom hrest (by simp [st.head])
    exact ⟨first, rest, rfl, ⟨{ f with
      declaredKind_eq := hkind.trans f.declaredKind_eq
      root_eq := hroot.trans f.root_eq
      ledger_eq := hledger.trans f.ledger_eq }⟩⟩

/-! ## Handing byte strings to the fold -/

/-- The state after a sequence of byte strings was handed to `apply`. -/
def after (C : Crypto) (events : List Bytes) : LedgerState C :=
  replay LedgerState.apply LedgerState.default events

/-- The byte strings of a sequence that `apply` accepted. -/
def acceptedOf (C : Crypto) (events : List Bytes) : List Bytes :=
  accepted LedgerState.apply (LedgerState.default : LedgerState C) events

theorem foldRun_after (events : List Bytes) : FoldRun (acceptedOf C events) (after C events) :=
  run_replay events LedgerState.default

/-- More byte strings continue the run of the first. -/
theorem runFrom_after (events more : List Bytes) :
    RunFrom (Accepts LedgerState.apply) (after C events)
      (accepted LedgerState.apply (after C events) more) (after C (events ++ more)) := by
  rw [after, after, replay_append]
  exact run_replay more _

theorem acceptedOf_append (events more : List Bytes) : acceptedOf C (events ++ more) =
    acceptedOf C events ++ accepted LedgerState.apply (after C events) more :=
  accepted_append events more LedgerState.default

end Mabel
