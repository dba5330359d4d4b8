import Mabel.Ledger.Fold.Trace
import Mabel.Ledger.Spec.Roster

/-!
# The fold keeps a roster

Every accepted event is a move of the roster that the state's principals and invitations
form, so the fold has the roster's runs and its invariant. No collision assumption enters:
an invitation recorded over another still leaves one open invitation for its invitee.
-/

namespace Mabel

open Wire Proto Validate Machine

variable {C : Crypto}

/-- The seat a principal holds. -/
def Principal.seat (p : Principal C) : Seat (PublicKey C) := ⟨p.role, p.activeKey⟩

/-- The offer an invitation makes. -/
def Invitation.offer (i : Invitation C) : Offer IdentityId (PublicKey C) :=
  ⟨i.invitee, i.inviteeKey, i.role, i.status⟩

/-- The roster of a folded state. -/
def LedgerState.roster (s : LedgerState C) : Roster IdentityId (PublicKey C) EventId where
  founder := s.rootIdentity
  permanent :=
    match s.root with
    | some (.raw key _) => s.ledger.map fun l => (l, key)
    | _ => none
  seats := fun id => (s.principals.get? id).map Principal.seat
  offers := fun e => (s.invitations.get? e).map Invitation.offer

/-- What a payload asks of the roster. -/
def moveOfPayload (C : Crypto) (id : EventId) :
    Payload → Option (Move IdentityId (PublicKey C) EventId)
  | .inception i =>
    match (LedgerState.seedRoot id i.root : Checked C _) with
    | .ok (root, rootId, key) => some (.found rootId key root.isRaw)
    | .error _ => none
  | .membershipInvitation i => do
    let invitee ← IdentityId.fromSlice i.invitee
    let raw ← Block.ofBytes? idBytes i.inviteeKey
    let key ← PublicKey.fromBytes C raw
    let role ← Role.tryFrom i.role
    return .invite id invitee key role
  | .membershipAcceptance a => do
    let blob ← Acceptance.decode a.acceptance
    let event ← EventId.fromSlice blob.invitationEvent
    return .accept event
  | .membershipRemoval r => (IdentityId.fromSlice r.target).map .remove
  | _ => none

/-- What an event asks of the roster. -/
def moveOf (C : Crypto) (event : Bytes) : Move IdentityId (PublicKey C) EventId :=
  ((openEvent event).bind fun (signed, _, payload) =>
    moveOfPayload C (eventId C signed.body) payload).getD .other

/-- The move of an event is the move of its payload. -/
theorem moveOf_eq {event : Bytes} {signed : SignedEvent} {body : EventBody} {payload : Payload}
    (h : openEvent event = some (signed, body, payload)) :
    moveOf C event = (moveOfPayload C (eventIdOf C event) payload).getD .other := by
  have hbody : bodyOf event = signed.body := by
    simp only [openEvent, Option.bind_eq_bind, Option.bind_eq_some_iff] at h
    obtain ⟨m, hm, b, -, p, -, hmbp⟩ := h
    rw [bodyOf, hm]
    exact congrArg (SignedEvent.body ∘ Prod.fst) (Option.some.inj hmbp)
  rw [moveOf, h, Option.bind_some, eventIdOf, hbody]

/-! ## Events are moves -/

theorem roster_default : (LedgerState.default : LedgerState C).roster = Roster.empty := rfl

namespace Step

variable {s s' : LedgerState C} {event : Bytes}

/-- Past seq 0 the body names the ledger, so an invitee other than the body's ledger is
not the raw root. -/
theorem not_permanent (st : Step s event s') (hseq : s.nextSeq ≠ 0) {id : IdentityId}
    (hne : id.toVec ≠ st.body.ledger) (key : PublicKey C) :
    s.roster.permanent ≠ some (id, key) := by
  intro h
  obtain ⟨head, hhead⟩ := Option.ne_none_iff_exists'.mp fun h => hseq (LedgerState.nextSeq_eq_zero.mpr h)
  obtain ⟨l, hl, hbody, -⟩ := st.links.chain head hhead
  simp only [LedgerState.roster, hl, Option.map_some] at h
  split at h
  · simp only [Option.some.injEq, Prod.mk.injEq] at h
    exact hne (by rw [hbody, h.1])
  · simp at h

end Step

/-- An id that is no raw root is not the permanent one. -/
theorem permanent_ne_of_not_rawRoot {s : LedgerState C} {id : IdentityId}
    (h : s.isRawRoot id = false) (key : PublicKey C) : s.roster.permanent ≠ some (id, key) := by
  intro hp
  simp only [LedgerState.roster] at hp
  split at hp
  · rename_i k commit hroot
    obtain ⟨l, hl, hlk⟩ := Option.map_eq_some_iff.mp hp
    obtain ⟨rfl, rfl⟩ := Prod.mk.injEq .. ▸ hlk
    rw [LedgerState.isRawRoot_iff.mpr ⟨⟨_, _, hroot⟩, hl⟩] at h
    exact absurd h (by decide)
  · simp at hp

theorem roster_seat {s : LedgerState C} {id : IdentityId} {p : Principal C}
    (h : s.principals.get? id = some p) : s.roster.seats id = some p.seat := by
  simp [LedgerState.roster, h]

theorem roster_offer {s : LedgerState C} {event : EventId} {i : Invitation C}
    (h : s.invitations.get? event = some i) : s.roster.offers event = some i.offer := by
  simp [LedgerState.roster, h]

/-- The roster's controllers are the state's. -/
theorem roster_controls {s : LedgerState C} {id : IdentityId} :
    s.roster.Controls id ↔ ∃ key, s.principals.get? id = some ⟨.controller, key⟩ := by
  simp only [Roster.Controls, LedgerState.roster, Option.map_eq_some_iff]
  constructor
  · rintro ⟨key, ⟨role, k⟩, hget, h⟩
    obtain ⟨rfl, rfl⟩ := Seat.mk.injEq .. ▸ h
    exact ⟨_, hget⟩
  · rintro ⟨key, hget⟩
    exact ⟨key, _, hget, rfl⟩

/-- Whom the state can do without, the roster can. -/
theorem roster_spares {s : LedgerState C} {id : IdentityId} (h : s.Dispensable id) :
    s.roster.Spares id := by
  obtain ⟨hraw, other, key, hne, hget⟩ := h
  exact ⟨permanent_ne_of_not_rawRoot hraw, other, hne, roster_controls.mpr ⟨key, hget⟩⟩

namespace LedgerState

variable {s mid : LedgerState C} {seq : Nat} {id : EventId}
  {signer : Option (SigningPrincipal C)} {payload : Payload}

/-- Dropping a principal leaves the others. -/
theorem get?_dropPrincipal (target other : IdentityId) :
    (s.dropPrincipal target).get? other =
      if other = target then none else s.principals.get? other := by
  rw [dropPrincipal]
  by_cases h : (s.principals.get? target).isSome = true
  · rw [if_pos h, SortedMap.get?_remove]
    split_ifs <;> rfl
  · rw [if_neg h]
    split_ifs with he
    · rw [he, ← Option.not_isSome_iff_eq_none]
      exact h
    · rfl

/-- One open invitation of an identity at most, so cancelling the one a removal finds
withdraws all of them. -/
theorem offers_cancelOpen (hs : s.roster.Sound) (target : IdentityId) (event : EventId) :
    ((s.cancelOpen target).get? event).map Invitation.offer =
      (s.roster.offers event).map (Roster.withdraw target) := by
  have hoffers : s.roster.offers event = (s.invitations.get? event).map Invitation.offer := rfl
  rw [hoffers, Option.map_map, cancelOpen]
  cases h : s.openInvitationOf target with
  | none =>
    refine Option.map_congr fun i hi => ?_
    have hclosed := openInvitationOf_none.mp h event i hi
    rw [Function.comp, Roster.withdraw, if_neg fun hw => hclosed hw.1 hw.2]
  | some found =>
    obtain ⟨other, j⟩ := found
    obtain ⟨hj, hinvitee, hopen⟩ := openInvitationOf_some h
    rw [SortedMap.get?_adjust]
    split_ifs with he
    · rw [Option.map_map, he, hj]
      simp [Roster.withdraw, Invitation.offer, hinvitee, hopen]
    · refine Option.map_congr fun i hi => ?_
      have hclosed : ¬ (i.offer.invitee = target ∧ i.offer.status = .open) := fun hw =>
        he (hs.single event other i.offer j.offer (roster_offer hi) (roster_offer hj)
          hw.2 hopen (hw.1.trans hinvitee.symm))
      rw [Function.comp, Roster.withdraw, if_neg hclosed]

/-- The founding leaves the founder's seat alone. -/
theorem roster_seeded {r : Option Root} {root : LedgerRoot C} {rid : IdentityId}
    {key : PublicKey C} (kind : DeclaredKind) (h : Seeds id r root rid key) :
    LedgerState.roster { (default : LedgerState C) with
      declaredKind := some kind
      root := some root
      ledger := some id.toIdentity
      principals := SortedMap.empty.insert rid ⟨.controller, key⟩ } =
        Roster.founded rid key root.isRaw := by
  have hseats : ∀ other, ((SortedMap.empty.insert rid (⟨.controller, key⟩ : Principal C)).get?
      other).map Principal.seat = if other = rid then some ⟨.controller, key⟩ else none := by
    intro other
    rw [SortedMap.get?_insert]
    split_ifs <;> rfl
  apply Roster.ext
  · cases h <;> rfl
  · cases h <;> rfl
  · exact funext hseats
  · rfl

/-- An invitation is an offer issued. -/
theorem roster_invited (i : Invitation C) :
    LedgerState.roster { s with invitations := s.invitations.insert id i } =
      s.roster.issue id i.offer := by
  apply Roster.ext
  · rfl
  · rfl
  · rfl
  · funext event
    simp only [roster, Roster.issue, SortedMap.get?_insert]
    split_ifs <;> rfl

/-- An admission is an offer taken up. -/
theorem roster_admitted {event : EventId} {i : Invitation C}
    (hi : s.invitations.get? event = some i) :
    LedgerState.roster { s with
      invitations := s.invitations.adjust event fun i => { i with status := .accepted }
      principals := s.principals.insert i.invitee ⟨i.role, i.inviteeKey⟩ } =
        s.roster.take event i.offer := by
  apply Roster.ext
  · rfl
  · rfl
  · funext other
    have hinvitee : i.offer.invitee = i.invitee := rfl
    simp only [roster, Roster.take, SortedMap.get?_insert, hinvitee]
    split_ifs <;> rfl
  · funext other
    simp only [roster, Roster.take, SortedMap.get?_adjust]
    split_ifs with h
    · rw [h, hi]
      rfl
    · rfl

/-- A removal vacates the seat and withdraws the open offer. -/
theorem roster_removed (hs : s.roster.Sound) (target : IdentityId) :
    LedgerState.roster { s with
      invitations := s.cancelOpen target
      principals := s.dropPrincipal target } = s.roster.vacate target := by
  apply Roster.ext
  · rfl
  · rfl
  · funext other
    simp only [roster, Roster.vacate, get?_dropPrincipal]
    split_ifs <;> rfl
  · funext event
    exact offers_cancelOpen hs target event

/-- Every change is a move of the roster. -/
theorem Change.moves (h : s.Change seq id signer payload mid) (hs : s.roster.Sound)
    (hfirst : isInception payload = true → s = default)
    (hinvitee : ∀ i, payload = .membershipInvitation i → ∀ invitee : IdentityId,
      i.invitee = invitee.toVec → ∀ key, s.roster.permanent ≠ some (invitee, key)) :
    Roster.Moves s.roster ((moveOfPayload C id payload).getD .other) mid.roster := by
  cases h with
  | @seeded i kind root rid key hkind hseeds =>
    obtain rfl := hfirst rfl
    have hmove : moveOfPayload C id (.inception i) = some (.found rid key root.isRaw) := by
      simp [moveOfPayload, seedRoot_eq_ok.mpr hseeds]
    rw [hmove, Option.getD_some, roster_default, roster_seeded kind hseeds]
    exact .found rid key root.isRaw
  | @invited i invitee key role hi hk hr hopen hsame =>
    have hmove : moveOfPayload C id (.membershipInvitation i) =
        some (.invite id invitee key role) := by
      simp [moveOfPayload, hi, hk, hr, PublicKey.asBytes]
    rw [hmove, Option.getD_some, roster_invited]
    refine .invite id invitee key role ?_ ?_ (hinvitee i rfl invitee hi)
    · intro event o ho
      obtain ⟨j, hj, rfl⟩ := Option.map_eq_some_iff.mp ho
      exact openInvitationOf_none.mp hopen event j hj
    · intro seat hseat
      obtain ⟨p, hp, rfl⟩ := Option.map_eq_some_iff.mp hseat
      exact hsame p hp
  | @admitted a blob event i hblob hmatch hunheld hdemote =>
    have hmove : moveOfPayload C id (.membershipAcceptance a) = some (.accept event) := by
      simp [moveOfPayload, hblob, hmatch.names]
    rw [hmove, Option.getD_some, roster_admitted hmatch.issued]
    refine .accept event i.offer (roster_offer hmatch.issued) hmatch.isOpen ?_ ?_
    · intro other seat hseat
      obtain ⟨p, hp, rfl⟩ := Option.map_eq_some_iff.mp hseat
      exact hunheld other p hp
    · intro hcontrols hrole
      exact roster_spares (hdemote (isController_iff.mpr (roster_controls.mp hcontrols)) hrole)
  | @removed r target ht hroot hknown hspares =>
    have hmove : moveOfPayload C id (.membershipRemoval r) = some (.remove target) := by
      simp [moveOfPayload, ht]
    rw [hmove, Option.getD_some, roster_removed hs]
    refine .remove target (permanent_ne_of_not_rawRoot hroot) fun hcontrols => ?_
    exact roster_spares ⟨hroot, hspares (isController_iff.mpr (roster_controls.mp hcontrols))⟩
  | _ => exact .other

end LedgerState

/-- Every accepted event is a move of the roster. -/
theorem Step.moves {s s' : LedgerState C} {event : Bytes} {log : List Bytes} (h : FoldRun log s)
    (hs : s.roster.Sound) (st : Step s event s') :
    Roster.Moves s.roster (moveOf C event) s'.roster := by
  obtain ⟨mid, hchange, hs'⟩ := st.change
  have hroster : s'.roster = mid.roster := (congrArg LedgerState.roster hs').trans rfl
  rw [hroster, moveOf_eq (openEvent_of_opened st.opened), ← st.id_eq]
  refine hchange.moves hs (h.inception_iff st).mp fun i hi invitee hinvitee => ?_
  refine st.not_permanent (fun hseq => ?_) (hinvitee ▸ ?_)
  · have := st.position
    simp [hi, isInception, hseq] at this
  · have hrule := st.opened.rule
    rw [hi] at hrule
    exact hrule.2

/-- The fold of accepted events runs the roster. -/
theorem FoldRun.roster {log : List Bytes} {s : LedgerState C} (h : FoldRun log s) :
    Roster.Run (log.map (moveOf C)) s.roster := by
  refine h.simulate Roster.Moves LedgerState.roster (moveOf C) ?_
  intro log u event u' hrun habs haccept
  obtain ⟨st⟩ := apply_iff.mp haccept
  exact st.moves hrun (Roster.Run.sound habs)

/-- The roster runs on where the fold runs on. -/
theorem FoldRun.roster_from {log rest : List Bytes} {s t : LedgerState C} (h : FoldRun log s)
    (hrest : RunFrom (Accepts LedgerState.apply) s rest t) :
    RunFrom Roster.Moves s.roster (rest.map (moveOf C)) t.roster := by
  refine hrest.simulate Roster.Moves LedgerState.roster (moveOf C) ?_
  intro log' u event u' hrun _ haccept
  obtain ⟨st⟩ := apply_iff.mp haccept
  exact st.moves (h.append hrun) (FoldRun.roster (h.append hrun)).sound

end Mabel
