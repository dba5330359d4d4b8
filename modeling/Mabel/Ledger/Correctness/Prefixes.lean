import Mabel.Ledger.Correctness.Assertions
import Mabel.Ledger.Correctness.Chain
import Mabel.Ledger.Fold.InPlace

/-!
# Prefixes, atomicity and frames of a fold

A fold stops at the first event the state before it rejects, so its state is that of the longest
accepted prefix and a longer list continues where a shorter one ended. An event that is rejected
leaves the state as it was, and one that is accepted writes the head and the component of its own
payload.
-/

namespace Mabel

open Wire Proto Validate Machine

variable {C : Crypto}

/-! ## Where a fold stops -/

/-- A fold accepts a prefix and then either ends or stops at an event the state rejects. -/
theorem foldFrom_cases {events : List Bytes} {s t : LedgerState C}
    {violation : Option (Violation C)} (h : foldFrom s events = .ok (t, violation)) :
    ∃ done rest, events = done ++ rest ∧ RunFrom (Accepts LedgerState.apply) s done t ∧
      (rest = [] ∧ violation = none ∨ ∃ event later reason, rest = event :: later ∧
        t.apply event = .error (.reject reason) ∧ violation = some ⟨t.nextSeq, reason⟩) := by
  induction events generalizing s with
  | nil =>
    obtain ⟨rfl, rfl⟩ : s = t ∧ none = violation := by simpa [foldFrom] using h
    exact ⟨[], [], rfl, .nil, .inl ⟨rfl, rfl⟩⟩
  | cons event events ih =>
    rw [foldFrom] at h
    rcases happly : s.apply event with (reason | site) | s'
    · rw [happly] at h
      obtain ⟨rfl, rfl⟩ : s = t ∧ some ⟨s.nextSeq, reason⟩ = violation := by simpa using h
      exact ⟨[], event :: events, rfl, .nil, .inr ⟨event, events, reason, rfl, happly, rfl⟩⟩
    · rw [happly] at h
      exact absurd h Outcome.panic_ne_ok
    · rw [happly] at h
      obtain ⟨done, rest, rfl, hrun, hend⟩ := ih h
      exact ⟨event :: done, rest, rfl, hrun.cons happly, hend⟩

/-- Events after an accepted prefix are folded from the state the prefix led to. -/
theorem foldFrom_append {before : List Bytes} {s t : LedgerState C}
    (h : RunFrom (Accepts LedgerState.apply) s before t) (after : List Bytes) :
    foldFrom s (before ++ after) = foldFrom t after := by
  induction before generalizing s with
  | nil => rw [h.eq_of_nil, List.nil_append]
  | cons event before ih =>
    obtain ⟨s', haccept, hrest⟩ := h.cases_cons
    rw [List.cons_append, foldFrom, show s.apply event = .ok s' from haccept]
    exact ih hrest

/-- What a fold of any list answers: the state of a prefix, that no longer prefix is accepted,
and why the next event was not. -/
structure StopsAt (events : List Bytes) (n : Nat) (s : LedgerState C)
    (violation : Option (Violation C)) : Prop where
  le : n ≤ events.length
  run : FoldRun (events.take n) s
  longest : ∀ m t, m ≤ events.length → FoldRun (C := C) (events.take m) t → m ≤ n
  violates : violation ≠ none ↔ n < events.length
  next : ∀ event, events[n]? = some event → ∃ reason,
    s.apply event = .error (.reject reason) ∧ violation = some ⟨n, reason⟩

/-- A fold stops at its first violation or at the end. -/
theorem fold_stopsAt {events : List Bytes} {s : LedgerState C}
    {violation : Option (Violation C)} (h : fold C events = .ok (s, violation)) :
    ∃ n, StopsAt events n s violation := by
  obtain ⟨done, rest, rfl, hrun, hend⟩ := foldFrom_cases h
  have htake : (done ++ rest).take done.length = done := List.take_left
  have hlength : (done ++ rest).length = done.length + rest.length := List.length_append
  refine ⟨done.length, by omega, by rwa [htake], ?_, ?_, ?_⟩
  · intro m t hm hlonger
    rcases hend with ⟨rfl, -⟩ | ⟨event, later, reason, rfl, hreject, -⟩
    · simpa using hm
    · -- A longer accepted prefix would have accepted the rejected event.
      by_contra hlt
      have hsplit : (done ++ event :: later).take m =
          done ++ event :: later.take (m - done.length - 1) := by
        rw [List.take_append, List.take_of_length_le (by omega),
          show m - done.length = (m - done.length - 1) + 1 by omega, List.take_succ_cons]
        rfl
      rw [hsplit] at hlonger
      obtain ⟨u, hdone, hafter⟩ := hlonger.split
      obtain rfl := hrun.functional hdone
      obtain ⟨u', haccept, -⟩ := hafter.cases_cons
      rw [show s.apply event = .ok u' from haccept] at hreject
      simp at hreject
  · rcases hend with ⟨rfl, rfl⟩ | ⟨event, later, reason, rfl, -, rfl⟩
    · simp
    · simp
  · intro event hnext
    rcases hend with ⟨rfl, -⟩ | ⟨first, later, reason, rfl, hreject, rfl⟩
    · simp at hnext
    · obtain rfl : first = event := by simpa using hnext
      exact ⟨reason, hreject, by rw [FoldRun.nextSeq hrun]⟩

/-! ## What an event writes -/

/-- The trust events. -/
def isTrust : Payload → Bool
  | .trustAttestation _ | .trustRevocation _ => true
  | _ => false

/-- The membership events. -/
def isMembership : Payload → Bool
  | .membershipInvitation _ | .membershipAcceptance _ | .membershipRemoval _ => true
  | _ => false

/-- The events that replace the endpoint list. -/
def isWitnessConfig : Payload → Bool
  | .witnessConfig _ => true
  | _ => false

/-- The events that replace the advertisement. -/
def isEndpointAdvertisement : Payload → Bool
  | .endpointAdvertisement _ => true
  | _ => false

/-- The events that replace the witness set. -/
def isWitnessSet : Payload → Bool
  | .witnessSet _ => true
  | _ => false

/-- The events that replace the profile. -/
def isProfileUpdate : Payload → Bool
  | .profileUpdate _ => true
  | _ => false

/-- The state an accepted event past the first leaves: the head it moved to and the one component
its payload writes, which a list, an advertisement, a witness set or a profile replaces whole. -/
def Frames (s s' : LedgerState C) (head : Head) (signer : SigningPrincipal C) : Payload → Prop
  | .inception _ => False
  | .witnessConfig w => ∃ endpoints,
      List.Forall₂ (fun raw key => raw = PublicKey.asBytes key) w.witnesses endpoints ∧
      s' = { s with head := some head, witnessEndpoints := endpoints }
  | .endpointAdvertisement a => ∃ endpoints,
      List.Forall₂ (fun raw key => raw = PublicKey.asBytes key) a.endpoints endpoints ∧
      s' = { s with
        head := some head
        endpointAdvertisement := some ⟨endpoints, signer, head.eventId, head.seq⟩ }
  | .witnessSet w => ∃ witnesses,
      List.Forall₂ (fun raw id => raw = IdentityId.toVec id) w.witnesses witnesses ∧
      s' = { s with
        head := some head
        witnessSet := some ⟨witnesses, signer, head.eventId, head.seq⟩ }
  | .profileUpdate p => s' = { s with
      head := some head
      profile := some ⟨setName p.displayName, setName p.hostname, setName p.email, signer,
        head.eventId, head.seq⟩ }
  | .trustAttestation _ | .trustRevocation _ => ∃ trust,
      s' = { s with head := some head, trust := trust }
  | .membershipInvitation _ | .membershipAcceptance _ | .membershipRemoval _ =>
      ∃ principals invitations, s' = { s with
        head := some head
        principals := principals
        invitations := invitations }

/-- Past the first event somebody signs. -/
theorem Step.signer_past {s s' : LedgerState C} {event : Bytes} (st : Step s event s')
    (hpast : s.nextSeq ≠ 0) :
    ∃ sp, s.signingPrincipal st.key = some sp ∧ st.signer = some sp := by
  have hsigns := st.signs
  rwa [LedgerState.Signs, if_neg hpast] at hsigns

/-- A change writes the components its payload owns. -/
theorem LedgerState.Change.frames {s mid s' : LedgerState C} {head : Head}
    {signer : SigningPrincipal C} {payload : Payload}
    (h : s.Change head.seq head.eventId (some signer) payload mid)
    (hs' : s' = { mid with head := some head }) (hpast : isInception payload = false) :
    Frames s s' head signer payload := by
  subst hs'
  cases h with
  | seeded hkind hseeds => simp [isInception] at hpast
  | witnessEndpoints hkeys => exact ⟨_, hkeys, rfl⟩
  | witnessSet hids hsigned =>
    obtain rfl := Option.some.inj hsigned
    exact ⟨_, hids, rfl⟩
  | endpoints hkeys hsigned =>
    obtain rfl := Option.some.inj hsigned
    exact ⟨_, hkeys, rfl⟩
  | attested hnames hother hunattested hsigned => exact ⟨_, rfl⟩
  | revoked hnames hfound hlive => exact ⟨_, rfl⟩
  | invited hnames hkeyed hrole hnoOpen hsameKey => exact ⟨_, _, rfl⟩
  | admitted hdecode hconsumes hunheld hdemotes => exact ⟨_, _, rfl⟩
  | removed hnames hnotRoot hknown hspares => exact ⟨_, _, rfl⟩
  | profile hsigned =>
    obtain rfl := Option.some.inj hsigned
    rfl

/-- An accepted event writes the components its payload owns. -/
theorem Step.frames {s s' : LedgerState C} {event : Bytes} (st : Step s event s')
    (hpast : s.nextSeq ≠ 0) {sp : SigningPrincipal C} (hsigner : st.signer = some sp) :
    Frames s s' ⟨s.nextSeq, eventIdOf C event, st.body.timestampMs⟩ sp st.payload := by
  obtain ⟨mid, hchange, hs'⟩ := st.change
  rw [Step.newHead, st.id_eq] at hs'
  rw [st.id_eq, hsigner] at hchange
  have hposition : isInception st.payload = false := by
    rw [st.position, decide_eq_false_iff_not]
    exact hpast
  exact LedgerState.Change.frames hchange hs' hposition

/-- No event whose payload is of another kind writes a component. -/
def WrittenBy {α : Type} (C : Crypto) (own : Payload → Bool) (component : LedgerState C → α) :
    Prop :=
  ∀ (events : List Bytes) (n : Nat) (u s : LedgerState C), fold C (events.take n) = .ok (u, none) →
    fold C events = .ok (s, none) →
    (∀ (j : Nat) event signed body payload, n ≤ j → events[j]? = some event →
      openEvent event = some (signed, body, payload) → own payload = false) →
    component s = component u

/-- A component only one kind of payload writes. -/
theorem writtenBy_of_change {α : Type} {own : Payload → Bool} {component : LedgerState C → α}
    (hhead : ∀ (s : LedgerState C) head, component { s with head := head } = component s)
    (hchange : ∀ (s : LedgerState C) seq id signer payload mid,
      s.Change seq id signer payload mid → own payload = false → component mid = component s) :
    WrittenBy C own component := by
  intro events n u s hbefore hall hothers
  have hlater : RunFrom (Accepts LedgerState.apply) u (events.drop n) s := by
    have hrun := fold_eq_ok.mp hall
    rw [← List.take_append_drop n events] at hrun
    obtain ⟨v, hv, hrest⟩ := hrun.split
    rwa [← (fold_eq_ok.mp hbefore).functional hv] at hrest
  have hdropped : ∀ event ∈ events.drop n, ∀ signed body payload,
      openEvent event = some (signed, body, payload) → own payload = false := by
    intro event hmem signed body payload hopen
    obtain ⟨i, hi⟩ := List.mem_iff_getElem?.mp hmem
    rw [List.getElem?_drop] at hi
    exact hothers (n + i) event signed body payload (Nat.le_add_right n i) hi hopen
  clear hall
  generalize events.drop n = later at hlater hdropped
  -- Over the later events, each of which is of another kind.
  induction hlater with
  | nil => rfl
  | @snoc later t t' event _ haccept ih =>
    obtain ⟨st⟩ := apply_iff.mp haccept
    obtain ⟨mid, hmid, ht'⟩ := st.change
    rw [ht', hhead, hchange _ _ _ _ _ _ hmid (hdropped event (by simp) _ _ _
      (openEvent_of_opened st.opened))]
    exact ih fun e he => hdropped e (List.mem_append_left _ he)

/-- A fold answers for every list: the state of its longest accepted prefix, and a violation
exactly when an event is left over, at the prefix's length and for the reason `apply` gives. An
event that is rejected leaves the state it was offered to as it was, a list folded without a
violation may be continued from its state, and an accepted event past the first writes the head
and its own component, which nothing but its own kind of event writes. -/
theorem fold_laws (C : Crypto) :
    (∀ events : List Bytes, ∃ n s violation, fold C events = .ok (s, violation) ∧
      foldInPlace LedgerState.default events = .ok (s, violation) ∧
      StopsAt events n s violation) ∧
    (∀ (s s' : LedgerState C) event reason,
      LedgerState.applyInPlace event s = (.error (.reject reason), s') → s' = s) ∧
    (∀ (before after : List Bytes) (s : LedgerState C), fold C before = .ok (s, none) →
      fold C (before ++ after) = foldFrom s after ∧
      fold C (before ++ after) = foldInPlace s after) ∧
    (∀ (s s' : LedgerState C) event, LedgerState.applyInPlace event s = (.ok (), s') →
      s.nextSeq ≠ 0 → ∃ signed body payload key sp,
        openEvent event = some (signed, body, payload) ∧
        body.authorKey = PublicKey.asBytes key ∧ s.signingPrincipal key = some sp ∧
        Frames s s' ⟨s.nextSeq, eventIdOf C event, body.timestampMs⟩ sp payload) ∧
    WrittenBy C isWitnessConfig LedgerState.witnessEndpoints ∧
    WrittenBy C isEndpointAdvertisement LedgerState.endpointAdvertisement ∧
    WrittenBy C isWitnessSet LedgerState.witnessSet ∧
    WrittenBy C isProfileUpdate LedgerState.profile ∧
    WrittenBy C isTrust LedgerState.trust ∧
    WrittenBy C isMembership LedgerState.invitations ∧
    WrittenBy C (fun payload => isInception payload || isMembership payload)
      LedgerState.principals := by
  refine ⟨?_, ?_, ?_, ?_, ?_, ?_, ?_, ?_, ?_, ?_, ?_⟩
  · intro events
    obtain ⟨⟨s, violation⟩, hfold⟩ := fold_total C events
    obtain ⟨n, hstops⟩ := fold_stopsAt hfold
    exact ⟨n, s, violation, hfold, (foldInPlace_eq events _).trans hfold, hstops⟩
  · intro s s' event reason h
    rw [LedgerState.applyInPlace_eq] at h
    cases happly : s.apply event with
    | ok t => simp [happly, InPlace.settle] at h
    | error fault =>
      rw [happly] at h
      exact (congrArg Prod.snd h).symm
  · intro before after s h
    have happend := foldFrom_append (fold_eq_ok.mp h) after
    exact ⟨happend, happend.trans (foldInPlace_eq after s).symm⟩
  · intro s s' event h hpast
    rw [LedgerState.applyInPlace_eq] at h
    cases happly : s.apply event with
    | error fault => simp [happly, InPlace.settle] at h
    | ok t =>
      rw [happly] at h
      obtain rfl : t = s' := congrArg Prod.snd h
      obtain ⟨st⟩ := apply_iff.mp happly
      obtain ⟨sp, hsp, hsigner⟩ := st.signer_past hpast
      exact ⟨st.signed, st.body, st.payload, st.key, sp, openEvent_of_opened st.opened, st.author,
        hsp, st.frames hpast hsigner⟩
  all_goals
    refine writtenBy_of_change (fun _ _ => rfl) fun s seq id signer payload mid hchange hown => ?_
    cases hchange <;> first | rfl | simp [isInception, isMembership, isTrust, isWitnessConfig,
      isEndpointAdvertisement, isWitnessSet, isProfileUpdate] at hown

end Mabel
