import Mabel.Core.HashChain
import Mabel.Ledger.Fold.Trace
import Mabel.Ledger.Sign.Build

/-!
# Authorization and the chain

A fold without a violation is a run, so every event of it continues the chain and was
signed by a controller of the state before it. The state depends on the bodies alone, and
the bodies form a chain of digests: where digests do not collide, the id of the head fixes
the whole history.
-/

namespace Mabel

open Wire Proto Validate Machine

variable {C : Crypto}

/-! ## Folds without a violation are runs -/

/-- A fold without a violation is a run that accepts every event. -/
theorem foldFrom_eq_ok {events : List Bytes} {s t : LedgerState C} :
    foldFrom s events = .ok (t, none) ↔ RunFrom (Accepts LedgerState.apply) s events t := by
  induction events generalizing s with
  | nil =>
    rw [foldFrom]
    constructor
    · intro h
      obtain rfl : s = t := congrArg Prod.fst (Except.ok.inj h)
      exact .nil
    · intro h
      rw [h.eq_of_nil]
  | cons event events ih =>
    rw [foldFrom]
    constructor
    · intro h
      cases happly : s.apply event with
      | ok s' =>
        rw [happly] at h
        exact (ih.mp h).cons happly
      | error e => cases e <;> simp [happly] at h
    · intro h
      obtain ⟨s', haccept, hrest⟩ := h.cases_cons
      rw [show s.apply event = .ok s' from haccept]
      exact ih.mpr hrest

theorem fold_eq_ok {events : List Bytes} {s : LedgerState C} :
    fold C events = .ok (s, none) ↔ FoldRun events s := foldFrom_eq_ok

/-! ## The state depends on the bodies alone -/

/-- Two events with one body leave one state, however they are framed and signed. -/
theorem Step.eq_of_body {s s₁ s₂ : LedgerState C} {a b : Bytes} (st : Step s a s₁)
    (st' : Step s b s₂) (hbody : bodyOf a = bodyOf b) : s₁ = s₂ := by
  rw [bodyOf_opened st.opened, bodyOf_opened st'.opened] at hbody
  have hsame : st.body = st'.body := Option.some.inj
    (st.opened.decodeBody.symm.trans (hbody ▸ st'.opened.decodeBody))
  have hpayload : st.payload = st'.payload := Option.some.inj
    (st.opened.holds.symm.trans (hsame ▸ st'.opened.holds))
  have hkey : st.key = st'.key := PublicKey.asBytes_injective
    (st.author.symm.trans (hsame ▸ st'.author))
  have hsigner : st.signer = st'.signer := by
    have h := st.signs
    have h' := st'.signs
    rw [LedgerState.Signs] at h h'
    split_ifs at h h'
    · rw [h, h']
    · obtain ⟨sp, hsp, hs⟩ := h
      obtain ⟨sp', hsp', hs'⟩ := h'
      rw [hs, hs', ← hsp, ← hsp', hkey]
  have heffect : st.effect = st'.effect := by
    have h := st.semantics
    rw [hbody, hpayload, hsigner, st'.semantics] at h
    exact (Except.ok.inj h).symm
  have h := st.committed
  rw [hbody, hsame, heffect, st'.committed] at h
  exact (Except.ok.inj h).symm

/-- Runs over the same bodies lead to the same state. -/
theorem FoldRun.eq_of_bodies {log log' : List Bytes} {s s' : LedgerState C} (h : FoldRun log s)
    (h' : FoldRun log' s') (hbodies : log.map bodyOf = log'.map bodyOf) : s = s' := by
  induction h generalizing log' s' with
  | nil =>
    obtain rfl : log' = [] := by simpa using hbodies.symm
    exact h'.eq_of_nil.symm
  | @snoc log u u' a hrun haccept ih =>
    rw [List.map_append, List.map_singleton] at hbodies
    obtain ⟨log₀, last, rfl, hlog₀, hlast⟩ := List.map_eq_append_iff.mp hbodies.symm
    obtain ⟨b, rfl, hb⟩ := List.map_eq_singleton_iff.mp hlast
    obtain ⟨v, hv, haccept'⟩ := h'.cases_snoc
    obtain rfl := ih hv hlog₀.symm
    obtain ⟨st⟩ := apply_iff.mp haccept
    obtain ⟨st'⟩ := apply_iff.mp haccept'
    exact st.eq_of_body st' hb.symm

/-! ## The bodies form a chain -/

/-- The event id a body names as the one before it. -/
def prevOf (body : Bytes) : Option EventId := do
  let body ← EventBody.decode body
  EventId.fromSlice body.prev

/-- The previous event an opened body names. -/
theorem prevOf_opened {event : Bytes} {signed : SignedEvent} {body : EventBody}
    {payload : Payload} (h : Opened C event signed body payload) :
    prevOf (bodyOf event) = EventId.fromSlice body.prev := by
  simp [prevOf, bodyOf_opened h, h.decodeBody]

/-- The first body of a ledger names none before it. -/
theorem Step.prevOf_first {s s' : LedgerState C} {event : Bytes} (st : Step s event s')
    (hhead : s.head = none) : prevOf (bodyOf event) = none := by
  have hprev := st.opened.valid.prev
  rw [st.seq, LedgerState.nextSeq_eq_zero.mpr hhead, if_pos rfl] at hprev
  rw [prevOf_opened st.opened, hprev]
  rfl

/-- The bodies of a run are linked up to the one its head names. -/
theorem FoldRun.linked {log : List Bytes} {s : LedgerState C} (h : FoldRun log s) {head : Head}
    (hhead : s.head = some head) :
    ∃ last, HashChain.Linked prevOf (eventId C) (log.map bodyOf) last ∧
      head.eventId = eventId C last := by
  induction h generalizing head with
  | nil => simp [LedgerState.default] at hhead
  | @snoc log u u' event hrun haccept ih =>
    obtain ⟨st⟩ := apply_iff.mp haccept
    obtain rfl : st.newHead = head := Option.some.inj (st.head.symm.trans hhead)
    refine ⟨bodyOf event, ?_, st.id_eq⟩
    cases hu : u.head with
    | none =>
      obtain ⟨rfl, -⟩ := FoldRun.empty_of_head hrun hu
      exact .first (st.prevOf_first hu)
    | some before =>
      obtain ⟨last, hlinked, hlast⟩ := ih hu
      obtain ⟨l, -, -, hprev, -⟩ := st.links.chain before hu
      rw [List.map_append]
      refine .next hlinked ?_
      rw [prevOf_opened st.opened, hprev, EventId.fromSlice_toVec, hlast]

/-- Where ids do not collide, the head of a run fixes its bodies and its state. -/
theorem FoldRun.eq_of_head {log log' : List Bytes} {s s' : LedgerState C} (h : FoldRun log s)
    (h' : FoldRun log' s') (hids : CollisionFree C (log ++ log')) {head head' : Head}
    (hhead : s.head = some head) (hhead' : s'.head = some head')
    (hid : head.eventId = head'.eventId) : log.map bodyOf = log'.map bodyOf ∧ s = s' := by
  obtain ⟨last, hlinked, hlast⟩ := h.linked hhead
  obtain ⟨last', hlinked', hlast'⟩ := h'.linked hhead'
  have hbodies : log.map bodyOf = log'.map bodyOf := by
    refine hlinked.eq_of_digest hlinked' ?_ (hlast.symm.trans (hid.trans hlast'))
    rintro x hx y hy hxy
    obtain ⟨a, ha, rfl⟩ := List.mem_map.mp hx
    obtain ⟨b, hb, rfl⟩ := List.mem_map.mp hy
    exact hids a (List.mem_append_left _ ha) b (List.mem_append_right _ hb) hxy
  exact ⟨hbodies, h.eq_of_bodies h' hbodies⟩

/-! ## Every event of a fold -/

/-- What an event past the first owes to the events before it. -/
structure Continues (events : List Bytes) (i : Nat) (body : EventBody) (key : PublicKey C) :
    Prop where
  /-- It is on the ledger the first event named. -/
  ledger : ∃ first, events[0]? = some first ∧ body.ledger = (eventIdOf C first).toVec
  /-- It names the event before it and is no older. -/
  prev : ∃ before signed prevBody payload, events[i - 1]? = some before ∧
    openEvent before = some (signed, prevBody, payload) ∧
    body.prev = (eventIdOf C before).toVec ∧ prevBody.timestampMs ≤ body.timestampMs
  /-- A controller of the state before it signed it. -/
  controller : ∃ u id, fold C (events.take i) = .ok (u, none) ∧
    u.principals.get? id = some ⟨.controller, key⟩

/-- The head of a run is its last event. -/
theorem FoldRun.head_last {log : List Bytes} {s : LedgerState C} (h : FoldRun log s) {head : Head}
    (hhead : s.head = some head) : ∃ last signed body payload,
      log[log.length - 1]? = some last ∧ openEvent last = some (signed, body, payload) ∧
      head.eventId = eventIdOf C last ∧ head.timestampMs = body.timestampMs := by
  cases h with
  | nil => simp [LedgerState.default] at hhead
  | @snoc log u _ event hrun haccept =>
    obtain ⟨st⟩ := apply_iff.mp haccept
    obtain rfl : st.newHead = head := Option.some.inj (st.head.symm.trans hhead)
    exact ⟨event, st.signed, st.body, st.payload, by simp, openEvent_of_opened st.opened, st.id_eq,
      rfl⟩

/-- Every event but the first continues the one before it. -/
theorem FoldRun.continues {events : List Bytes} {u u' : LedgerState C} {event : Bytes} {i : Nat}
    (hu : FoldRun (events.take i) u) (hseq : u.nextSeq = i) (st : Step u event u') (hi : 0 < i)
    (hlt : i < events.length) : Continues events i st.body st.key := by
  obtain ⟨head, hhead⟩ := Option.ne_none_iff_exists'.mp fun hnone =>
    hi.ne' (hseq ▸ LedgerState.nextSeq_eq_zero.mpr hnone)
  obtain ⟨l, hl, hledger, hprev, htime⟩ := st.links.chain head hhead
  refine ⟨?_, ?_, ?_⟩
  · obtain ⟨first, rest, hlog, ⟨f⟩⟩ := hu.founded (by simp [hhead])
    refine ⟨first, ?_, ?_⟩
    · have htake : (events.take i)[0]? = some first := by simp [hlog]
      rwa [List.getElem?_take_of_lt hi] at htake
    · obtain rfl : f.id.toIdentity = l := Option.some.inj (f.ledger_eq.symm.trans hl)
      rw [hledger, eventIdOf, bodyOf_opened f.opened]
      rfl
  · obtain ⟨before, signed, prevBody, payload, hbefore, hopen, hid, htimeEq⟩ := hu.head_last hhead
    rw [List.length_take_of_le hlt.le, List.getElem?_take_of_lt (by omega)] at hbefore
    exact ⟨before, signed, prevBody, payload, hbefore, hopen, hid ▸ hprev, htimeEq ▸ htime⟩
  · have hsigns := st.signs
    rw [LedgerState.Signs, if_neg (by omega)] at hsigns
    obtain ⟨sp, hsp, -⟩ := hsigns
    exact ⟨u, sp.identity, fold_eq_ok.mpr hu, (LedgerState.signingPrincipal_some hsp).2⟩

/-- Every event of a chain that folds declares its place, is signed by its author and continues
the chain, and without a collision the head's id fixes bodies and state. -/
theorem fold_sound (events : List Bytes) (s : LedgerState C)
    (h : fold C events = .ok (s, none)) :
    -- every event declares its position, is signed by its author and continues the chain
    (∀ (i : Nat) event, events[i]? = some event → ∃ signed body payload key signature,
      openEvent event = some (signed, body, payload) ∧ body.seq = i ∧
      (isInception payload = true ↔ i = 0) ∧
      body.authorKey = PublicKey.asBytes (C := C) key ∧ signed.signature = Block.bytes signature ∧
      key.verify (signInput signed.body) signature = true ∧
      (0 < i → Continues events i body key)) ∧
    -- the id of the head fixes the bodies and the state
    (∀ events' s' head head', fold C events' = .ok (s', none) →
      CollisionFree C (events ++ events') → s.head = some head → s'.head = some head' →
      head.eventId = head'.eventId → events.map bodyOf = events'.map bodyOf ∧ s = s') := by
  have hrun : FoldRun events s := fold_eq_ok.mp h
  constructor
  · intro i event hi
    obtain ⟨u, u', hbefore, hseq, ⟨st⟩, -⟩ := hrun.at_index hi
    refine ⟨st.signed, st.body, st.payload, st.key, st.sig, openEvent_of_opened st.opened,
      st.seq.trans hseq, ?_, st.author, st.signature, st.verified, fun hpos => ?_⟩
    · rw [st.position, decide_eq_true_iff, hseq]
    · exact hbefore.continues hseq st hpos (List.getElem?_eq_some_iff.mp hi).1
  · intro events' s' head head' h' hids hhead hhead' hid
    exact hrun.eq_of_head (fold_eq_ok.mp h') hids hhead hhead' hid

/-- The sample's first two events fold, and the second is signed by its author. -/
theorem fold_sound_sampleLedger :
    fold Crypto.sample (sampleLedger.take 2) = .ok (after Crypto.sample (sampleLedger.take 2), none) ∧
      ∃ (event : Bytes) (body : EventBody) (key : PublicKey Crypto.sample),
        (sampleLedger.take 2)[1]? = some event ∧ Continues (sampleLedger.take 2) 1 body key := by
  have h : fold Crypto.sample (sampleLedger.take 2) =
      .ok (after Crypto.sample (sampleLedger.take 2), none) := by decide +kernel
  refine ⟨h, ?_⟩
  have hevent : ((sampleLedger.take 2)[1]?).isSome = true := by decide +kernel
  obtain ⟨event, hevent⟩ := Option.isSome_iff_exists.mp hevent
  obtain ⟨signed, body, payload, key, signature, -, -, -, -, -, -, hcontinues⟩ :=
    (fold_sound _ _ h).1 1 event hevent
  exact ⟨event, body, key, hevent, hcontinues (by decide)⟩

end Mabel
