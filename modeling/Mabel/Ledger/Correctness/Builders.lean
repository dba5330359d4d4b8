import Mabel.Ledger.Correctness.Control
import Mabel.Ledger.Sign.Requests
import Mabel.Ledger.Validate.Size

/-!
# What a controller builds, the fold accepts

The builders encode messages and check a few bounds of their own; the validator and the
fold read the bytes back under rules of theirs. On every reachable ledger they agree: a
permitted request of a controller is built, accepted and recorded as it was asked for.
-/

namespace Mabel

open Wire Proto Validate Machine

variable {C : Crypto}

/-! ## Sealed bodies -/

theorem refuseIf_of_not {p : Prop} [Decidable p] {error : BuildError} (h : ¬ p) :
    refuseIf p error = .ok () := if_neg h

theorem checkTimestamp_of_le {time : Nat} (h : 1 ≤ time ∧ time ≤ maxTimestampMs) :
    checkTimestamp time = .ok () := refuseIf_of_not (by omega)

/-- Distinct entries pass. -/
theorem distinct_of_nodup {α : Type} [DecidableEq α] {error : BuildError} {entries : List α}
    (h : entries.Nodup) : distinct error entries = .ok () := by
  induction entries with
  | nil => rfl
  | cons entry rest ih =>
    obtain ⟨hmem, hrest⟩ := List.nodup_cons.mp h
    rw [distinct, if_neg hmem]
    exact ih hrest

/-- The event a body is sealed into. -/
def sealed (signer : SecretKey C) (body : EventBody) : BuiltEvent where
  eventId := eventId C body.encode
  body := body.encode
  signedEvent := SignedEvent.encode ⟨body.encode, (signer.sign (signInput body.encode)).bytes⟩

/-- A valid body is never too large to seal. -/
theorem sealBody_of_valid {signer : SecretKey C} {body : EventBody} {k : Nat}
    (h : body.Valid C k) : sealBody signer body = .ok (sealed signer body) := by
  have hsize := signed_encode_le h (signer.sign (signInput body.encode))
  rw [sealBody, refuseIf_of_not (not_lt.mpr hsize)]
  rfl

/-- A sealed body that continues the chain under a key that may sign is accepted and changes
the state as its payload says. -/
theorem apply_sealed {s mid : LedgerState C} {signer : SecretKey C} {body : EventBody}
    {payload : Payload} {sp : Option (SigningPrincipal C)} (hvalid : body.Valid C 1)
    (hpayload : body.payload = some payload)
    (hauthor : body.authorKey = signer.publicKey.asBytes) (hseq : body.seq = s.nextSeq)
    (hlinks : s.Links body) (hposition : isInception payload = decide (s.nextSeq = 0))
    (hsigns : s.Signs signer.publicKey sp)
    (hchange : s.Change s.nextSeq (eventId C body.encode) sp payload mid) :
    s.apply (sealed signer body).signedEvent = .ok
      { mid with head := some ⟨s.nextSeq, (sealed signer body).eventId, body.timestampMs⟩ } := by
  obtain ⟨effect, hsem, hcommit⟩ := LedgerState.change_iff.mp hchange
  have hopened : Opened C (sealed signer body).signedEvent
      ⟨body.encode, (signer.sign (signInput body.encode)).bytes⟩ body payload :=
    opened_of_valid (signed_encode_le hvalid _) (Block.length_eq _) rfl hvalid hpayload
  exact apply_iff.mpr ⟨⟨_, body, payload, signer.publicKey, _, sp, effect, hopened, hseq, hlinks,
    hposition, hauthor, hsigns, rfl, signer.verifies _, hsem,
    LedgerState.commit_eq_ok.mpr ⟨mid, hcommit, rfl⟩⟩⟩

/-! ## Embedded inceptions and profiles -/

/-- What proves an identity on its own proves it at every depth that leaves room for it. -/
theorem Proves.embeds {inception : Bytes} {id : IdentityId} {key : PublicKey C} {k : Nat}
    (h : Proves C inception id key) (hk : k + 4 ≤ maxNesting) :
    Embeds C k id.toVec key.asBytes inception := by
  obtain ⟨st, hst, rfl, rfl⟩ := h.standalone
  obtain ⟨-, hraw⟩ := inceptionStandalone_iff.mp hst
  obtain ⟨m, b, i, r, sig, hbytes, hbody, hb, -, -, -, -, -, -, hid⟩ := hraw.event
  have hne : inception ≠ [] := by
    have hpos := body_encode_lt (m := m) (hbody ▸ body_encode_ne_nil hb)
    rw [hbytes]
    exact List.ne_nil_of_length_pos (by omega)
  refine ⟨st.identity.raw.length_eq, st.activeKey.raw.length_eq, hne, h.size, st,
    inceptionStandalone_iff.mpr ⟨by omega, hraw⟩, ?_, rfl⟩
  rw [hid]
  rfl

/-- A profile within the cap of its message is read back from its encoding. -/
theorem profile_decode {m : ProfileUpdate} (h : m.encode.length ≤ maxEventBytes) :
    Payload.decode 17 m.encode = some (.profileUpdate m) := by
  refine Payload.decode_encode (p := .profileUpdate m) fun e he => ?_
  have hcap : maxEventBytes < 2 ^ 64 := by decide
  have hfits : ∀ {n : Nat} {x : Bytes}, n ∈ [1, 2, 3] → e = (n, .bytes x) → Fits e := by
    rintro n x hn rfl
    have hshort : x.length < m.encode.length := length_lt_of_mem m.entries n he
    have hbound : 0 < n ∧ n < 2 ^ 29 := by
      simp only [List.mem_cons, List.not_mem_nil, or_false] at hn
      omega
    exact ⟨hbound.1, hbound.2, show x.length < 2 ^ 64 by omega⟩
  simp only [Payload.entries, ProfileUpdate.entries, List.mem_append] at he
  rcases he with (he | he) | he
  · exact hfits (by decide) (eq_of_mem_bytesField he)
  · exact hfits (by decide) (eq_of_mem_bytesField he)
  · exact hfits (by decide) (eq_of_mem_bytesField he)

/-- A profile that passes its check keeps the rules of the table. -/
theorem profile_valid {displayName hostname email : Option String}
    (h : checkProfile C displayName hostname email = .ok ()) :
    (Mabel.profileUpdate displayName hostname email).Valid := by
  simp only [checkProfile, message, Outcome.bind_eq_ok, validate_iff wellFormed_profileUpdate,
    admits_profileUpdate] at h
  obtain ⟨_, ⟨hlen, -, _, -, hbytes, m, hm, rfl⟩, -⟩ := h
  have hsame : (Mabel.profileUpdate displayName hostname email).encode = m.encode := hbytes
  have hread := profile_decode hlen
  rw [hsame, profile_decode (hsame ▸ hlen)] at hread
  obtain rfl : m = Mabel.profileUpdate displayName hostname email := by simpa using hread
  exact hm

/-! ## Requests -/

namespace Request

variable {s : LedgerState C} {request : Request C}

/-- Distinct ids within bounds pass the field's check. -/
theorem idsOk_map {α : Type} {min max : Nat} {xs : List α} {f : α → Bytes}
    (hinj : Function.Injective f) (hlen : ∀ x, (f x).length = idBytes) (hmin : min ≤ xs.length)
    (hmax : xs.length ≤ max) (hnodup : xs.Nodup) : IdsOk min max (xs.map f) where
  lower := by simpa using hmin
  upper := by simpa using hmax
  distinct := hnodup.map hinj
  sized := by simp [hlen]

/-- The blob an invitee signs to accept an invitation. -/
def acceptanceOf (inviteeActive : SecretKey C) (ledger : LedgerId) (invitation : EventId)
    (invitee : IdentityId) : Acceptance :=
  ⟨0, ledger.toVec, invitation.toVec, invitee.toVec, inviteeActive.publicKey.asBytes⟩

/-- The inner acceptance the builder signs is valid. -/
theorem acceptanceOf_valid (inviteeActive : SecretKey C) (ledger : LedgerId)
    (invitation : EventId) (invitee : IdentityId) :
    (acceptanceOf inviteeActive ledger invitation invitee).Valid where
  version := rfl
  ledger := ledger.length_toVec
  invitationEvent := invitation.length_toVec
  invitee := invitee.length_toVec
  inviteeKey := inviteeActive.publicKey.length_asBytes

/-- A built acceptance has one length. -/
theorem length_buildAcceptance (inviteeActive : SecretKey C) (ledger : LedgerId)
    (invitation : EventId) (invitee : IdentityId) :
    (buildAcceptance inviteeActive ledger invitation invitee).acceptance.length = 136 :=
  Acceptance.length_encode (acceptanceOf_valid inviteeActive ledger invitation invitee)

/-- The builder of a permitted request refuses nothing and encodes its payload. -/
theorem build_eq (h : request.Permitted s) (signer : SecretKey C) (position : Position)
    (nowMs : Nat) : request.build signer position nowMs =
      buildAppend signer position nowMs (request.payload position.ledger) := by
  cases request with
  | witnessConfig witnesses =>
    obtain ⟨hne, hmax, hnodup⟩ := h
    rw [build, buildWitnessConfig, refuseIf_of_not (by simp [hne, hmax]),
      distinct_of_nodup hnodup]
    rfl
  | witnessSet witnesses =>
    obtain ⟨hmax, hnodup⟩ := h
    rw [build, buildWitnessSet, refuseIf_of_not (not_lt.mpr hmax), distinct_of_nodup hnodup]
    rfl
  | endpointAdvertisement endpoints =>
    obtain ⟨hmax, hnodup⟩ := h
    rw [build, buildEndpointAdvertisement, refuseIf_of_not (not_lt.mpr hmax),
      distinct_of_nodup hnodup]
    rfl
  | membershipInvitation invitee inviteeKey role inviteeInception =>
    obtain ⟨-, hproves, -⟩ := h
    rw [build, buildMembershipInvitation, Mabel.checkEmbeddedInception,
      refuseIf_of_not (not_lt.mpr hproves.size)]
    rfl
  | membershipAcceptance inviteeActive invitation invitee =>
    rw [build, buildMembershipAcceptance,
      refuseIf_of_not (by rw [length_buildAcceptance]; decide)]
    rfl
  | _ => rfl

/-- The payload of a permitted request keeps the field table. -/
theorem payload_valid (h : request.Permitted s) (ledger : LedgerId) :
    (request.payload ledger).Valid C 2 := by
  cases request with
  | witnessConfig witnesses =>
    obtain ⟨hne, hmax, hnodup⟩ := h
    exact idsOk_map PublicKey.asBytes_injective PublicKey.length_asBytes
      (List.length_pos_iff.mpr hne) hmax hnodup
  | witnessSet witnesses =>
    exact idsOk_map IdentityId.toVec_injective IdentityId.length_toVec (Nat.zero_le _) h.1 h.2
  | endpointAdvertisement endpoints =>
    exact idsOk_map PublicKey.asBytes_injective PublicKey.length_asBytes (Nat.zero_le _) h.1 h.2
  | trustAttestation subject => exact subject.length_toVec
  | trustRevocation target => exact target.length_toVec
  | membershipInvitation invitee inviteeKey role inviteeInception =>
    obtain ⟨hrole, hproves, -⟩ := h
    refine ⟨?_, hproves.embeds (by decide)⟩
    cases role with
    | roleUnspecified => exact absurd rfl hrole
    | member => exact .inl rfl
    | controller => exact .inr rfl
  | membershipAcceptance inviteeActive invitation invitee =>
    exact ⟨by decide, acceptanceOf inviteeActive ledger invitation invitee,
      acceptanceOf_valid .., rfl, inviteeActive.publicKey, _, rfl, rfl, inviteeActive.verifies _⟩
  | membershipRemoval target => exact target.length_toVec
  | profileUpdate displayName hostname email => exact profile_valid h

/-- A permitted request keeps the rule that ties a payload to its ledger. -/
theorem payload_rule (h : request.Permitted s) {body : EventBody} {ledger : LedgerId}
    (hledger : s.ledger = some ledger) (hbody : body.ledger = ledger.toVec) (hseq : body.seq ≠ 0) :
    body.Rule (request.payload ledger) := by
  cases request with
  | trustAttestation subject =>
    refine ⟨hseq, fun hsame => h.1 ?_⟩
    rw [hledger, IdentityId.toVec_injective (hsame.trans hbody)]
  | membershipInvitation invitee inviteeKey role inviteeInception =>
    obtain ⟨-, -, hother, -⟩ := h
    refine ⟨hseq, fun hsame => hother ?_⟩
    rw [hledger, IdentityId.toVec_injective (hsame.trans hbody)]
  | _ => exact hseq

/-- A mapped list agrees with its source entry by entry. -/
private theorem forall₂_map {α : Type} (f : α → Bytes) (xs : List α) :
    List.Forall₂ (fun raw x => raw = f x) (xs.map f) xs := by
  rw [List.forall₂_map_left_iff]
  exact List.forall₂_same.mpr fun _ _ => rfl

/-- A permitted request changes the state to the one that records it. -/
theorem payload_change (h : request.Permitted s) {ledger : LedgerId}
    (hledger : s.ledger = some ledger) (seq : Nat) (id : EventId) (sp : SigningPrincipal C) :
    s.Change seq id (some sp) (request.payload ledger) (request.record s seq id sp) := by
  cases request with
  | witnessConfig witnesses => exact .witnessEndpoints (forall₂_map ..)
  | witnessSet witnesses => exact .witnessSet (forall₂_map ..) rfl
  | endpointAdvertisement endpoints => exact .endpoints (forall₂_map ..) rfl
  | trustAttestation subject =>
    obtain ⟨hother, htrusts⟩ := h
    exact .attested rfl hother (by simpa [LedgerState.trusts] using htrusts) rfl
  | trustRevocation target =>
    obtain ⟨a, hfound, hlive⟩ := h
    exact .revoked rfl hfound hlive
  | membershipInvitation invitee inviteeKey role inviteeInception =>
    obtain ⟨-, -, -, hopen, hsame⟩ := h
    exact .invited rfl rfl (by cases role <;> rfl) hopen hsame
  | membershipAcceptance inviteeActive invitation invitee =>
    obtain ⟨i, hissued, hopen, rfl, hkey, hunheld, hdemotes⟩ := h
    have hmatches :
        s.Matches (acceptanceOf inviteeActive ledger invitation i.invitee) invitation i :=
      ⟨⟨ledger, hledger, rfl⟩, rfl, hissued, hopen, rfl, congrArg PublicKey.asBytes hkey.symm⟩
    have hrecord : record s seq id sp (.membershipAcceptance inviteeActive invitation i.invitee) =
        { s with
          invitations := s.invitations.adjust invitation fun i => { i with status := .accepted }
          principals := s.principals.insert i.invitee ⟨i.role, i.inviteeKey⟩ } := by
      simp only [record, hissued, hkey]
    rw [hrecord]
    exact .admitted (acceptance_decode C (acceptanceOf_valid ..)) hmatches hunheld hdemotes
  | membershipRemoval target =>
    obtain ⟨hroot, hknown, hspares⟩ := h
    exact .removed rfl hroot hknown hspares
  | profileUpdate displayName hostname email =>
    have hset : ∀ value : Option String, setName (value.getD "") = value.bind setName := by
      intro value
      cases value <;> rfl
    have hrecord : record s seq id sp (.profileUpdate displayName hostname email) =
        { s with profile := some ⟨setName (displayName.getD ""), setName (hostname.getD ""),
          setName (email.getD ""), sp, id, seq⟩ } := by
      simp only [record, hset]
    rw [hrecord]
    exact .profile rfl

end Request

/-! ## Appends -/

/-- The head of a reachable state carries a timestamp the field table admits. -/
theorem FoldRun.head_time {log : List Bytes} {s : LedgerState C} (h : FoldRun log s) {head : Head}
    (hhead : s.head = some head) : 1 ≤ head.timestampMs ∧ head.timestampMs ≤ maxTimestampMs := by
  cases h with
  | nil => simp [LedgerState.default] at hhead
  | snoc hrun haccept =>
    obtain ⟨st⟩ := apply_iff.mp haccept
    obtain rfl : st.newHead = head := Option.some.inj (st.head.symm.trans hhead)
    exact st.opened.valid.timestamp

/-- The body an append is sealed from. -/
def appendBody (signer : SecretKey C) (position : Position) (nowMs : Nat) (payload : Payload) :
    EventBody :=
  ⟨0, position.ledger.toVec, position.seq, position.prev.toVec,
    max nowMs position.prevTimestampMs, signer.publicKey.asBytes, some payload⟩

/-- A valid body is built, and the event encodes it. -/
theorem buildAppend_of_valid {signer : SecretKey C} {position : Position} {nowMs : Nat}
    {payload : Payload} (hpast : position.seq ≠ 0)
    (htime : 1 ≤ max nowMs position.prevTimestampMs ∧
      max nowMs position.prevTimestampMs ≤ maxTimestampMs)
    (hvalid : (appendBody signer position nowMs payload).Valid C 1) :
    buildAppend signer position nowMs payload =
      .ok (sealed signer (appendBody signer position nowMs payload)) := by
  simp only [buildAppend, refuseIf_of_not hpast, ledgerTimestampMs, checkTimestamp_of_le htime,
    Outcome.ok_bind]
  exact sealBody_of_valid hvalid

/-- A permitted request of a controller is built, accepted and recorded. -/
theorem append_applies (events : List Bytes) {signer : SecretKey C} {who : IdentityId}
    {position : Position} {nowMs : Nat} {request : Request C}
    (hcontroller : (after C events).principals.get? who = some ⟨.controller, signer.publicKey⟩)
    (hposition : position.Of (after C events)) (hnow : nowMs ≤ maxTimestampMs)
    (hpermitted : request.Permitted (after C events)) :
    ∃ b, request.build signer position nowMs = .ok b ∧
      (after C events).apply b.signedEvent = .ok
        { request.record (after C events) position.seq b.eventId ⟨who, signer.publicKey⟩ with
          head := some ⟨position.seq, b.eventId, max nowMs position.prevTimestampMs⟩ } := by
  obtain ⟨head, hhead, hseq, hprev, hprevTime⟩ := hposition.head
  have hnext : (after C events).nextSeq = position.seq := by
    rw [LedgerState.nextSeq, hhead, hseq]
  have hpast : position.seq ≠ 0 := by omega
  have hheadTime := (foldRun_after events).head_time hhead
  have htime : 1 ≤ max nowMs position.prevTimestampMs ∧
      max nowMs position.prevTimestampMs ≤ maxTimestampMs := by
    rw [hprevTime]
    omega
  have hvalid : (appendBody signer position nowMs (request.payload position.ledger)).Valid C 1 :=
    ⟨rfl, position.seq_le, (if_neg hpast).mpr position.ledger.length_toVec,
      (if_neg hpast).mpr position.prev.length_toVec, htime, signer.publicKey.length_asBytes, by decide, _, rfl, request.payload_valid hpermitted _,
      request.payload_rule hpermitted hposition.ledger rfl hpast⟩
  refine ⟨_, (request.build_eq hpermitted ..).trans (buildAppend_of_valid hpast htime hvalid), ?_⟩
  · have hlinks : (after C events).Links
        (appendBody signer position nowMs (request.payload position.ledger)) := by
      refine ⟨fun head' hhead' => ?_⟩
      obtain rfl : head = head' := Option.some.inj (hhead.symm.trans hhead')
      exact ⟨position.ledger, hposition.ledger, rfl, congrArg EventId.toVec hprev,
        hprevTime ▸ le_max_right ..⟩
    have hsigns : (after C events).Signs signer.publicKey (some ⟨who, signer.publicKey⟩) := by
      rw [LedgerState.Signs, if_neg (hnext ▸ hpast)]
      exact ⟨_, signingPrincipal_of_controller events hcontroller, rfl⟩
    have hkind : isInception (request.payload position.ledger) =
        decide ((after C events).nextSeq = 0) := by
      rw [hnext, decide_eq_false hpast]
      cases request <;> rfl
    have happly := apply_sealed hvalid rfl rfl hnext.symm hlinks hkind hsigns
      (request.payload_change hpermitted hposition.ledger _ _ _)
    rw [hnext] at happly
    exact happly

/-! ## Inceptions -/

/-- A permitted root is written as a valid message that seeds what it names. -/
theorem rootMessage_of_permitted {signer : SecretKey C} {root : InceptionRoot C}
    (h : root.Permitted signer) :
    ∃ r, rootMessage signer.publicKey root = .ok r ∧ r.Valid C 3 ∧
      r.signingKey = signer.publicKey.asBytes ∧
      ∀ id, LedgerState.Seeds id (some r) (root.founds signer id).1 (root.founds signer id).2
        signer.publicKey := by
  cases root with
  | raw reserveKey =>
    exact ⟨_, rfl, ⟨signer.publicKey.length_asBytes, Block.length_eq _, h⟩, rfl, fun _ => .raw rfl rfl⟩
  | identity founder founderInception =>
    have hproves : Proves C founderInception founder signer.publicKey := h
    refine ⟨.identityRoot ⟨founder.toVec, signer.publicKey.asBytes, founderInception⟩, ?_,
      hproves.embeds (by decide), rfl, fun _ => .identity rfl rfl⟩
    rw [rootMessage, Mabel.checkEmbeddedInception, refuseIf_of_not (not_lt.mpr hproves.size)]
    rfl

/-- The body an inception is sealed from. -/
def inceptionEvent (signer : SecretKey C) (nowMs : Nat) (inception : Inception) : EventBody :=
  ⟨0, [], 0, [], nowMs, signer.publicKey.asBytes, some (.inception inception)⟩

/-- An inception with a declared kind around a permitted root starts its ledger. -/
theorem inception_applies {signer : SecretKey C} {kind : DeclaredKind} {root : InceptionRoot C}
    (nonce : Block nonceBytes) {nowMs : Nat} (hkind : kind ≠ .kindUnspecified)
    (hroot : root.Permitted signer) (hnow : 1 ≤ nowMs ∧ nowMs ≤ maxTimestampMs) :
    ∃ b, buildInception signer kind root nonce nowMs = .ok b ∧
      LedgerState.default.apply b.signedEvent =
        .ok (startedState signer kind root b.eventId nowMs) := by
  obtain ⟨r, hmessage, hr, hkey, hseeds⟩ := rootMessage_of_permitted hroot
  have hdefined : ∃ n : Nat, kind.number = n ∧ 1 ≤ n ∧ n ≤ 4 := by
    cases kind with
    | kindUnspecified => exact absurd rfl hkind
    | person => exact ⟨1, rfl, by decide⟩
    | organization => exact ⟨2, rfl, by decide⟩
    | agent => exact ⟨3, rfl, by decide⟩
    | service => exact ⟨4, rfl, by decide⟩
  have hinception : Inception.Valid C 2 ⟨kind.number, nonce.bytes, some r⟩ :=
    ⟨hdefined, nonce.length_eq, by decide, r, rfl, hr⟩
  have hvalid : (inceptionEvent signer nowMs ⟨kind.number, nonce.bytes, some r⟩).Valid C 1 :=
    ⟨rfl, Nat.zero_le _, rfl, rfl, hnow, signer.publicKey.length_asBytes, by decide, _, rfl,
      hinception, rfl, r, rfl, hkey⟩
  refine ⟨sealed signer (inceptionEvent signer nowMs ⟨kind.number, nonce.bytes, some r⟩), ?_, ?_⟩
  · simp only [buildInception, hmessage, inceptionBody, checkTimestamp_of_le hnow,
      Outcome.ok_bind]
    exact sealBody_of_valid hvalid
  · have hlinks : (LedgerState.default : LedgerState C).Links
        (inceptionEvent signer nowMs ⟨kind.number, nonce.bytes, some r⟩) :=
      ⟨fun _ hhead => by simp [LedgerState.default] at hhead⟩
    have hsigns : (LedgerState.default : LedgerState C).Signs signer.publicKey none := rfl
    exact apply_sealed hvalid rfl rfl rfl hlinks rfl hsigns
      (.seeded (by cases kind <;> rfl) (hseeds _))

/-! ## Agreement -/

/-- The builders and the fold agree on every permitted request of a controller and on every
permitted inception. -/
theorem builders_agree (events : List Bytes) :
    (∀ (signer : SecretKey C) (who : IdentityId) (position : Position) (nowMs : Nat)
      (request : Request C),
      (after C events).principals.get? who = some ⟨.controller, signer.publicKey⟩ →
      position.Of (after C events) → nowMs ≤ maxTimestampMs →
      request.Permitted (after C events) →
      ∃ b, request.build signer position nowMs = .ok b ∧
        (after C events).apply b.signedEvent = .ok
          { request.record (after C events) position.seq b.eventId ⟨who, signer.publicKey⟩ with
            head := some ⟨position.seq, b.eventId, max nowMs position.prevTimestampMs⟩ }) ∧
    (∀ (signer : SecretKey C) (kind : DeclaredKind) (root : InceptionRoot C)
      (nonce : Block nonceBytes) (nowMs : Nat), kind ≠ .kindUnspecified →
      root.Permitted signer → 1 ≤ nowMs ∧ nowMs ≤ maxTimestampMs →
      ∃ b, buildInception signer kind root nonce nowMs = .ok b ∧
        LedgerState.default.apply b.signedEvent =
          .ok (startedState signer kind root b.eventId nowMs)) :=
  ⟨fun _ _ _ _ _ => append_applies events, fun _ _ _ nonce _ => inception_applies nonce⟩

/-- The sample ledger's owner attests to an identity, and a second identity is created. -/
theorem builders_agree_sampleLedger :
    (∃ who position, (after Crypto.sample (sampleLedger.take 1)).principals.get? who =
        some ⟨.controller, (SecretKey.sample 1).publicKey⟩ ∧
      position.Of (after Crypto.sample (sampleLedger.take 1)) ∧
      ∃ b, (Request.trustAttestation ⟨.ofNat idBytes 9⟩).build (SecretKey.sample 1) position 500 =
          .ok b ∧
        (after Crypto.sample (sampleLedger.take 1)).apply b.signedEvent = .ok
          { (Request.trustAttestation ⟨.ofNat idBytes 9⟩).record
              (after Crypto.sample (sampleLedger.take 1)) position.seq b.eventId
              ⟨who, (SecretKey.sample 1).publicKey⟩ with
            head := some ⟨position.seq, b.eventId, max 500 position.prevTimestampMs⟩ }) ∧
    ∃ b, buildInception (SecretKey.sample 2) .agent (.raw (SecretKey.sample 5).publicKey)
        (.ofNat nonceBytes 6) 1000 = .ok b ∧
      LedgerState.default.apply b.signedEvent = .ok (startedState (SecretKey.sample 2) .agent
        (.raw (SecretKey.sample 5).publicKey) b.eventId 1000) := by
  have hagree := builders_agree (C := Crypto.sample) (sampleLedger.take 1)
  constructor
  · have hsigner : ((after Crypto.sample (sampleLedger.take 1)).signingPrincipal
        (SecretKey.sample 1).publicKey).isSome = true := by decide +kernel
    have hseq : (after Crypto.sample (sampleLedger.take 1)).head.map Head.seq = some 0 := by
      decide +kernel
    have hledger : (after Crypto.sample (sampleLedger.take 1)).ledger.isSome = true := by
      decide +kernel
    have hpermitted : (after Crypto.sample (sampleLedger.take 1)).ledger ≠
        some ⟨.ofNat idBytes 9⟩ ∧
        (after Crypto.sample (sampleLedger.take 1)).trusts ⟨.ofNat idBytes 9⟩ = false := by
      decide +kernel
    obtain ⟨who, hwho⟩ := LedgerState.signingPrincipal_isSome.mp hsigner
    obtain ⟨ledger, hledger⟩ := Option.isSome_iff_exists.mp hledger
    obtain ⟨⟨seq, id, time⟩, hhead, rfl⟩ := Option.map_eq_some_iff.mp hseq
    have hposition : Position.Of ⟨ledger, 1, id, time, by decide⟩
        (after Crypto.sample (sampleLedger.take 1)) := ⟨hledger, _, hhead, rfl, rfl, rfl⟩
    exact ⟨who, _, hwho, hposition, hagree.1 _ who _ 500 _ hwho hposition (by decide) hpermitted⟩
  · have hroot : (SecretKey.sample 2).publicKey.asBytes ≠
        (reserveCommit Crypto.sample (SecretKey.sample 5).publicKey).bytes := by decide +kernel
    exact hagree.2 _ _ _ _ _ (by decide) hroot (by decide)

end Mabel
