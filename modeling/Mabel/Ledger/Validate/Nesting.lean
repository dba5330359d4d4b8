import Mabel.Ledger.Validate.Totality

/-!
# Nesting

Every level of a message costs depth and the scanner refuses to read past a limit, so the
recursion of the validator is bounded whatever the length of its input. A container holds its
events detached, each with a budget of its own, and an event holds nothing detached, so the
budget is renewed once at most. What an event may embed is a raw-rooted inception, and that one
fits the budget wherever an event embeds it.
-/

namespace Mabel.Validate

open Wire Proto Outcome

variable {C : Crypto} {R R' : Validator} {d : MessageDescriptor} {k : Nat}

/-! ## Bounded recursion -/

/-- Past the limit a scan answers without reading a record. -/
theorem scan_deep (hk : maxNesting < k) (bytes : Bytes) :
    scan R d bytes k = Outcome.reject .tooDeeplyNested := by
  rw [scan, Outcome.rejectIf, if_pos hk]
  rfl

/-- Past the nesting limit nothing depends on the nested validator. -/
private theorem validateStep_deep (hk : maxNesting < k) (bytes : Bytes) :
    validateStep C R d bytes k = validateStep C R' d bytes k := by
  unfold validateStep
  refine bind_congr fun _ _ => ?_
  rw [scan_deep hk, scan_deep hk, Outcome.reject, error_bind, error_bind]

/-- A message of an event recurses at most as often as the limit has levels left. -/
theorem validateWithin_event (C : Crypto) (fuel : Nat) :
    ∀ d ∈ eventDescriptors, ∀ (bytes : Bytes) (k : Nat), 0 < fuel → maxNesting + 2 ≤ fuel + k →
      validateWithin C fuel d bytes k = validate C d bytes k := by
  induction fuel with
  | zero =>
    intro d _ bytes k hpos
    omega
  | succ fuel ih =>
    intro d hd bytes k _ hfuel
    rw [validate_eq]
    by_cases hk : maxNesting < k
    · exact validateStep_deep hk bytes
    · let S : Scope := fun d' k' => d' ∈ eventDescriptors ∧ k < k'
      have hbelow : S.Below k := fun d' hd' k' hlt => ⟨hd', hlt⟩
      refine validateStep_congr C (S := S) ?_ (validateWithin_slicing C fuel) (hbelow.covers hd)
        hbelow
      intro d' bytes' k' hS _
      exact ih d' hS.1 bytes' k' (by omega) (by have := hS.2; omega)

/-! ## Containers -/

/-- The rows of a container: submessages that are containers of lower height, an acceptance
blob, and events, which are detached. -/
def FieldFramed (framed : MessageDescriptor → Prop) : Kind → Prop
  | .message sub => framed sub
  | .nested sub _ => sub = Descriptor.acceptance
  | .detached sub => sub = Descriptor.signedEvent
  | _ => True

/-- A message that holds events at most some levels below it. -/
def Framed (C : Crypto) : Nat → MessageDescriptor → Prop
  | 0, _ => False
  | height + 1, d => d.WellFormed ∧ (∀ field ∈ d.fields, FieldFramed (Framed C height) field.kind) ∧
    ∀ k es, Tabled C d k es → Stops Shallow (runCheck C (validate C) ⟨d, k, es⟩)

/-- What a container hands on: a lower container, an acceptance blob or an event. -/
theorem framed_handed {height : Nat} (h : Framed C (height + 1) d) {field : Field}
    (hfield : field ∈ d.fields) {r : MessageDescriptor × Nat}
    (hr : handed k field.kind = some r) :
    (field.kind = .message r.1 ∧ Framed C height r.1 ∧ r.2 = k + 1) ∨
      (r.1 = Descriptor.acceptance ∧ r.2 = k + 1) ∨
      (field.kind = .detached Descriptor.signedEvent ∧ r = (Descriptor.signedEvent, 0)) := by
  have hrow := h.2.1 field hfield
  cases hkind : field.kind with
  | message sub =>
    rw [hkind] at hr hrow
    obtain rfl := Option.some.inj hr
    exact .inl ⟨rfl, hrow, rfl⟩
  | nested sub max =>
    rw [hkind] at hr hrow
    obtain rfl := Option.some.inj hr
    exact .inr (.inl ⟨hrow, rfl⟩)
  | detached sub =>
    rw [hkind] at hr hrow
    obtain rfl := Option.some.inj hr
    obtain rfl : sub = Descriptor.signedEvent := hrow
    exact .inr (.inr ⟨rfl, rfl⟩)
  | _ => simp [hkind, handed] at hr

/-- A container recurses by its height and then as an event does. -/
theorem validateWithin_framed (C : Crypto) (height : Nat) :
    ∀ d, Framed C height d → ∀ (bytes : Bytes) (k : Nat),
      validateWithin C (maxNesting + 2 + height) d bytes k = validate C d bytes k := by
  induction height with
  | zero => intro d h; exact h.elim
  | succ height ih =>
    intro d h bytes k
    let S : Scope := fun d' k' => d' ∈ eventDescriptors ∨ Framed C height d'
    rw [← Nat.add_assoc, validateWithin, validate_eq]
    refine validateStep_congr C (S := S) ?_ (validateWithin_slicing C _) ?_
      fun d' hd' _ _ => .inl hd'
    · rintro d' bytes' k' (hd' | hd') _
      · exact validateWithin_event C _ d' hd' bytes' k' (by omega) (by omega)
      · exact ih d' hd' bytes' k'
    · intro r hr
      obtain ⟨field, hfield, hr⟩ := List.mem_filterMap.mp hr
      obtain ⟨-, hsub, -⟩ | ⟨hsub, -⟩ | ⟨-, rfl⟩ := framed_handed h hfield hr
      · exact .inr hsub
      · exact .inl (by simp [hsub, eventDescriptors])
      · exact .inl (by simp [eventDescriptors])

/-- A container is accepted or rejected, whatever it holds. -/
theorem framed_noPanic (height : Nat) : ∀ d, Framed C height d → ∀ (bytes : Bytes) (k : Nat),
    NoPanic (validate C d bytes k) := by
  induction height with
  | zero => intro d h; exact h.elim
  | succ height ih =>
    intro d h bytes k
    let F : Fault WireError → Prop := fun e => ∀ site, e ≠ .panic site
    have hF : ∀ e, Shallow e → F e := fun e he site hsite => Shallow.not_panic site (hsite ▸ he)
    have hstops : Stops F (validate C d bytes k) := by
      refine validate_stops h.1 hF (by simp [F]) ?_ fun es _ _ htable =>
        (h.2.2 k es htable).mono hF
      intro field hfield r hr slice _ e he site hsite
      subst hsite
      obtain ⟨-, hsub, -⟩ | ⟨hsub, -⟩ | ⟨-, rfl⟩ := framed_handed h hfield hr
      · exact ih r.1 hsub slice r.2 site he
      · exact validate_noPanic (by simp [hsub, eventDescriptors]) slice r.2 site he
      · exact validate_noPanic (by simp [eventDescriptors]) slice 0 site he
    exact hstops.noPanic fun site hsite => hsite site rfl

/-- A string read as a container holds an event, itself or in a container it holds. -/
inductive Holds : MessageDescriptor → Bytes → Bytes → Prop where
  | event {d : MessageDescriptor} {field : Field} {bytes event : Bytes} (listed : field ∈ d.fields)
      (kind : field.kind = .detached Descriptor.signedEvent)
      (carries : Carries bytes field.number event) : Holds d bytes event
  | inside {d sub : MessageDescriptor} {field : Field} {bytes slice event : Bytes}
      (listed : field ∈ d.fields) (kind : field.kind = .message sub)
      (carries : Carries bytes field.number slice) (holds : Holds sub slice event) :
      Holds d bytes event

/-- The rejection for depth. -/
def TooDeep {α : Type} (x : Outcome WireError α) : Prop := x = Outcome.reject .tooDeeplyNested

/-- An outcome that is too deep only under a condition stops under it. -/
private theorem stops_of_not_tooDeep {α : Type} {x : Outcome WireError α} (P : Prop)
    (h : TooDeep x → P) : Stops (fun e => e = .reject .tooDeeplyNested → P) x := by
  rintro e he rfl
  exact h he

/-- A message that hands nothing on and embeds nothing is not refused for depth within the
limit. -/
private theorem leaf_stops (hd : d ∈ eventDescriptors) (hands : d.hands k = [])
    (hembed : d.embedding = none) (hk : k ≤ maxNesting) (bytes : Bytes) :
    Stops Shallow (validate C d bytes k) := by
  refine validate_event_stops (fun _ he => he) hd (by omega) ?_ (by simp [hembed])
  intro field hfield r hr
  have hmem : r ∈ d.hands k := List.mem_filterMap.mpr ⟨field, hfield, hr⟩
  rw [hands] at hmem
  exact absurd hmem List.not_mem_nil

/-- A container within the limit is refused for depth only for an event it holds, and that
event is refused for depth by itself. -/
theorem tooDeep_of_framed (height : Nat) : ∀ d, Framed C height d → ∀ (bytes : Bytes) (k : Nat),
    k + height ≤ maxNesting → TooDeep (validate C d bytes k) →
      ∃ event, Holds d bytes event ∧ TooDeep (validate C Descriptor.signedEvent event 0) := by
  induction height with
  | zero => intro d h; exact h.elim
  | succ height ih =>
    intro d h bytes k hk hdeep
    have hF : ∀ (P : Prop) (e : Fault WireError), Shallow e →
        e = .reject .tooDeeplyNested → P := by
      rintro P e ⟨w, rfl, hw⟩ he
      exact absurd (Fault.reject.inj he) hw
    refine validate_stops h.1 (hF _) (by omega) ?_
      (fun es _ _ htable => (h.2.2 k es htable).mono (hF _)) _ hdeep rfl
    intro field hfield r hr slice hcarries
    refine stops_of_not_tooDeep _ fun hsub => ?_
    obtain ⟨hkind, hframed, hdepth⟩ | ⟨hacc, hdepth⟩ | ⟨hkind, rfl⟩ := framed_handed h hfield hr
    · obtain ⟨event, hholds, hevent⟩ := ih r.1 hframed slice r.2 (by omega) hsub
      exact ⟨event, .inside hfield hkind hcarries hholds, hevent⟩
    · rw [hacc] at hsub
      exact hF _ _ (leaf_stops (by simp [eventDescriptors]) rfl rfl (by omega) _ _ hsub) rfl
    · exact ⟨slice, .event hfield hkind hcarries, hsub⟩

/-! ## Events -/

/-- A string read as an event embeds an inception as its founder's. -/
def Founds (event inception : Bytes) : Prop :=
  ∃ body payload root, Carries event 1 body ∧ Carries body inceptionTag payload ∧
    Carries payload identityRootTag root ∧ Carries root 3 inception

/-- A string read as an event embeds an inception as its invitee's. -/
def Invites (event inception : Bytes) : Prop :=
  ∃ body payload, Carries event 1 body ∧ Carries body membershipInvitationTag payload ∧
    Carries payload 4 inception

section Events

variable {F : Fault WireError → Prop}

/-- An inception stops only as the founder's inception in it may. -/
private theorem inception_stops (hF : ∀ e, Shallow e → F e) (hk : k + 1 ≤ maxNesting)
    {bytes : Bytes} (hfounds : ∀ root, Carries bytes identityRootTag root → ∀ inception,
      Carries root 3 inception → Stops F (validate C Descriptor.signedEvent inception (k + 2))) :
    Stops F (validate C Descriptor.inception bytes k) := by
  refine validate_event_stops hF (by simp [eventDescriptors]) (by omega) ?_
    (by simp [MessageDescriptor.embedding, Descriptor.inception])
  intro field hfield r hr root hroot
  simp only [Descriptor.inception, List.mem_cons, List.not_mem_nil, or_false] at hfield
  rcases hfield with rfl | rfl | rfl | rfl
  · cases hr
  · cases hr
  · obtain rfl := Option.some.inj hr
    exact (leaf_stops (by simp [eventDescriptors]) rfl rfl hk root).mono hF
  · obtain rfl := Option.some.inj hr
    refine validate_event_stops hF (by simp [eventDescriptors]) (by omega) ?_ ?_
    · intro field hfield r hr
      have hmem : r ∈ Descriptor.identityRoot.hands (k + 1) :=
        List.mem_filterMap.mpr ⟨field, hfield, hr⟩
      exact absurd hmem List.not_mem_nil
    · intro n hn inception hinception
      obtain rfl := Option.some.inj hn
      exact hfounds root hroot inception hinception

/-- An invitation stops only as the invitee's inception in it may. -/
private theorem invitation_stops (hF : ∀ e, Shallow e → F e) (hk : k ≤ maxNesting)
    {bytes : Bytes} (hinvites : ∀ inception, Carries bytes 4 inception →
      Stops F (validate C Descriptor.signedEvent inception (k + 1))) :
    Stops F (validate C Descriptor.membershipInvitation bytes k) := by
  refine validate_event_stops hF (by simp [eventDescriptors]) (by omega) ?_ ?_
  · intro field hfield r hr
    have hmem : r ∈ Descriptor.membershipInvitation.hands k :=
      List.mem_filterMap.mpr ⟨field, hfield, hr⟩
    exact absurd hmem List.not_mem_nil
  · intro n hn inception hinception
    obtain rfl := Option.some.inj hn
    exact hinvites inception hinception

/-- An acceptance carries no inception, so it stops for shallow reasons only. -/
private theorem signedAcceptance_stops (hk : k + 1 ≤ maxNesting) (bytes : Bytes) :
    Stops Shallow (validate C Descriptor.membershipAcceptance bytes k) := by
  refine validate_event_stops (fun _ he => he) (by simp [eventDescriptors]) (by omega) ?_
    (by simp [MessageDescriptor.embedding, Descriptor.membershipAcceptance])
  intro field hfield r hr slice _
  have hmem : r ∈ Descriptor.membershipAcceptance.hands k :=
    List.mem_filterMap.mpr ⟨field, hfield, hr⟩
  obtain rfl : r = (Descriptor.acceptance, k + 1) := List.mem_singleton.mp hmem
  exact leaf_stops (by simp [eventDescriptors]) rfl rfl hk slice

/-- An event with three levels left is refused for depth only inside an inception it
embeds. -/
theorem event_stops (hF : ∀ e, Shallow e → F e) (hk : k + 3 ≤ maxNesting) {event : Bytes}
    (hfounds : ∀ inception, Founds event inception →
      Stops F (validate C Descriptor.signedEvent inception (k + 4)))
    (hinvites : ∀ inception, Invites event inception →
      Stops F (validate C Descriptor.signedEvent inception (k + 3))) :
    Stops F (validate C Descriptor.signedEvent event k) := by
  have hleaf : ∀ {sub : MessageDescriptor}, sub ∈ eventDescriptors → sub.hands (k + 2) = [] →
      sub.embedding = none → ∀ bytes, Stops F (validate C sub bytes (k + 2)) :=
    fun hd hands hembed bytes => (leaf_stops hd hands hembed (by omega) bytes).mono hF
  refine validate_event_stops hF (by simp [eventDescriptors]) (by omega) ?_
    (by simp [MessageDescriptor.embedding, Descriptor.signedEvent])
  intro field hfield r hr body hbody
  simp only [Descriptor.signedEvent, List.mem_cons, List.not_mem_nil, or_false] at hfield
  rcases hfield with rfl | rfl
  swap
  · cases hr
  obtain rfl := Option.some.inj hr
  refine validate_event_stops hF (by simp [eventDescriptors]) (by omega) ?_
    (by simp [MessageDescriptor.embedding, Descriptor.eventBody])
  intro field hfield r hr payload hpayload
  simp only [Descriptor.eventBody, List.mem_cons, List.not_mem_nil, or_false] at hfield
  rcases hfield with rfl | rfl | rfl | rfl | rfl | rfl | rfl | rfl | rfl | rfl | rfl | rfl | rfl |
    rfl | rfl | rfl
  · cases hr
  · cases hr
  · cases hr
  · cases hr
  · cases hr
  · cases hr
  · obtain rfl := Option.some.inj hr
    exact inception_stops hF (by omega) fun root hroot inception hinception =>
      hfounds inception ⟨body, payload, root, hbody, hpayload, hroot, hinception⟩
  · obtain rfl := Option.some.inj hr
    exact hleaf (by simp [eventDescriptors]) rfl rfl payload
  · obtain rfl := Option.some.inj hr
    exact hleaf (by simp [eventDescriptors]) rfl rfl payload
  · obtain rfl := Option.some.inj hr
    exact hleaf (by simp [eventDescriptors]) rfl rfl payload
  · obtain rfl := Option.some.inj hr
    exact invitation_stops hF (by omega) fun inception hinception =>
      hinvites inception ⟨body, payload, hbody, hpayload, hinception⟩
  · obtain rfl := Option.some.inj hr
    exact (signedAcceptance_stops (by omega) payload).mono hF
  · obtain rfl := Option.some.inj hr
    exact hleaf (by simp [eventDescriptors]) rfl rfl payload
  · obtain rfl := Option.some.inj hr
    exact hleaf (by simp [eventDescriptors]) rfl rfl payload
  · obtain rfl := Option.some.inj hr
    exact hleaf (by simp [eventDescriptors]) rfl rfl payload
  · obtain rfl := Option.some.inj hr
    exact hleaf (by simp [eventDescriptors]) rfl rfl payload

end Events

/-- A raw-rooted inception is accepted wherever three levels are left. -/
theorem validate_of_standalone {inception : Bytes} {s : StandaloneInception C}
    (h : verifyInceptionStandalone C inception = .ok s) (hk : k + 3 ≤ maxNesting) :
    ∃ sc, validate C Descriptor.signedEvent inception k = .ok sc := by
  have hraw : RawInception C inception s := (inceptionStandalone_iff.mp h).2
  have hthere : inceptionStandalone C (validate C) inception k = .ok s :=
    inceptionStandalone_iff.mpr ⟨hk, hraw⟩
  obtain ⟨sc, hsc, -⟩ := bind_eq_ok.mp hthere
  exact ⟨sc, hsc⟩

/-- An event whose embedded inceptions are raw-rooted is not refused for depth. -/
theorem not_tooDeep_of_standalone {event : Bytes}
    (h : ∀ inception, Founds event inception ∨ Invites event inception →
      ∃ s, verifyInceptionStandalone C inception = .ok s) : ¬ TooDeep (signedEvent C event) := by
  let F : Fault WireError → Prop := fun e => e ≠ .reject .tooDeeplyNested
  have hF : ∀ e, Shallow e → F e := by
    rintro e ⟨w, rfl, hw⟩ he
    exact hw (Fault.reject.inj he)
  have haccepted : ∀ {inception : Bytes} {k : Nat}, k + 3 ≤ maxNesting →
      (Founds event inception ∨ Invites event inception) →
      Stops F (validate C Descriptor.signedEvent inception k) := by
    intro inception k hk hembeds
    obtain ⟨s, hs⟩ := h inception hembeds
    obtain ⟨sc, hsc⟩ := validate_of_standalone hs hk
    rw [hsc]
    exact Stops.ok
  have hstops : Stops F (signedEvent C event) := by
    refine Stops.bind (event_stops hF (by decide) ?_ ?_) fun _ _ => Stops.ok
    · exact fun inception hfounds => haccepted (by decide) (.inl hfounds)
    · exact fun inception hinvites => haccepted (by decide) (.inr hinvites)
  exact fun hdeep => hstops _ hdeep rfl

/-- The body embeds an inception, its founder's or its invitee's. -/
def EventBody.Embeds (m : EventBody) (inception : Bytes) : Prop :=
  (∃ i root, m.payload = some (.inception i) ∧ i.root = some (.identityRoot root) ∧
    root.founderInception = inception) ∨
  ∃ i, m.payload = some (.membershipInvitation i) ∧ i.inviteeInception = inception

private theorem mem_of_carries {es : List Entry} {number : Nat} {slice : Bytes}
    (h : Carries (putEntries es) number slice) : (number, .bytes slice) ∈ select number es :=
  mem_select.mpr ⟨carries_putEntries.mp h, rfl⟩

private theorem eq_of_bytesField {number : Nat} {value slice : Bytes}
    (h : (number, Value.bytes slice) ∈ bytesField number value) : slice = value :=
  Value.bytes.inj (Prod.mk.inj (eq_of_mem_bytesField h)).2

/-- A signed event carries its body. -/
private theorem carries_body {m : SignedEvent} {body : Bytes} (h : Carries m.encode 1 body) :
    body = m.body := by
  have hmem := mem_of_carries h
  simp only [SignedEvent.entries, select_append, select_bytesField, OfNat.ofNat_ne_one, if_true,
    if_false, List.append_nil] at hmem
  exact eq_of_bytesField hmem

/-- A body carries its payload. -/
private theorem carries_payload {m : EventBody} {p : Payload} (hp : m.payload = some p)
    {tag : Nat} (htag : inceptionTag ≤ tag) {payload : Bytes}
    (h : Carries m.encode tag payload) : tag = p.tag ∧ payload = p.encode := by
  have hmem := mem_of_carries h
  have hlow : ∀ n, n < 10 → (n = tag) = False := by
    intro n hn
    have : 10 ≤ tag := htag
    exact eq_false (by omega)
  simp only [EventBody.entries, payloadField, hp, select_append, select_uintField,
    select_bytesField, select_messageField, hlow 1 (by decide), hlow 2 (by decide),
    hlow 3 (by decide), hlow 4 (by decide), hlow 5 (by decide), hlow 6 (by decide), if_false,
    List.nil_append] at hmem
  split_ifs at hmem with hnum
  · obtain ⟨htag, hvalue⟩ := Prod.mk.inj (List.mem_singleton.mp hmem)
    exact ⟨htag, Value.bytes.inj hvalue⟩
  · exact absurd hmem List.not_mem_nil

/-- An identity root carries its founder's inception. -/
private theorem carries_founder {i : Inception} {root : IdentityRoot}
    (hroot : i.root = some (.identityRoot root)) {slice inception : Bytes}
    (hslice : Carries (putEntries i.entries) identityRootTag slice)
    (h : Carries slice 3 inception) : inception = root.founderInception := by
  have hmem := mem_of_carries hslice
  simp only [Inception.entries, rootField, hroot, identityRootTag, select_append,
    select_uintField, select_bytesField, select_messageField, Root.tag] at hmem
  obtain rfl := Value.bytes.inj (Prod.mk.inj (List.mem_singleton.mp hmem)).2
  have hmem := mem_of_carries h
  simp only [Root.entries, IdentityRoot.entries, select_append, select_bytesField] at hmem
  exact eq_of_bytesField hmem

/-- An invitation carries its invitee's inception. -/
private theorem carries_invitee {i : MembershipInvitation} {inception : Bytes}
    (h : Carries (putEntries i.entries) 4 inception) : inception = i.inviteeInception := by
  have hmem := mem_of_carries h
  simp only [MembershipInvitation.entries, select_append, select_bytesField,
    select_uintField] at hmem
  exact eq_of_bytesField hmem

/-- An encoded event embeds the inception its body does, and no other. -/
theorem eq_of_embeds {m : EventBody} {signature inception other : Bytes}
    (h : EventBody.Embeds m inception)
    (hother : Founds (SignedEvent.encode ⟨m.encode, signature⟩) other ∨
      Invites (SignedEvent.encode ⟨m.encode, signature⟩) other) : other = inception := by
  obtain ⟨i, root, hp, hroot, rfl⟩ | ⟨i, hp, rfl⟩ := h
  · obtain ⟨body, payload, slice, hbody, hpayload, hslice, hother⟩ | ⟨body, payload, hbody,
      hpayload, -⟩ := hother
    · obtain rfl := carries_body hbody
      obtain ⟨-, rfl⟩ := carries_payload hp le_rfl hpayload
      exact carries_founder hroot hslice hother
    · obtain rfl := carries_body hbody
      exact absurd (carries_payload hp (by decide) hpayload).1
        (by simp [Payload.tag, membershipInvitationTag])
  · obtain ⟨body, payload, slice, hbody, hpayload, -⟩ | ⟨body, payload, hbody, hpayload,
      hother⟩ := hother
    · obtain rfl := carries_body hbody
      exact absurd (carries_payload hp le_rfl hpayload).1 (by simp [Payload.tag, inceptionTag])
    · obtain rfl := carries_body hbody
      obtain ⟨-, rfl⟩ := carries_payload hp (by decide) hpayload
      exact carries_invitee hother

end Mabel.Validate
