import Mabel.Ledger.Validate.Nesting
import Mabel.Net.Tables

/-!
# An event is valid wherever it sits

A frame and a file hold events detached, so the check of an event field is the check of the
event alone. The recursion of the validator is bounded by the nesting limit and the height of
the containers, whatever the input, and an event that embeds a raw-rooted inception is within
the limit alone and inside every container.
-/

namespace Mabel.Net

open Wire Proto Validate Outcome

variable {C : Crypto} {d : MessageDescriptor}

/-- The artifact descriptors. -/
def artifactDescriptors : List MessageDescriptor :=
  [Descriptor.invitationBundle, Descriptor.acceptanceFile, Descriptor.identityDescriptor]

/-- The descriptors of the messages that hold events and of those around them. -/
def containerDescriptors : List MessageDescriptor := syncDescriptors ++ artifactDescriptors

/-- Every descriptor of the program. -/
def descriptors : List MessageDescriptor := eventDescriptors ++ containerDescriptors

/-! ## Containers -/

/-- A message is framed when its rows are, one level down. -/
private theorem framed_of_rows {height : Nat} (hd : d.WellFormed) (hcheck : d.check = none)
    (hrows : ∀ field ∈ d.fields, FieldFramed (Framed C height) field.kind) :
    Framed C (height + 1) d := by
  refine ⟨hd, hrows, fun k es _ => ?_⟩
  rw [runCheck, hcheck]
  exact Stops.ok

/-- The acceptance file is framed. -/
private theorem framed_acceptanceFile {height : Nat} :
    Framed C (height + 1) Descriptor.acceptanceFile := by
  refine ⟨wellFormed_acceptanceFile, ?_, fun k es htable => ?_⟩
  · simp only [Descriptor.acceptanceFile, List.forall_mem_cons]
    exact ⟨rfl, trivial, by simp⟩
  · exact @checkSignedAcceptance_stops C Descriptor.acceptanceFile "AcceptanceFile" ⟨_, k, es⟩ rfl
      htable

/-- The containers that hold no container. -/
def leafDescriptors : List MessageDescriptor :=
  [Descriptors.headReq, Descriptors.getReq, Descriptors.pushReq, Descriptors.listReq,
    Descriptors.forksReq, Descriptors.headResp, Descriptors.eventsResp, Descriptors.acceptedResp,
    Descriptors.ledgerSummary, Descriptors.forkRecord, Descriptors.notFoundResp,
    Descriptors.rejectedResp]

/-- A leaf message nests nothing. -/
private theorem leaf_rows : ∀ d ∈ leafDescriptors, d ∈ syncDescriptors ∧ d.check = none ∧
    ∀ field ∈ d.fields, FieldFramed (fun _ => False) field.kind := by
  simp only [leafDescriptors, List.forall_mem_cons]
  refine ⟨?_, ?_, ?_, ?_, ?_, ?_, ?_, ?_, ?_, ?_, ?_, ?_, by simp⟩
  all_goals
    refine ⟨by simp [syncDescriptors], rfl, ?_⟩
    simp [Descriptors.headReq, Descriptors.getReq, Descriptors.pushReq, Descriptors.listReq,
      Descriptors.forksReq, Descriptors.headResp, Descriptors.eventsResp,
      Descriptors.acceptedResp, Descriptors.ledgerSummary, Descriptors.forkRecord,
      Descriptors.notFoundResp, Descriptors.rejectedResp, FieldFramed, required, Validate.optional,
      Descriptors.repeated, Kinds.id, Kinds.declaredKind, Descriptors.count64,
      Descriptors.count32, Descriptors.timestamp, Descriptors.flag, Descriptors.event,
      Descriptors.rejectCode]

/-- A leaf message is framed. -/
private theorem framed_leaf {height : Nat} (hd : d ∈ leafDescriptors) :
    Framed C (height + 1) d := by
  obtain ⟨hmem, hcheck, hrows⟩ := leaf_rows d hd
  refine framed_of_rows (syncDescriptors_wellFormed d hmem) hcheck fun field hfield => ?_
  have hrow := hrows field hfield
  cases hkind : field.kind with
  | message sub => exact (hkind ▸ hrow : FieldFramed (fun _ => False) (.message sub)).elim
  | nested sub max => exact (hkind ▸ hrow : FieldFramed (fun _ => False) (.nested sub max))
  | detached sub => exact (hkind ▸ hrow : FieldFramed (fun _ => False) (.detached sub))
  | _ => trivial

/-- A ledgers response is framed. -/
private theorem framed_ledgersResp {height : Nat} :
    Framed C (height + 2) Descriptors.ledgersResp := by
  refine framed_of_rows (syncDescriptors_wellFormed _ (by simp [syncDescriptors])) rfl ?_
  simp only [Descriptors.ledgersResp, List.forall_mem_cons]
  exact ⟨framed_leaf (by simp [leafDescriptors]), trivial, by simp⟩

/-- A forks response is framed. -/
private theorem framed_forksResp {height : Nat} :
    Framed C (height + 2) Descriptors.forksResp := by
  refine framed_of_rows (syncDescriptors_wellFormed _ (by simp [syncDescriptors])) rfl ?_
  simp only [Descriptors.forksResp, List.forall_mem_cons]
  exact ⟨framed_leaf (by simp [leafDescriptors]), trivial, by simp⟩

/-- A request is framed three levels deep. -/
private theorem framed_request : Framed C 3 Descriptors.request := by
  refine framed_of_rows (syncDescriptors_wellFormed _ (by simp [syncDescriptors])) rfl ?_
  simp only [Descriptors.request, List.forall_mem_cons]
  exact ⟨framed_leaf (by simp [leafDescriptors]), framed_leaf (by simp [leafDescriptors]),
    framed_leaf (by simp [leafDescriptors]), framed_leaf (by simp [leafDescriptors]),
    framed_leaf (by simp [leafDescriptors]), by simp⟩

/-- A response is framed three levels deep. -/
private theorem framed_response : Framed C 3 Descriptors.response := by
  refine framed_of_rows (syncDescriptors_wellFormed _ (by simp [syncDescriptors])) rfl ?_
  simp only [Descriptors.response, List.forall_mem_cons]
  exact ⟨framed_leaf (by simp [leafDescriptors]), framed_leaf (by simp [leafDescriptors]),
    framed_leaf (by simp [leafDescriptors]), framed_ledgersResp, framed_forksResp,
    framed_leaf (by simp [leafDescriptors]), framed_leaf (by simp [leafDescriptors]), by simp⟩

/-- An invitation bundle is framed three levels deep. -/
private theorem framed_invitationBundle : Framed C 3 Descriptor.invitationBundle := by
  refine framed_of_rows wellFormed_invitationBundle rfl ?_
  simp only [Descriptor.invitationBundle, List.forall_mem_cons]
  exact ⟨rfl, by simp⟩

/-- An identity descriptor is framed three levels deep. -/
private theorem framed_identityDescriptor : Framed C 3 Descriptor.identityDescriptor := by
  refine framed_of_rows wellFormed_identityDescriptor rfl ?_
  simp only [Descriptor.identityDescriptor, List.forall_mem_cons]
  exact ⟨rfl, trivial, by simp⟩

/-- Every container holds its events at most three levels below it. -/
theorem containers_framed : ∀ d ∈ containerDescriptors, Framed C 3 d := by
  have hleaf : ∀ {d : MessageDescriptor}, d ∈ leafDescriptors → Framed C 3 d := framed_leaf
  simp only [leafDescriptors, List.mem_cons, List.not_mem_nil, or_false] at hleaf
  simp only [containerDescriptors, syncDescriptors, artifactDescriptors, List.cons_append,
    List.nil_append, List.forall_mem_cons]
  exact ⟨hleaf (by simp), hleaf (by simp), hleaf (by simp), hleaf (by simp), hleaf (by simp),
    framed_request, hleaf (by simp), hleaf (by simp), hleaf (by simp), hleaf (by simp),
    framed_ledgersResp, hleaf (by simp), framed_forksResp, hleaf (by simp), hleaf (by simp),
    framed_response, framed_invitationBundle, framed_acceptanceFile, framed_identityDescriptor,
    by simp⟩

/-! ## Detached messages -/

/-- A message has a field whose value is detached. -/
def Detaches (d inner : MessageDescriptor) : Prop :=
  ∃ field ∈ d.fields, field.kind = .detached inner

/-- The messages met below a message: those it hands on, and an event where a rule embeds one. -/
inductive Reaches (d : MessageDescriptor) : MessageDescriptor → Prop where
  | refl : Reaches d d
  | field {holder sub : MessageDescriptor} {k k' : Nat} (reached : Reaches d holder)
      (handed : (sub, k') ∈ holder.hands k) : Reaches d sub
  | embedded {holder : MessageDescriptor} (reached : Reaches d holder)
      (embeds : holder.embedding.isSome = true) : Reaches d Descriptor.signedEvent

/-- An event message reaches event messages only. -/
private theorem mem_of_reaches {d' : MessageDescriptor} (hd : d ∈ eventDescriptors)
    (h : Reaches d d') : d' ∈ eventDescriptors := by
  induction h with
  | refl => exact hd
  | @field holder sub k k' _ hhanded ih =>
    obtain ⟨subs, hsubs, hhands⟩ := eventDescriptors_closed holder ih
    rw [hhands] at hhanded
    obtain ⟨sub', hsub', heq⟩ := List.mem_map.mp hhanded
    exact (Prod.mk.inj heq).1 ▸ hsubs hsub'
  | embedded => simp [eventDescriptors]

/-- No event message detaches another. -/
private theorem event_not_detaches (hd : d ∈ eventDescriptors) (inner : MessageDescriptor) :
    ¬ Detaches d inner := by
  rintro ⟨field, hfield, hkind⟩
  obtain ⟨subs, -, hhands⟩ := eventDescriptors_closed d hd
  have hmem : (inner, 0) ∈ d.hands 0 :=
    List.mem_filterMap.mpr ⟨field, hfield, by rw [hkind]; rfl⟩
  rw [hhands] at hmem
  obtain ⟨sub, -, heq⟩ := List.mem_map.mp hmem
  exact absurd (Prod.mk.inj heq).2 (Nat.succ_ne_zero 0)

/-- What a message detaches is an event. -/
private theorem detached_eq (C : Crypto) (hd : d ∈ descriptors) {inner : MessageDescriptor}
    (h : Detaches d inner) : inner = Descriptor.signedEvent := by
  rcases List.mem_append.mp hd with hevent | hcontainer
  · exact absurd h (event_not_detaches hevent inner)
  · obtain ⟨field, hfield, hkind⟩ := h
    have hrow := (containers_framed (C := C) d hcontainer).2.1 field hfield
    rw [hkind] at hrow
    exact hrow

/-! ## Event fields -/

/-- The fields that hold events: the number of each and the message it is a field of. -/
def eventFields : List (MessageDescriptor × Nat) :=
  [(Descriptors.pushReq, 2), (Descriptors.eventsResp, 1), (Descriptors.forkRecord, 3),
    (Descriptors.forkRecord, 4), (Descriptor.invitationBundle, 1),
    (Descriptor.identityDescriptor, 1)]

/-- Every event field of the protocol starts over at the top level. -/
theorem eventFields_detached : ∀ c ∈ eventFields, ∃ field, c.1.field c.2 = some field ∧
    field.kind = .detached Descriptor.signedEvent := by
  simp only [eventFields, List.forall_mem_cons]
  exact ⟨⟨_, rfl, rfl⟩, ⟨_, rfl, rfl⟩, ⟨_, rfl, rfl⟩, ⟨_, rfl, rfl⟩, ⟨_, rfl, rfl⟩, ⟨_, rfl, rfl⟩,
    by simp⟩

/-- The check of an event field is the check of the event, at whatever depth the field sits. -/
theorem checkBytes_event {field : Field} (hkind : field.kind = .detached Descriptor.signedEvent)
    (message : String) (event : Bytes) (k : Nat) :
    checkBytes (validate C) field message event k = signedEvent C event := by
  rw [checkBytes, hkind]
  rfl

/-- The levels of recursion enough for any message: those of a container and those of an
event. -/
def recursionBound : Nat := maxNesting + 2 + 3

/-- Every message is accepted or rejected within a number of levels that does not depend on
it. No record is read past the nesting limit, each level of an event costs depth, and what is
detached detaches nothing. An event field accepts what the event validator accepts and refuses
what it refuses with the same error. An event that embeds a raw-rooted inception is not refused
for depth, and a container is refused for depth only for an event that is. -/
theorem event_validity_placeless (C : Crypto) :
    (∀ d ∈ descriptors, ∀ bytes, (∀ k, NoPanic (validate C d bytes k)) ∧
      validate C d bytes 0 = validateWithin C recursionBound d bytes 0) ∧
    (∀ R d bytes k, maxNesting < k → TooDeep (scan R d bytes k)) ∧
    (∀ d ∈ eventDescriptors, ∀ R, Slicing R → ∀ bytes k,
      (∀ sub ∈ eventDescriptors, ∀ slice k', k < k' → R sub slice k' = validate C sub slice k') →
      validateStep C R d bytes k = validate C d bytes k) ∧
    (∀ d ∈ descriptors, ∀ inner, Detaches d inner → ∀ below, Reaches inner below →
      ∀ other, ¬ Detaches below other) ∧
    (∀ c ∈ eventFields, ∃ field, c.1.field c.2 = some field ∧
      ∀ event k, checkBytes (validate C) field c.1.name event k = signedEvent C event) ∧
    (∀ inception s, verifyInceptionStandalone C inception = .ok s →
      ∀ m : EventBody, EventBody.Embeds m inception → ∀ signature,
        ¬ TooDeep (signedEvent C (SignedEvent.encode ⟨m.encode, signature⟩))) ∧
    ∀ d ∈ containerDescriptors, ∀ bytes, TooDeep (message C d bytes) →
      ∃ event, Holds d bytes event ∧ TooDeep (signedEvent C event) := by
  have hmessage : ∀ {d : MessageDescriptor} {bytes : Bytes},
      TooDeep (message C d bytes) ↔ TooDeep (validate C d bytes 0) := by
    intro d bytes
    unfold TooDeep message
    cases validate C d bytes 0 <;> simp [Outcome.reject]
  refine ⟨fun d hd bytes => ?_, fun R d bytes k hk => scan_deep hk bytes, ?_, ?_, ?_, ?_, ?_⟩
  · rcases List.mem_append.mp hd with hevent | hcontainer
    · refine ⟨validate_noPanic hevent bytes, (validateWithin_event C _ d hevent bytes 0 ?_ ?_).symm⟩
      · decide
      · decide
    · have hframed := containers_framed (C := C) d hcontainer
      exact ⟨framed_noPanic 3 d hframed bytes, (validateWithin_framed C 3 d hframed bytes 0).symm⟩
  · intro d hd R hR bytes k h
    let S : Scope := fun sub k' => sub ∈ eventDescriptors ∧ k < k'
    have hbelow : S.Below k := fun sub hsub k' hlt => ⟨hsub, hlt⟩
    rw [validate_eq]
    exact validateStep_congr C (S := S) (fun sub slice k' hS _ => h sub hS.1 slice k' hS.2) hR
      (hbelow.covers hd) hbelow
  · intro d hd inner hinner below hbelow
    obtain rfl := detached_eq C hd hinner
    exact event_not_detaches (mem_of_reaches (by simp [eventDescriptors]) hbelow)
  · intro c hc
    obtain ⟨field, hfield, hkind⟩ := eventFields_detached c hc
    exact ⟨field, hfield, checkBytes_event hkind c.1.name⟩
  · intro inception s hs m hembeds signature
    refine not_tooDeep_of_standalone fun other hother => ?_
    obtain rfl := eq_of_embeds hembeds hother
    exact ⟨s, hs⟩
  · intro d hd bytes hdeep
    obtain ⟨event, hholds, hevent⟩ := tooDeep_of_framed 3 d (containers_framed d hd) bytes 0
      (by decide) (hmessage.mp hdeep)
    exact ⟨event, hholds, hmessage.mpr hevent⟩

end Mabel.Net
