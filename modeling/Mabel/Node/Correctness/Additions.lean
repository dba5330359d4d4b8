import Mabel.Net.Codec
import Mabel.Node.Additions
import Mabel.Node.Correctness.Delivery

/-!
# The additions of a push fit their type

The sequence numbers of a pushed run come from bytes nothing has folded yet. The contiguity
loop adds an offset to the first of them, so a run that reaches the last `u64` and goes on
overflows there; every other sum of a push is bounded by the caps of the store and the size
of the frame.
-/

namespace Mabel.Node

open Wire Proto Net Machine Program Validate

variable {C : Crypto}

/-! ## What a frame offers -/

/-- The events of an accepted frame are few and short, and each declares a `u64`. -/
structure Parsed (events : List Bytes) : Prop where
  nonempty : events ≠ []
  count : events.length ≤ maxPushEvents
  bytes : (events.map List.length).sum ≤ maxPushBytes
  declared : ∀ event ∈ events, ∃ seq ≤ u64Max, signedEventSeq event = some seq

/-- The events of a repeated field are no longer than the field. -/
theorem sum_length_le_repeatedField (number : Nat) (events : List Bytes) :
    (events.map List.length).sum ≤ (putEntries (repeatedField number events)).length := by
  induction events with
  | nil => exact Nat.zero_le _
  | cons event events ih =>
    have hentry : event.length ≤ (putEntry (number, .bytes event)).length := by
      simp only [putEntry, putValue, List.length_append]
      omega
    rw [List.map_cons, List.sum_cons, repeatedField, List.map_cons, putEntries_cons,
      List.length_append]
    exact Nat.add_le_add hentry ih

/-- A push read off an accepted frame offers such events. -/
theorem parsed_of_parse {frame : Bytes} {ledger : LedgerId} {events : List Bytes}
    (h : parseRequest C frame = .ok (.push ledger events)) : Parsed events := by
  have hmessage : message C Descriptors.request frame = .ok () := by
    obtain ⟨_, hmessage, -⟩ := Outcome.bind_eq_ok.mp h
    exact Outcome.mapReject_eq_ok.mp hmessage
  obtain ⟨-, number, sub, es, hcarried, rfl⟩ := isFrame_request.accepts_iff.mp hmessage
  obtain ⟨r, rfl, rfl⟩ := exists_request hcarried
  rw [← r.encode_eq] at h hmessage
  obtain rfl : r = .push ledger events :=
    Except.ok.inj ((parseRequest_encode hmessage).symm.trans h)
  obtain ⟨⟨name, hvariant⟩, hsize, hbody⟩ := hcarried
  obtain ⟨-, rfl⟩ : name = "push" ∧ sub = Descriptors.pushReq := by
    simpa [Descriptors.request, Validate.variant, Request.number] using hvariant
  obtain ⟨ledger', events', ⟨hpos, hcount, haccepted⟩, hentries⟩ := admits_pushReq.mp hbody
  obtain rfl : events = events' := by
    have hread : repeated (Request.entries (.push ledger events)) 2 = events :=
      repeated_of_select (by simp [Request.entries])
    rw [← hread, hentries]
    exact repeated_of_select (by simp)
  refine ⟨List.length_pos_iff.mp hpos, hcount, ?_, ?_⟩
  · refine (sum_length_le_repeatedField 2 events).trans (le_trans ?_ hsize)
    rw [Request.entries, putEntries_append, List.length_append]
    exact Nat.le_add_left _ _
  · intro event hevent
    obtain ⟨signed, body, payload, hopened⟩ := signedEvent_iff_opened.mp (haccepted event hevent)
    exact ⟨body.seq, hopened.valid.seq, signedEventSeq_opened hopened⟩

/-! ## The contiguity loop -/

/-- The events declare the sequences from one on. -/
def Ascending (first : Nat) (events : List Bytes) : Prop :=
  ∀ i event, events[i]? = some event → signedEventSeq event = some (first + i)

/-- The run ascends to the last `u64` and goes on. -/
def RunsPast (events : List Bytes) : Prop :=
  ∃ first k, k + 1 < events.length ∧ first + k = u64Max ∧
    ∀ i ≤ k, ∀ event, events[i]? = some event → signedEventSeq event = some (first + i)

section Loop

variable {checks : Bool} {first offset : Nat} {event : Bytes} {events : List Bytes}

theorem addU64_of_lt {ε : Type} {a b : Nat} (h : a + b < 2 ^ 64) :
    addU64 checks a b = (.ok (a + b) : Outcome ε Nat) := by
  rw [addU64, if_pos h]

theorem seqOf_eq_ok {seq : Nat} : seqOf event = .ok seq ↔ signedEventSeq event = some seq :=
  Outcome.orReject_eq_ok

/-- The loop goes on exactly past an event at its place. -/
theorem addU64_eq_seqOf (h : first + offset < 2 ^ 64) :
    addU64 checks first offset = seqOf event ↔ signedEventSeq event = some (first + offset) := by
  rw [addU64_of_lt h, eq_comm, seqOf_eq_ok]

/-- If an ascending front always leaves room for the next sum, all sums fit. -/
theorem checkRunAdditions_fit (events : List Bytes) : ∀ {offset : Nat},
    (∀ k < events.length, (∀ i < k, ∀ event, events[i]? = some event →
      signedEventSeq event = some (first + (offset + i))) → first + (offset + k) < 2 ^ 64) →
    ∀ addition ∈ checkRunAdditions checks first offset events, addition.Fits := by
  induction events with
  | nil =>
    intro _ _ addition hmem
    cases hmem
  | cons event events ih =>
    intro offset h addition hmem
    have hfits : first + offset < 2 ^ 64 := h 0 (Nat.succ_pos _) fun i hi => absurd hi (by omega)
    rcases List.mem_cons.mp hmem with rfl | hmem
    · exact hfits
    split_ifs at hmem with hseq
    · rw [addU64_eq_seqOf hfits] at hseq
      refine ih (fun k hk hfront => ?_) addition hmem
      have hnext : first + (offset + (k + 1)) < 2 ^ 64 := by
        refine h (k + 1) (Nat.succ_lt_succ hk) fun i hi e he => ?_
        cases i with
        | zero => rwa [← Option.some.inj he]
        | succ i =>
          rw [show offset + (i + 1) = offset + 1 + i by omega]
          exact hfront i (Nat.lt_of_succ_lt_succ hi) e he
      omega
    · cases hmem

/-- An ascending front leads the loop to the sum after it. -/
theorem mem_checkRunAdditions (events : List Bytes) : ∀ {offset k : Nat}, k < events.length →
    (∀ i < k, first + (offset + i) < 2 ^ 64 ∧ ∀ event, events[i]? = some event →
      signedEventSeq event = some (first + (offset + i))) →
    ⟨first, offset + k⟩ ∈ checkRunAdditions checks first offset events := by
  induction events with
  | nil =>
    intro _ _ hk
    cases hk
  | cons event events ih =>
    intro offset k hk hfront
    rw [checkRunAdditions]
    cases k with
    | zero => exact List.mem_cons_self
    | succ k =>
      obtain ⟨hfits, hseq⟩ := hfront 0 (Nat.succ_pos _)
      rw [Nat.add_zero] at hfits hseq
      apply List.mem_cons_of_mem
      rw [if_pos ((addU64_eq_seqOf hfits).mpr (hseq event rfl)),
        show offset + (k + 1) = offset + 1 + k by omega]
      refine ih (Nat.lt_of_succ_lt_succ hk) fun i hi => ?_
      rw [show offset + 1 + i = offset + (i + 1) by omega]
      exact hfront (i + 1) (Nat.succ_lt_succ hi)

/-- Where every sum fits, a run that passes is ascending. -/
theorem ascending_of_checkRun (events : List Bytes) : ∀ {offset : Nat},
    (∀ addition ∈ checkRunAdditions checks first offset events, addition.Fits) →
    checkRun checks first offset events = .ok () →
    ∀ i event, events[i]? = some event → signedEventSeq event = some (first + (offset + i)) := by
  induction events with
  | nil =>
    intro _ _ _ i event hevent
    cases hevent
  | cons event events ih =>
    intro offset hfit hrun i e he
    have hfits : first + offset < 2 ^ 64 := hfit ⟨first, offset⟩ List.mem_cons_self
    rw [checkRun, addU64_of_lt hfits, Outcome.ok_bind] at hrun
    obtain ⟨seq, hseq, hrest⟩ := Outcome.bind_eq_ok.mp hrun
    obtain ⟨_, hsame, hlater⟩ := Outcome.bind_eq_ok.mp hrest
    obtain rfl : seq = first + offset := not_not.mp (Outcome.rejectIf_eq_ok.mp hsame)
    rw [seqOf_eq_ok] at hseq
    cases i with
    | zero => rwa [← Option.some.inj he]
    | succ i =>
      rw [show offset + (i + 1) = offset + 1 + i by omega]
      refine ih (fun addition hmem => ?_) hlater i e he
      apply hfit
      rw [checkRunAdditions, if_pos ((addU64_eq_seqOf hfits).mpr hseq)]
      exact List.mem_cons_of_mem _ hmem

end Loop

/-! ## The other sums -/

/-- The bytes of a run add up within the cap. -/
theorem byteAdditions_fit {bound : Nat} (hbound : bound < 2 ^ 64) (events : List Bytes) :
    ∀ {total : Nat}, total + (events.map List.length).sum ≤ bound →
      ∀ addition ∈ byteAdditions total events, addition.Fits := by
  induction events with
  | nil =>
    intro _ _ addition hmem
    cases hmem
  | cons event events ih =>
    intro total h addition hmem
    rw [List.map_cons, List.sum_cons, ← Nat.add_assoc] at h
    rcases List.mem_cons.mp hmem with rfl | hmem
    · change total + event.length < 2 ^ 64
      omega
    · exact ih h addition hmem

/-- The numbers of an overlap add up within 64 bits. -/
theorem overlapAdditions_fit {files : LedgerFiles C} {headSeq first : Nat} (events : List Bytes) :
    ∀ {offset : Nat}, first + (offset + events.length) ≤ 2 ^ 64 →
      ∀ addition ∈ overlapAdditions files headSeq first offset events, addition.Fits := by
  induction events with
  | nil =>
    intro _ _ addition hmem
    cases hmem
  | cons event events ih =>
    intro offset h addition hmem
    rw [List.length_cons] at h
    rcases List.mem_cons.mp hmem with rfl | hmem
    · change first + offset < 2 ^ 64
      omega
    · split_ifs at hmem
      · cases hmem
      · exact ih (by omega) addition hmem
      · cases hmem

section Caps

variable {s : LedgerStorage C} {capacity : Nat} {ledger : LedgerId} {entry : Entry C}

/-- A value of every key below a bound bounds the total. -/
theorem total_le {κ ν : Type} [LinearOrder κ] {f : ν → Nat} {m : SortedMap κ ν} {bound : Nat}
    (h : ∀ k v, m.get? k = some v → f v ≤ bound) : m.total f ≤ m.entries.length * bound := by
  have hentries : ∀ e ∈ m.entries, f e.2 ≤ bound := fun e he =>
    h e.1 e.2 (SortedMap.get?_eq_some.mpr he)
  rw [SortedMap.total]
  generalize m.entries = entries at hentries ⊢
  induction entries with
  | nil => exact Nat.zero_le _
  | cons e entries ih =>
    obtain ⟨hfirst, hrest⟩ := List.forall_mem_cons.mp hentries
    rw [List.map_cons, List.sum_cons, List.length_cons, Nat.succ_mul, Nat.add_comm]
    exact Nat.add_le_add (ih hrest) hfirst

/-- The counts of a sound store under the fixed caps. -/
structure Counted (s : LedgerStorage C) : Prop where
  head : ∀ l entry, s.index.ledgers.get? l = some entry → entry.headSeq + 1 ≤ maxEventsPerLedger
  bytes : ∀ l entry, s.index.ledgers.get? l = some entry → entry.bytes ≤ maxBytesPerLedger
  used : s.index.storageUsed ≤ maxLedgers * maxBytesPerLedger

/-- A sound storage with the configured caps counts within them. -/
theorem Sound.counted (h : Sound s) (hcaps : s.setup.caps = .fromConfig capacity) :
    Counted s := by
  have hbytes : ∀ l entry, s.index.ledgers.get? l = some entry →
      entry.bytes ≤ maxBytesPerLedger := by
    intro l entry hl
    have hcap := (h.heldLog hl).bytesCap
    rwa [hcaps] at hcap
  refine ⟨fun l entry hl => ?_, hbytes, ?_⟩
  · have hcap := (h.heldLog hl).countCap
    rwa [hcaps] at hcap
  · have hledgers := h.ledgers
    rw [hcaps] at hledgers
    rw [h.used]
    exact (total_le hbytes).trans (Nat.mul_le_mul_right _ hledgers)

/-- A run of a frame added to what a sound store counts. -/
theorem Counted.storeRunAdditions_fit (h : Counted s) {events : List Bytes}
    (hcount : events.length ≤ maxPushEvents) (hbytes : (events.map List.length).sum ≤ maxPushBytes) :
    ∀ addition ∈ storeRunAdditions s.setup.caps s.index ledger events, addition.Fits := by
  have hused : s.index.storageUsed + (events.map List.length).sum < 2 ^ 64 := by
    have := h.used
    simp only [maxLedgers, maxBytesPerLedger, maxPushBytes] at this hbytes
    omega
  have hheld : (s.index.ledgers.get? ledger).elim 0 Entry.bytes + (events.map List.length).sum <
      2 ^ 64 := by
    have hentry : (s.index.ledgers.get? ledger).elim 0 Entry.bytes ≤ maxBytesPerLedger := by
      cases hl : s.index.ledgers.get? ledger with
      | none => exact Nat.zero_le _
      | some entry => exact h.bytes _ _ hl
    simp only [maxBytesPerLedger, maxPushBytes] at hentry hbytes
    omega
  have hevents : (s.index.ledgers.get? ledger).elim 0 Entry.eventCount ≤ maxEventsPerLedger := by
    cases hl : s.index.ledgers.get? ledger with
    | none => exact Nat.zero_le _
    | some entry => exact h.head _ _ hl
  have hentryCount : ∀ addition ∈ countAdditions (s.index.ledgers.get? ledger),
      addition.Fits := by
    intro addition hmem
    obtain ⟨entry, hentry, rfl⟩ := List.mem_map.mp hmem
    have hle := h.head _ _ (Option.mem_toList.mp hentry)
    change entry.headSeq + 1 < 2 ^ 64
    simp only [maxEventsPerLedger] at hle
    omega
  have hoffset : ∀ offset ≤ events.length,
      (s.index.ledgers.get? ledger).elim 0 Entry.eventCount + offset < 2 ^ 64 := by
    intro offset hle
    simp only [maxEventsPerLedger, maxPushEvents] at hevents hcount
    omega
  intro addition hmem
  unfold storeRunAdditions at hmem
  split_ifs at hmem with hempty
  · cases hmem
  rcases List.mem_append.mp hmem with hsums | hrecord
  · rcases List.mem_append.mp hsums with hsum | hcap
    · exact byteAdditions_fit (show maxPushBytes < 2 ^ 64 by decide) events (by omega) _ hsum
    · simp only [checkCapsAdditions] at hcap
      rcases List.mem_append.mp hcap with hcap | hcap
      · exact hentryCount _ hcap
      rcases List.mem_cons.mp hcap with rfl | hcap
      · exact hoffset _ le_rfl
      split_ifs at hcap
      · cases hcap
      · obtain rfl := List.mem_singleton.mp hcap
        exact hheld
      · rcases List.mem_cons.mp hcap with rfl | hcap
        · exact hheld
        · obtain rfl := List.mem_singleton.mp hcap
          exact hused
  · split_ifs at hrecord
    · simp only [recordAdditions] at hrecord
      rcases List.mem_append.mp hrecord with hrecord | hrecord
      · rcases List.mem_append.mp hrecord with hrecord | hrecord
        · exact hentryCount _ hrecord
        obtain ⟨offset, hoff, rfl⟩ := List.mem_map.mp hrecord
        exact hoffset offset (List.mem_range.mp hoff).le
      · rcases List.mem_cons.mp hrecord with rfl | hrecord
        · exact hused
        obtain rfl := List.mem_singleton.mp hrecord
        exact hheld
    · cases hrecord

end Caps

/-! ## A whole push -/

section Push

variable {s : LedgerStorage C} {capacity : Nat} {call : PushCall C} {frame : Bytes} {first : Nat}

/-- Admission adds nothing of its own. -/
theorem admittedAdditions_fit {ledger : LedgerId} {pre : Option (LedgerState C)}
    {post : LedgerState C} {additions : List Addition}
    (h : ∀ addition ∈ additions, addition.Fits) :
    ∀ addition ∈ admittedAdditions s ledger pre post additions, addition.Fits := by
  intro addition hmem
  unfold admittedAdditions at hmem
  split_ifs at hmem
  · exact h addition hmem
  · cases hmem

/-- Any part of a parsed run is short enough to store. -/
theorem Parsed.storeRunAdditions_fit {events part : List Bytes} {ledger : LedgerId}
    (h : Parsed events) (hs : Counted s) (hpart : part.Sublist events) :
    ∀ addition ∈ storeRunAdditions s.setup.caps s.index ledger part, addition.Fits :=
  hs.storeRunAdditions_fit (hpart.length_le.trans h.count)
    (((hpart.map List.length).sum_le_sum fun _ _ => Nat.zero_le _).trans h.bytes)

/-- The run within `u64` fits whatever follows its check. -/
theorem extendAdditions_fit (hs : Sound s) (hcounted : Counted s) (h : Parsed call.events)
    (hend : first + call.events.length ≤ 2 ^ 64) {entry : Entry C} {fresh : Nat}
    (hentry : s.index.ledgers.get? call.ledger = some entry) :
    ∀ addition ∈ extendAdditions s call first fresh entry.state, addition.Fits := by
  obtain ⟨state, valid, violation, hrun, happlied⟩ :=
    applyRun_applied (call.events.drop fresh) (hs.heldLog hentry).run
  intro addition hmem
  unfold extendAdditions at hmem
  simp only [hrun] at hmem
  refine admittedAdditions_fit (fun addition hmem => ?_) addition hmem
  rcases List.mem_append.mp hmem with hstore | hanswer
  · exact h.storeRunAdditions_fit hcounted
      ((List.take_sublist _ _).trans (List.drop_sublist _ _)) addition hstore
  · unfold answerAdditions at hanswer
    split_ifs at hanswer with hviolation
    · obtain ⟨reason, hreason⟩ := Option.isSome_iff_exists.mp hviolation
      obtain ⟨event, hevent, -⟩ := happlied.stops reason hreason
      have hvalid := (List.getElem?_eq_some_iff.mp hevent).1
      rw [List.length_drop] at hvalid
      rcases List.mem_cons.mp hanswer with rfl | hanswer
      · change fresh + valid < 2 ^ 64
        omega
      · obtain rfl := List.mem_singleton.mp hanswer
        change first + (fresh + valid) < 2 ^ 64
        omega
    · cases hanswer

/-- The additions of an overlapping push fit. -/
theorem spliceAdditions_fit (hs : Sound s) (hcounted : Counted s) (h : Parsed call.events)
    (hend : first + call.events.length ≤ 2 ^ 64) {entry : Entry C}
    (hentry : s.index.ledgers.get? call.ledger = some entry) :
    ∀ addition ∈ spliceAdditions s call first entry, addition.Fits := by
  intro addition hmem
  rcases List.mem_cons.mp hmem with rfl | hmem
  · have hle := hcounted.head _ _ hentry
    change entry.headSeq + 1 < 2 ^ 64
    simp only [maxEventsPerLedger] at hle
    omega
  split_ifs at hmem
  · cases hmem
  rcases List.mem_append.mp hmem with hoverlap | hrest
  · exact overlapAdditions_fit call.events (by omega) addition hoverlap
  · split at hrest
    · split_ifs at hrest
      · cases hrest
      · exact extendAdditions_fit hs hcounted h hend hentry addition hrest
    · cases hrest

/-- The additions of a first push fit. -/
theorem ingestAdditions_fit (hcounted : Counted s) (h : Parsed call.events) :
    ∀ addition ∈ ingestAdditions s call first, addition.Fits := by
  intro addition hmem
  unfold ingestAdditions at hmem
  split_ifs at hmem
  · cases hmem
  split at hmem
  · cases hmem
  split_ifs at hmem
  · cases hmem
  · exact admittedAdditions_fit (h.storeRunAdditions_fit hcounted (List.take_sublist _ _))
      addition hmem

/-- What a push judges by: its sums fit, and a run passes exactly if it ascends. -/
structure Exact (s : LedgerStorage C) (call : PushCall C) : Prop where
  fits : ∀ addition ∈ pushAdditions s call, addition.Fits
  judged : ∀ checks first, call.events.head?.map seqOf = some (.ok first) →
    (checkRun checks first 0 call.events = .ok () ↔ Ascending first call.events)

/-- In a run that does not pass the last `u64` the contiguity loop always has room. -/
theorem Parsed.checkRunAdditions_fit {events : List Bytes} (h : Parsed events)
    (hends : ¬ RunsPast events) {checks : Bool} (hfirst : first ≤ u64Max) :
    ∀ addition ∈ checkRunAdditions checks first 0 events, addition.Fits := by
  have hmax : u64Max + 1 = 2 ^ 64 := by decide
  apply Node.checkRunAdditions_fit
  intro k hk hfront
  rw [Nat.zero_add]
  cases k with
  | zero => omega
  | succ k =>
    have hlt : k < events.length := Nat.lt_of_succ_lt hk
    obtain ⟨seq, hle, hseq⟩ := h.declared events[k] (List.getElem_mem hlt)
    have hdeclares := hfront k (Nat.lt_succ_self k) _ (List.getElem?_eq_getElem hlt)
    rw [hseq, Option.some_inj] at hdeclares
    by_contra hover
    refine hends ⟨first, k, hk, by omega, fun i hi event hevent => ?_⟩
    rw [hfront i (Nat.lt_succ_of_le hi) event hevent, Nat.zero_add]

/-- A push of a frame onto a store reached under the fixed caps makes only sums that fit, and
judges contiguity by the true sequences in either build, unless the run ascends to the last
`u64` and goes on. -/
theorem push_additions_exact_iff (hs : Reachable s) (hcaps : s.setup.caps = .fromConfig capacity)
    (hframe : parseRequest C frame = .ok (.push call.ledger call.events)) :
    Exact s call ↔ ¬ RunsPast call.events := by
  have hparsed := parsed_of_parse hframe
  have hmax : u64Max + 1 = 2 ^ 64 := by decide
  obtain ⟨event, rest, hevents⟩ := List.exists_cons_of_ne_nil hparsed.nonempty
  obtain ⟨start, hstart, hseq⟩ := hparsed.declared event (by rw [hevents]; exact List.mem_cons_self)
  have hhead : call.events.head?.map seqOf = some (.ok start) := by
    rw [hevents]
    exact congrArg some (seqOf_eq_ok.mpr hseq)
  constructor
  · rintro hexact ⟨first, k, hk, hlast, hfront⟩
    obtain rfl : start = first := by
      have hzero := hfront 0 (Nat.zero_le _) event (by rw [hevents]; rfl)
      exact Option.some.inj (hseq.symm.trans hzero)
    have hmem : (⟨start, 0 + (k + 1)⟩ : Addition) ∈
        checkRunAdditions s.setup.overflowChecks start 0 call.events := by
      refine mem_checkRunAdditions call.events hk fun i hi => ⟨by omega, fun e he => ?_⟩
      rw [Nat.zero_add]
      exact hfront i (Nat.le_of_lt_succ hi) e he
    have hmade : (⟨start, 0 + (k + 1)⟩ : Addition) ∈ pushAdditions s call := by
      unfold pushAdditions
      rw [hhead]
      exact List.mem_append_left _ hmem
    have hfits : start + (0 + (k + 1)) < 2 ^ 64 := hexact.fits _ hmade
    omega
  · intro hends
    have hloop : ∀ checks, ∀ addition ∈ checkRunAdditions checks start 0 call.events,
        addition.Fits := fun checks => hparsed.checkRunAdditions_fit hends hstart
    have hascends : ∀ checks, checkRun checks start 0 call.events = .ok () →
        Ascending start call.events := by
      intro checks hrun i e he
      rw [ascending_of_checkRun call.events (hloop checks) hrun i e he, Nat.zero_add]
    have hbelow : Ascending start call.events → ∀ i < call.events.length, start + i < 2 ^ 64 := by
      intro hasc i hi
      obtain ⟨seq, hle, hdeclares⟩ := hparsed.declared _ (List.getElem_mem hi)
      rw [hasc i _ (List.getElem?_eq_getElem hi), Option.some_inj] at hdeclares
      omega
    refine ⟨fun addition hmem => ?_, fun checks first hfirst => ?_⟩
    · unfold pushAdditions at hmem
      rw [hhead] at hmem
      rcases List.mem_append.mp hmem with hmem | hmem
      · exact hloop _ addition hmem
      split_ifs at hmem with hrun
      · have hend : start + call.events.length ≤ 2 ^ 64 := by
          have hlast := hbelow (hascends _ hrun) (call.events.length - 1)
            (Nat.sub_lt (List.length_pos_iff.mpr hparsed.nonempty) Nat.one_pos)
          omega
        have hcounted := hs.sound.counted hcaps
        cases hentry : s.index.ledgers.get? call.ledger with
        | some entry =>
          rw [hentry] at hmem
          exact spliceAdditions_fit hs.sound hcounted hparsed hend hentry addition hmem
        | none =>
          rw [hentry] at hmem
          exact ingestAdditions_fit hcounted hparsed addition hmem
      · cases hmem
    · obtain rfl : start = first := Except.ok.inj (Option.some.inj (hhead.symm.trans hfirst))
      refine ⟨hascends checks, fun hasc => checkRun_ok call.events fun i e he => ?_⟩
      rw [Nat.zero_add]
      exact ⟨hasc i e he, hbelow hasc i (List.getElem?_eq_some_iff.mp he).1⟩

end Push

/-! ## A run past the end -/

/-- The sample home under the fixed caps. -/
def cappedHome : LedgerStorage Crypto.sample :=
  .empty { sampleSetup with caps := .fromConfig 2147483648 }
    (SortedMap.empty.insert sampleLedgerId ⟨true, none⟩) (SecretKey.sample 1).publicKey

theorem reachable_cappedHome : Reachable cappedHome :=
  .opened (openHome_empty _ _ _ fun _ => ⟨6, 7⟩)

/-- A parsed push of the sample ledger meets the hypotheses. -/
theorem push_additions_exact_iff_sampleLedger :
    parseRequest Crypto.sample (pushRequest sampleLedgerId sampleLedger) =
        .ok (.push sampleLedgerId sampleLedger) ∧
      (Exact cappedHome (sampleCall sampleLedger) ↔ ¬ RunsPast sampleLedger) := by
  have hframe : parseRequest Crypto.sample (pushRequest sampleLedgerId sampleLedger) =
      .ok (.push sampleLedgerId sampleLedger) :=
    parseRequest_encode (r := .push sampleLedgerId sampleLedger) (by decide +kernel)
  exact ⟨hframe, push_additions_exact_iff reachable_cappedHome rfl hframe⟩

/-- An event at the last sequence, and an inception behind it. -/
def wrappingRun : List Bytes :=
  match buildTrustAttestation (SecretKey.sample 1)
    ⟨sampleLedgerId, u64Max, Mabel.eventIdOf Crypto.sample (sampleLedger.headD []), 1000, le_rfl⟩
    ⟨.ofNat idBytes 9⟩ 5000 with
  | .ok built => [built.signedEvent, sampleLedger.headD []]
  | .error _ => []

/-- In a checked build the check of the second event panics; in another the run passes as
contiguous. -/
theorem push_additions_overflow :
    Reachable cappedHome ∧
    parseRequest Crypto.sample (pushRequest sampleLedgerId wrappingRun) =
      .ok (.push sampleLedgerId wrappingRun) ∧
    ¬ Exact cappedHome (sampleCall wrappingRun) ∧
    checkRun true u64Max 0 wrappingRun = Outcome.panic "attempt to add with overflow" ∧
    checkRun false u64Max 0 wrappingRun = .ok () := by
  refine ⟨reachable_cappedHome, parseRequest_encode (r := .push sampleLedgerId wrappingRun) ?_,
    fun hexact => ?_, ?_⟩
  · decide +kernel
  · have hmade : ⟨u64Max, 1⟩ ∈ pushAdditions cappedHome (sampleCall wrappingRun) := by
      decide +kernel
    exact absurd (hexact.fits _ hmade) (by decide)
  · decide +kernel

end Mabel.Node
