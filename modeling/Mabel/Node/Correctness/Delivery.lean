import Mabel.Node.Correctness.Outcomes

/-!
# Delivering a chain in chunks

A home that signs for a ledger takes a chain of it in any contiguous chunks: overlapping,
repeated or retried, as long as none starts past what is stored. The invariant is that the
ledger holds a prefix of the chain, so where the cuts fall does not show in the end.
-/

namespace Mabel.Node

open Wire Proto Net Machine Program

variable {C : Crypto}

/-! ## Chunks of a chain -/

/-- The events of a chain from a position on, at most a number of them. -/
def chunk (chain : List Bytes) (start count : Nat) : List Bytes := (chain.drop start).take count

/-- An event of a chunk is the chain's at its place. -/
theorem getElem?_chunk {chain : List Bytes} {start count i : Nat}
    (hi : i < (chunk chain start count).length) :
    (chunk chain start count)[i]? = chain[start + i]? := by
  rw [chunk, List.length_take] at hi
  rw [chunk, List.getElem?_take_of_lt (by omega), List.getElem?_drop]

/-- A run whose events declare their positions is contiguous and ascending. -/
theorem checkRun_ok {checks : Bool} {first : Nat} (events : List Bytes) : ∀ {offset : Nat},
    (∀ i event, events[i]? = some event → signedEventSeq event = some (first + (offset + i)) ∧
      first + (offset + i) < 2 ^ 64) → checkRun checks first offset events = .ok () := by
  induction events with
  | nil => exact fun _ => rfl
  | cons event events ih =>
    intro offset h
    obtain ⟨hseq, hlt⟩ := h 0 event rfl
    rw [Nat.add_zero] at hseq hlt
    rw [checkRun, addU64, if_pos hlt, Outcome.ok_bind, seqOf, hseq, Outcome.orReject_some,
      Outcome.ok_bind, Outcome.rejectIf_of_not (not_not.mpr rfl), Outcome.ok_bind]
    apply ih
    intro i event hi
    rw [Nat.add_assoc, Nat.add_comm 1 i]
    exact h (i + 1) event hi

/-- A chunk of a chain is contiguous and ascending from where it starts. -/
theorem numbered_chunk {chain : List Bytes} {state : LedgerState C} (h : FoldRun chain state)
    (checks : Bool) {start count : Nat} (hne : chunk chain start count ≠ []) :
    Numbered checks start (chunk chain start count) := by
  have hdeclared : ∀ i event, (chunk chain start count)[i]? = some event →
      signedEventSeq event = some (start + i) ∧ start + i < 2 ^ 64 := by
    intro i event hi
    rw [getElem?_chunk (List.getElem?_eq_some_iff.mp hi).1] at hi
    obtain ⟨u, u', -, hseq, ⟨st⟩, -⟩ := h.at_index hi
    refine ⟨(signedEventSeq_step st).trans (congrArg some hseq), ?_⟩
    have hbound := st.opened.valid.seq
    rw [st.seq, hseq, u64Max] at hbound
    omega
  obtain ⟨event, rest, hevents⟩ := List.exists_cons_of_ne_nil hne
  refine ⟨event, rest, hevents, ?_, ?_⟩
  · rw [seqOf, (hdeclared 0 event (by rw [hevents]; rfl)).1]
    rfl
  · apply checkRun_ok
    intro i event hi
    rw [Nat.zero_add]
    exact hdeclared i event hi

/-- Where a whole run applies, the applied part is all of it. -/
theorem Applied.of_run {s state final : LedgerState C} {events : List Bytes} {valid : Nat}
    {violation : Option (Reason C)} (h : Applied s events state valid violation)
    (hrun : RunFrom (Accepts LedgerState.apply) s events final) :
    violation = none ∧ valid = events.length ∧ state = final := by
  have hnone : violation = none := by
    cases hviolation : violation with
    | none => rfl
    | some reason =>
      obtain ⟨event, hevent, hstop⟩ := h.stops reason hviolation
      obtain ⟨u, u', hbefore, haccept, -⟩ := hrun.at_index hevent
      obtain rfl := hbefore.functional h.run
      rw [show u.apply event = .ok u' from haccept] at hstop
      simp at hstop
  have hvalid := h.whole hnone
  refine ⟨hnone, hvalid, ?_⟩
  have happlied := h.run
  rw [hvalid, List.take_length] at happlied
  exact happlied.functional hrun

/-! ## A ledger that holds a prefix of the chain -/

/-- The bytes some events take. -/
def totalBytes (events : List Bytes) : Nat := (events.map List.length).sum

theorem totalBytes_append (a b : List Bytes) : totalBytes (a ++ b) = totalBytes a + totalBytes b := by
  rw [totalBytes, List.map_append, List.sum_append]
  rfl

/-- A chain is the part up to a position, the chunk up to another, and the rest. -/
theorem chain_split (chain : List Bytes) {n m : Nat} (hm : n ≤ m) :
    chain = chain.take n ++ (chunk chain n (m - n) ++ chain.drop m) := by
  conv_lhs => rw [← List.take_append_drop n chain, ← List.take_append_drop (m - n) (chain.drop n)]
  rw [List.drop_drop, Nat.add_sub_cancel' hm]
  rfl

/-- The bytes left are those of the next chunk and of what follows. -/
theorem totalBytes_drop (chain : List Bytes) {n m : Nat} (hm : n ≤ m) :
    totalBytes (chain.drop n) = totalBytes (chunk chain n (m - n)) + totalBytes (chain.drop m) := by
  rw [← totalBytes_append, chunk]
  conv_lhs => rw [← List.take_append_drop (m - n) (chain.drop n), List.drop_drop,
    Nat.add_sub_cancel' hm]

/-- A store that signs for a ledger, holds a prefix of a chain of it and has room for all of
it. The totals the whole chain will lead to are fixed. -/
structure Carries (chain : List Bytes) (l : LedgerId) (used : Nat) (forks : List (ForkRecord C))
    (forkFiles : SortedMap (Nat ×ₗ EventId) Bytes) (s : LedgerStorage C) (n : Nat) : Prop where
  sound : Sound s
  canSign : s.home.canSignFor l = true
  le : n ≤ chain.length
  log : s.logOf l = chain.take n
  eventsCap : chain.length ≤ s.setup.caps.eventsPerLedger
  bytesCap : totalBytes chain ≤ s.setup.caps.bytesPerLedger
  ledgersCap : s.index.ledgers.get? l = none → s.index.ledgers.entries.length < s.setup.caps.ledgers
  capacity : used ≤ s.setup.caps.storageCapacity
  used_eq : s.index.storageUsed + totalBytes (chain.drop n) = used
  forks_eq : (s.index.ledgers.get? l).elim [] Entry.forks = forks
  forkFiles_eq : (s.filesOf l).forks = forkFiles

section Carries

variable {chain : List Bytes} {l : LedgerId} {used : Nat} {forks : List (ForkRecord C)}
  {forkFiles : SortedMap (Nat ×ₗ EventId) Bytes} {s : LedgerStorage C} {n : Nat}
  {final : LedgerState C}

theorem Carries.countOf (h : Carries chain l used forks forkFiles s n) : s.countOf l = n := by
  rw [← h.sound.length_logOf, h.log, List.length_take, Nat.min_eq_left h.le]

/-- The chain goes on from the stored state. -/
theorem Carries.split (h : Carries chain l used forks forkFiles s n) (hchain : FoldRun chain final)
    {m : Nat} (hm : n ≤ m) :
    ∃ u, RunFrom (Accepts LedgerState.apply) (s.stateOf l) (chunk chain n (m - n)) u ∧
      RunFrom (Accepts LedgerState.apply) u (chain.drop m) final := by
  have hrun := hchain
  rw [chain_split chain hm] at hrun
  obtain ⟨v, hv, hrest⟩ := hrun.split
  have hstored := h.sound.foldRun l
  rw [h.log] at hstored
  obtain rfl := hv.functional hstored
  exact hrest.split

/-- Room for the whole chain is room for what of it is still to come. -/
theorem Carries.room (h : Carries chain l used forks forkFiles s n) {m : Nat} (hm : n ≤ m)
    (hlen : m ≤ chain.length) :
    Room s.setup.caps s.index l (chunk chain n (m - n)).length
      (totalBytes (chunk chain n (m - n))) := by
  have hsizes := congrArg totalBytes (chain_split chain hm)
  rw [totalBytes_append, totalBytes_append] at hsizes
  have hrest := totalBytes_drop chain hm
  have hevents := h.eventsCap
  have hbytes := h.bytesCap
  have hcapacity := h.capacity
  have hused := h.used_eq
  constructor
  · change s.countOf l + _ ≤ _
    rw [h.countOf, chunk, List.length_take, List.length_drop]
    omega
  · rw [h.sound.bytes_logOf, h.log]
    change totalBytes (chain.take n) + _ ≤ _
    omega
  · exact h.ledgersCap
  · omega

/-- Once the next part of the chain has landed, a longer prefix is held. -/
theorem Carries.landed (h : Carries chain l used forks forkFiles s n) {call : PushCall C}
    (hl : call.ledger = l) {m : Nat} (hm : n < m) (hlen : m ≤ chain.length) {state : LedgerState C}
    (hrun : RunFrom (Accepts LedgerState.apply) (s.stateOf l) (chunk chain n (m - n)) state)
    (hledger : state.ledger = some l) :
    Carries chain l used forks forkFiles (s.landed call state (chunk chain n (m - n))) m := by
  subst hl
  have hne : chunk chain n (m - n) ≠ [] := by
    rw [chunk, ne_eq, List.take_eq_nil_iff, List.drop_eq_nil_iff]
    omega
  have hsound := h.sound.landed hne hrun (h.room hm.le hlen) hledger
  refine ⟨hsound, h.canSign, hlen, ?_, h.eventsCap, h.bytesCap, ?_, h.capacity, ?_, ?_, ?_⟩
  · rw [h.sound.logOf_landed, if_pos rfl, h.log, chunk, ← List.take_add, Nat.add_sub_cancel' hm.le]
  · intro hnone
    rw [LedgerStorage.get?_landed, if_pos rfl] at hnone
    simp at hnone
  · have hrest := totalBytes_drop chain hm.le
    have hused := h.used_eq
    rw [LedgerStorage.landed_index, LedgerStorage.indexAfter_eq]
    change s.index.storageUsed + totalBytes (chunk chain n (m - n)) + _ = _
    omega
  · rw [LedgerStorage.get?_landed, if_pos rfl, Option.elim_some, LedgerStorage.forks_entryAfter]
    exact h.forks_eq
  · rw [LedgerStorage.filesOf_landed, if_pos rfl]
    exact h.forkFiles_eq

/-- What a chunk of the chain adds is the next part of the chain, and all of it applies. -/
theorem Carries.applied {call : PushCall C}
    (h : Carries chain call.ledger used forks forkFiles s n) (hchain : FoldRun chain final)
    (hledger : final.ledger = some call.ledger) {start count : Nat}
    (hevents : call.events = chunk chain start count)
    (hlen : start + call.events.length ≤ chain.length) {fresh valid : Nat} {state : LedgerState C}
    {violation : Option (Reason C)} (hreaches : Reaches s call start fresh state valid violation) :
    n < start + call.events.length ∧ violation = none ∧
      (call.events.drop fresh).take valid = chunk chain n (start + call.events.length - n) ∧
      RunFrom (Accepts LedgerState.apply) (s.stateOf call.ledger)
        (chunk chain n (start + call.events.length - n)) state ∧
      state.ledger = some call.ledger := by
  have hends := hreaches.ends
  have hmore := hreaches.more
  rw [h.countOf] at hends
  have hn : n < start + call.events.length := by omega
  have hrest : call.events.drop fresh = chunk chain n (start + call.events.length - n) := by
    have hwhole : call.events = (chain.drop start).take call.events.length := by
      conv_lhs => rw [hevents, chunk, List.take_eq_take_min]
      rw [hevents, chunk, List.length_take]
    conv_lhs => rw [hwhole, List.drop_take, List.drop_drop, hends]
    rw [chunk]
    congr 1
    omega
  obtain ⟨u, hrun, htail⟩ := h.split hchain hn.le
  obtain ⟨hviolation, hvalid, rfl⟩ := hreaches.applied.of_run (hrest ▸ hrun)
  refine ⟨hn, hviolation, ?_, hrun, ?_⟩
  · rw [hvalid, List.take_length, hrest]
  · have hfold : FoldRun _ state := (h.sound.foldRun call.ledger).append hrun
    obtain ⟨timestampMs, hhead⟩ := hfold.head_eq (by
      rw [ne_eq, List.append_eq_nil_iff, chunk, List.take_eq_nil_iff, List.drop_eq_nil_iff]
      omega)
    obtain ⟨-, -, -, hsame⟩ := fixed_of_runFrom htail (by simp [hhead])
    exact hsame.symm.trans hledger

/-- A chunk ends within its chain. -/
theorem length_chunk_le {start count : Nat} (hne : chunk chain start count ≠ []) :
    start + (chunk chain start count).length ≤ chain.length := by
  rw [chunk, List.length_take, List.length_drop]
  rw [chunk, ne_eq, List.take_eq_nil_iff, List.drop_eq_nil_iff] at hne
  omega

/-- A chunk differs from nothing that is stored. -/
theorem Carries.not_differs {call : PushCall C}
    (h : Carries chain call.ledger used forks forkFiles s n) {first start count i : Nat} {kept conflicting : Bytes}
    (hevents : call.events = chunk chain start count)
    (hnum : Numbered s.setup.overflowChecks start call.events) :
    ¬ Differs s call first i kept conflicting := by
  intro hdiffers
  obtain rfl := hdiffers.isNumbered.unique hnum
  have hkept := hdiffers.kept_eq
  have hconflicting := hdiffers.conflicting_eq
  have hlt := (List.getElem?_eq_some_iff.mp hkept).1
  rw [h.sound.length_logOf, h.countOf] at hlt
  rw [h.log, List.getElem?_take_of_lt hlt] at hkept
  have hi := (List.getElem?_eq_some_iff.mp hconflicting).1
  rw [hevents] at hi hconflicting
  rw [getElem?_chunk hi, hkept] at hconflicting
  exact hdiffers.ne (Option.some.inj hconflicting)

/-- Events that are all stored end no later than what is stored. -/
theorem Carries.end_le {call : PushCall C} (h : Carries chain call.ledger used forks forkFiles s n)
    {first : Nat} (hne : call.events ≠ [])
    (hsame : ∀ i < call.events.length, (s.logOf call.ledger)[first + i]? = call.events[i]?) :
    first + call.events.length ≤ n := by
  have hpos := List.length_pos_of_ne_nil hne
  have hlast := hsame (call.events.length - 1) (by omega)
  have hget := List.getElem?_eq_getElem
    (show call.events.length - 1 < call.events.length by omega)
  have hlt := (List.getElem?_eq_some_iff.mp (hlast.trans hget)).1
  rw [h.sound.length_logOf, h.countOf] at hlt
  omega

/-- A home that signs for the ledger takes every push of it. -/
theorem Carries.takes (h : Carries chain l used forks forkFiles s n) (post : LedgerState C) :
    s.takes l post = true := by
  rw [LedgerStorage.takes, admits, h.canSign]
  rfl

/-- A chunk that starts no later than what is stored is taken; one that adds nothing changes
nothing. -/
theorem Carries.push (h : Carries chain l used forks forkFiles s n) (hchain : FoldRun chain final)
    (hledger : final.ledger = some l) (call : PushCall C) (hl : call.ledger = l) {start count : Nat}
    (hevents : call.events = chunk chain start count) (hne : call.events ≠ []) (hstart : start ≤ n) :
    ∃ o, (s.push call).1 = .ok o ∧
      Carries chain l used forks forkFiles (s.push call).2 (max n (start + call.events.length)) ∧
      (start + call.events.length ≤ n → o.stored = 0 ∧ (s.push call).2 = s) := by
  subst hl
  have hlen : start + call.events.length ≤ chain.length := by
    rw [hevents] at hne ⊢
    exact length_chunk_le hne
  have hnum : Numbered s.setup.overflowChecks start call.events := by
    rw [hevents] at hne ⊢
    exact numbered_chunk hchain _ hne
  have happlied : ∀ {first fresh state valid violation},
      Reaches s call first fresh state valid violation →
      n < start + call.events.length ∧ violation = none ∧
      (call.events.drop fresh).take valid = chunk chain n (start + call.events.length - n) ∧
      RunFrom (Accepts LedgerState.apply) (s.stateOf call.ledger)
        (chunk chain n (start + call.events.length - n)) state ∧
      state.ledger = some call.ledger := by
    intro first fresh state valid violation hreaches
    obtain rfl := hreaches.isNumbered.unique hnum
    exact h.applied hchain hledger hevents hlen hreaches
  rcases hpush : s.push call with ⟨r, t⟩
  have hpushed := h.sound.pushed call
  rw [hpush] at hpushed
  dsimp only at hpushed ⊢
  cases hpushed with
  | nothing hnil => exact absurd hnil hne
  | nothingHeld hnil => exact absurd hnil hne
  | unnumbered _ hnot => exact absurd hnum (hnot start)
  | overflow _ hnot => exact absurd hnum (hnot start)
  | gap hfirst hgap =>
    rw [h.countOf, hfirst.unique hnum] at hgap
    omega
  | known hfirst hsame =>
    obtain rfl := hfirst.unique hnum
    rw [Nat.max_eq_left (h.end_le hne hsame)]
    exact ⟨_, rfl, h, fun _ => ⟨rfl, rfl⟩⟩
  | divergent hdiffers => exact absurd hdiffers (h.not_differs hevents hnum)
  | fork hdiffers => exact absurd hdiffers (h.not_differs hevents hnum)
  | stops hreaches =>
    obtain ⟨-, hviolation, -⟩ := happlied hreaches
    simp at hviolation
  | foreign hreaches _ _ hforeign =>
    obtain ⟨-, -, -, -, hsame⟩ := happlied hreaches
    exact absurd hsame hforeign
  | @notAdmitted _ _ state _ _ _ htakes =>
    rw [h.takes state] at htakes
    simp at htakes
  | tooLarge hreaches _ _ hroom =>
    obtain ⟨hmore, -, htaken, -, -⟩ := happlied hreaches
    rw [htaken] at hroom
    exact absurd (h.room hmore.le hlen) hroom
  | stored hreaches =>
    obtain ⟨hmore, rfl, htaken, hrun, hsame⟩ := happlied hreaches
    rw [htaken, Nat.max_eq_right hmore.le]
    exact ⟨_, rfl, h.landed rfl hmore hlen hrun hsame, fun hle => absurd hmore (by omega)⟩

end Carries

/-! ## Deliveries -/

/-- One push of a delivery: which part of the chain it carries, from whom and when. -/
structure Chunk (C : Crypto) where
  start : Nat
  count : Nat
  provenance : Provenance C
  clock : Clock

/-- The events a chunk carries. -/
def Chunk.events (chain : List Bytes) (c : Chunk C) : List Bytes := chunk chain c.start c.count

/-- The push that delivers a chunk. -/
def Chunk.call (chain : List Bytes) (l : LedgerId) (c : Chunk C) : PushCall C :=
  ⟨l, c.events chain, c.provenance, c.clock⟩

/-- Every nonempty chunk starts no later than what is stored when it is pushed. -/
def Timely (chain : List Bytes) (l : LedgerId) (s : LedgerStorage C) : List (Chunk C) → Prop
  | [] => True
  | c :: cs => (c.events chain ≠ [] → c.start ≤ s.countOf l) ∧
    Timely chain l (s.push (c.call chain l)).2 cs

/-- What a home keeps of one ledger, and the bytes it counts over all. -/
structure Kept (C : Crypto) where
  events : SortedMap Nat Bytes
  state : Option (LedgerState C)
  head : Option (Nat × EventId)
  bytes : Option Nat
  storageUsed : Nat
  forks : Option (List (ForkRecord C))
  forkFiles : SortedMap (Nat ×ₗ EventId) Bytes

def LedgerStorage.keptOf (s : LedgerStorage C) (l : LedgerId) : Kept C where
  events := (s.filesOf l).events
  state := (s.index.ledgers.get? l).map Entry.state
  head := (s.index.ledgers.get? l).map fun entry => (entry.headSeq, entry.headEvent)
  bytes := (s.index.ledgers.get? l).map Entry.bytes
  storageUsed := s.index.storageUsed
  forks := (s.index.ledgers.get? l).map Entry.forks
  forkFiles := (s.filesOf l).forks

/-- A chain is within every cap of a home that may hold a prefix of it. -/
structure WithinCaps (chain : List Bytes) (l : LedgerId) (s : LedgerStorage C) : Prop where
  events : chain.length ≤ s.setup.caps.eventsPerLedger
  bytes : totalBytes chain ≤ s.setup.caps.bytesPerLedger
  ledgers : s.index.ledgers.get? l = none → s.index.ledgers.entries.length < s.setup.caps.ledgers
  capacity : s.index.storageUsed + totalBytes (chain.drop (s.countOf l)) ≤
    s.setup.caps.storageCapacity

/-- A push of nothing changes nothing. It is refused exactly when the ledger is not held. -/
theorem Sound.push_nothing {s : LedgerStorage C} (h : Sound s) (call : PushCall C)
    (hevents : call.events = []) : (s.push call).2 = s ∧
      (s.index.ledgers.get? call.ledger ≠ none →
        (s.push call).1 = .ok ⟨s.countOf call.ledger - 1, 0⟩) ∧
      (s.index.ledgers.get? call.ledger = none →
        rejection (s.push call).1 = some (.notAdmitted, 0)) := by
  have hnever : ∀ {first}, ¬ Numbered s.setup.overflowChecks first call.events := by
    rintro first ⟨_, _, heq, -⟩
    simp [hevents] at heq
  rcases hpush : s.push call with ⟨r, t⟩
  have hpushed := h.pushed call
  rw [hpush] at hpushed
  dsimp only at hpushed ⊢
  cases hpushed with
  | nothing _ hheld =>
    refine ⟨rfl, fun _ => rfl, fun hnone => ?_⟩
    simp [hnone] at hheld
  | nothingHeld _ hnone =>
    exact ⟨rfl, fun hheld => absurd hnone hheld, fun _ => rejection_refusal _ _ _⟩
  | unnumbered hne => exact absurd hevents hne
  | overflow hne => exact absurd hevents hne
  | gap hrun => exact absurd hrun hnever
  | known hrun => exact absurd hrun hnever
  | divergent hdiffers => exact absurd hdiffers.isNumbered hnever
  | fork hdiffers => exact absurd hdiffers.isNumbered hnever
  | stops hreaches => exact absurd hreaches.isNumbered hnever
  | foreign hreaches => exact absurd hreaches.isNumbered hnever
  | notAdmitted hreaches => exact absurd hreaches.isNumbered hnever
  | tooLarge hreaches => exact absurd hreaches.isNumbered hnever
  | stored hreaches => exact absurd hreaches.isNumbered hnever

section Delivery

variable {chain : List Bytes} {l : LedgerId} {used : Nat} {forks : List (ForkRecord C)}
  {forkFiles : SortedMap (Nat ×ₗ EventId) Bytes} {s : LedgerStorage C} {n : Nat}
  {final : LedgerState C}

/-- Where one chunk leaves the store. -/
theorem Carries.deliver (h : Carries chain l used forks forkFiles s n)
    (hchain : FoldRun chain final) (hledger : final.ledger = some l) (c : Chunk C)
    (htimely : c.events chain ≠ [] → c.start ≤ s.countOf l) :
    ∃ m, n ≤ m ∧ Carries chain l used forks forkFiles (s.push (c.call chain l)).2 m ∧
      (c.events chain ≠ [] → c.start + (c.events chain).length ≤ m) ∧
      (c.events chain ≠ [] ∨ s.index.ledgers.get? l ≠ none →
        ∃ o, (s.push (c.call chain l)).1 = .ok o) := by
  by_cases hne : c.events chain = []
  · obtain ⟨hsame, hheld, -⟩ := h.sound.push_nothing (c.call chain l) hne
    refine ⟨n, le_rfl, ?_, fun h => absurd hne h, ?_⟩
    · rw [hsame]
      exact h
    · rintro (hnot | hnot)
      · exact absurd hne hnot
      · exact ⟨_, hheld hnot⟩
  · have hstart := htimely hne
    rw [h.countOf] at hstart
    obtain ⟨o, ho, hcarries, -⟩ := h.push hchain hledger (c.call chain l) rfl rfl hne hstart
    exact ⟨_, le_max_left .., hcarries, fun _ => le_max_right .., fun _ => ⟨o, ho⟩⟩

/-- Where a delivery leaves the store, and what each of its chunks was answered. -/
theorem Carries.delivery (hchain : FoldRun chain final) (hledger : final.ledger = some l)
    (cs : List (Chunk C)) : ∀ {s : LedgerStorage C} {n : Nat},
    Carries chain l used forks forkFiles s n → Timely chain l s cs →
    ∃ m, n ≤ m ∧ Carries chain l used forks forkFiles (s.pushes (cs.map (Chunk.call chain l))) m ∧
      (∀ c ∈ cs, c.events chain ≠ [] → c.start + (c.events chain).length ≤ m) ∧
      ∀ i c, cs[i]? = some c → ∃ k,
        Carries chain l used forks forkFiles (s.pushes ((cs.take i).map (Chunk.call chain l))) k ∧
        (c.events chain ≠ [] ∨
          (s.pushes ((cs.take i).map (Chunk.call chain l))).index.ledgers.get? l ≠ none →
          ∃ o, ((s.pushes ((cs.take i).map (Chunk.call chain l))).push (c.call chain l)).1 =
            .ok o) := by
  induction cs with
  | nil => exact fun {s n} h _ => ⟨n, le_rfl, h, by simp, by simp⟩
  | cons c cs ih =>
    rintro s n h ⟨hfirst, hrest⟩
    obtain ⟨m, hm, hcarries, hreach, hok⟩ := h.deliver hchain hledger c hfirst
    obtain ⟨m', hm', hfinal, hreach', hok'⟩ := ih hcarries hrest
    refine ⟨m', hm.trans hm', hfinal, ?_, ?_⟩
    · intro c' hc' hne
      rcases List.mem_cons.mp hc' with rfl | hc'
      · exact (hreach hne).trans hm'
      · exact hreach' c' hc' hne
    · intro i c' hc'
      cases i with
      | zero =>
        obtain rfl : c = c' := Option.some.inj hc'
        exact ⟨n, h, hok⟩
      | succ i => exact hok' i c' hc'

/-- A store that holds the whole chain keeps of the ledger what the chain says. -/
theorem Carries.keptOf_eq (hchain : FoldRun chain final) (hpos : chain ≠ [])
    {t : LedgerStorage C} (h : Carries chain l used forks forkFiles s chain.length)
    (h' : Carries chain l used forks forkFiles t chain.length) : s.keptOf l = t.keptOf l := by
  have hheld : ∀ {u : LedgerStorage C}, Carries chain l used forks forkFiles u chain.length →
      u.keptOf l = ⟨u.filesOf l |>.events, some final, final.head.map fun head =>
        (head.seq, head.eventId), some (totalBytes chain), used, some forks, forkFiles⟩ := by
    intro u hu
    have hlog : u.logOf l = chain := by rw [hu.log, List.take_length]
    cases hentry : u.index.ledgers.get? l with
    | none => exact absurd (hlog.symm.trans (hu.sound.absentLog hentry)) hpos
    | some entry =>
      have hentryHeld := hu.sound.heldLog hentry
      rw [hlog] at hentryHeld
      obtain rfl := hentryHeld.run.functional hchain
      obtain ⟨timestampMs, hhead⟩ := hentryHeld.head
      have hused := hu.used_eq
      have hforks := hu.forks_eq
      rw [List.drop_length] at hused
      rw [hentry] at hforks
      rw [LedgerStorage.keptOf, hentry, hhead, hu.forkFiles_eq, ← hused, ← hforks]
      exact congrArg (fun bytes => Kept.mk _ _ _ (some bytes) _ _ _) hentryHeld.bytes
  have hevents : (s.filesOf l).events = (t.filesOf l).events := by
    apply SortedMap.ext
    intro seq
    rw [h.sound.holds l seq, h'.sound.holds l seq, h.log, h'.log]
  rw [hheld h, hheld h', hevents]

end Delivery

/-- Push idempotence and split invariance: a home that signs for a ledger and holds a prefix of
a chain of it, with room for all of it, ends with the same of it however the chain is cut into
timely chunks that cover it. Each chunk is answered `Ok`, an empty one for a ledger that is not
held yet apart; a chunk pushed again is `Ok`, stores nothing and changes nothing. -/
theorem delivery_invariant {s : LedgerStorage C} (h : Reachable s) {l : LedgerId}
    (hsign : s.home.canSignFor l = true) {chain : List Bytes} {final : LedgerState C}
    (hchain : fold C chain = .ok (final, none)) (hledger : final.ledger = some l)
    (hheld : s.logOf l <+: chain) (hcaps : WithinCaps chain l s) {cs : List (Chunk C)}
    (htimely : Timely chain l s cs)
    (hcovers : ∀ k < chain.length, ∃ c ∈ cs, c.start ≤ k ∧ k < c.start + c.count) :
    (∀ i c, cs[i]? = some c →
      let t := s.pushes ((cs.take i).map (Chunk.call chain l))
      (c.events chain ≠ [] ∨ t.index.ledgers.get? l ≠ none →
        ∃ o, (t.push (c.call chain l)).1 = .ok o) ∧
      (c.events chain = [] → t.index.ledgers.get? l = none →
        rejection (t.push (c.call chain l)).1 = some (.notAdmitted, 0) ∧
          (t.push (c.call chain l)).2 = t)) ∧
    (∀ whole : Chunk C, whole.events chain = chain →
      (∃ o, (s.push (whole.call chain l)).1 = .ok o) ∧
      (s.pushes (cs.map (Chunk.call chain l))).keptOf l =
        (s.push (whole.call chain l)).2.keptOf l) ∧
    ∀ c : Chunk C, ∃ o, o.stored = 0 ∧
      (s.pushes (cs.map (Chunk.call chain l))).push (c.call chain l) =
        (.ok o, s.pushes (cs.map (Chunk.call chain l))) := by
  have hrun := fold_eq_ok.mp hchain
  have hpos : chain ≠ [] := by
    rintro rfl
    rw [hrun.eq_of_nil] at hledger
    simp [LedgerState.default] at hledger
  have hstart : Carries chain l (s.index.storageUsed + totalBytes (chain.drop (s.countOf l)))
      ((s.index.ledgers.get? l).elim [] Entry.forks) (s.filesOf l).forks s (s.countOf l) := by
    refine ⟨h.sound, hsign, ?_, ?_, hcaps.events, hcaps.bytes, hcaps.ledgers, hcaps.capacity, rfl,
      rfl, rfl⟩
    · rw [← h.sound.length_logOf]
      exact hheld.length_le
    · rw [← h.sound.length_logOf]
      exact List.prefix_iff_eq_take.mp hheld
  obtain ⟨m, -, hdone, hreach, hanswers⟩ := Carries.delivery hrun hledger cs hstart htimely
  -- The chunk that covers the last event brings the whole chain.
  obtain rfl : m = chain.length := by
    have hlength := List.length_pos_of_ne_nil hpos
    obtain ⟨c, hc, hlow, hhigh⟩ := hcovers (chain.length - 1) (by omega)
    have hsize : (c.events chain).length = min c.count (chain.length - c.start) := by
      rw [Chunk.events, chunk, List.length_take, List.length_drop]
    have hend := hreach c hc (List.ne_nil_of_length_pos (by omega))
    have hle := hdone.le
    omega
  refine ⟨?_, ?_, ?_⟩
  · intro i c hc
    obtain ⟨k, hcarries, hok⟩ := hanswers i c hc
    refine ⟨hok, fun hempty hnone => ?_⟩
    obtain ⟨hsame, -, hrefused⟩ := hcarries.sound.push_nothing (c.call chain l) hempty
    exact ⟨hrefused hnone, hsame⟩
  · intro whole hwhole
    have hzero : whole.start = 0 := by
      have hlength := List.length_pos_of_ne_nil hpos
      have hsize := congrArg List.length hwhole
      rw [Chunk.events, chunk, List.length_take, List.length_drop] at hsize
      omega
    have hne : whole.events chain ≠ [] := by rwa [hwhole]
    obtain ⟨m, -, hcarries, hend, hok⟩ := hstart.deliver hrun hledger whole fun _ => by omega
    obtain rfl : m = chain.length := by
      have hend := hend hne
      have hle := hcarries.le
      rw [hwhole, hzero] at hend
      omega
    exact ⟨hok (.inl hne), Carries.keptOf_eq hrun hpos hdone hcarries⟩
  · intro c
    by_cases hempty : c.events chain = []
    · obtain ⟨hsame, hok, -⟩ := hdone.sound.push_nothing (c.call chain l) hempty
      refine ⟨_, rfl, Prod.ext (hok ?_) hsame⟩
      intro hnone
      have hlog := hdone.log.symm.trans (hdone.sound.absentLog hnone)
      rw [List.take_length] at hlog
      exact hpos hlog
    · have hsize : 0 < (c.events chain).length := List.length_pos_of_ne_nil hempty
      rw [Chunk.events, chunk, List.length_take, List.length_drop] at hsize
      obtain ⟨o, ho, -, hsame⟩ := hdone.push hrun hledger (c.call chain l) rfl rfl hempty (by omega)
      have hend : c.start + (c.call chain l).events.length ≤ chain.length := by
        rw [Chunk.call, Chunk.events, chunk, List.length_take, List.length_drop]
        omega
      exact ⟨o, (hsame hend).1, Prod.ext ho (hsame hend).2⟩

/-! ## The sample ledger, delivered -/

/-- The first two events of the sample ledger, and the state they lead to. -/
def sampleChain : List Bytes := sampleLedger.take 2

theorem fold_sampleChain :
    fold Crypto.sample sampleChain = .ok (after Crypto.sample sampleChain, none) ∧
      (after Crypto.sample sampleChain).ledger = some sampleLedgerId := by decide +kernel

theorem withinCaps_sampleChain : WithinCaps sampleChain sampleLedgerId sampleHome :=
  ⟨by decide +kernel, by decide +kernel, by decide +kernel, by decide +kernel⟩

def sampleChunk (start count : Nat) : Chunk Crypto.sample := ⟨start, count, ⟨none⟩, sampleClock⟩

/-- Delivering a chunk again stores nothing anew. -/
theorem delivery_invariant_sampleHome :
    ∃ o, o.stored = 0 ∧
      (sampleHome.pushes ([sampleChunk 0 1, sampleChunk 0 2].map
        (Chunk.call sampleChain sampleLedgerId))).push
          ((sampleChunk 1 1).call sampleChain sampleLedgerId) =
        (.ok o, sampleHome.pushes ([sampleChunk 0 1, sampleChunk 0 2].map
          (Chunk.call sampleChain sampleLedgerId))) := by
  have htimely : Timely sampleChain sampleLedgerId sampleHome [sampleChunk 0 1, sampleChunk 0 2] :=
    ⟨fun _ => Nat.zero_le _, fun _ => Nat.zero_le _, trivial⟩
  exact (delivery_invariant reachable_sampleHome (by decide +kernel) fold_sampleChain.1
    fold_sampleChain.2 (by decide +kernel) withinCaps_sampleChain htimely
    (by decide +kernel)).2.2 (sampleChunk 1 1)

/-- An empty chunk is timely and is refused while the ledger is not held. -/
theorem empty_chunk_refused :
    Reachable sampleHome ∧ sampleHome.home.canSignFor sampleLedgerId = true ∧
    fold Crypto.sample sampleChain = .ok (after Crypto.sample sampleChain, none) ∧
    (after Crypto.sample sampleChain).ledger = some sampleLedgerId ∧
    sampleHome.logOf sampleLedgerId <+: sampleChain ∧
    WithinCaps sampleChain sampleLedgerId sampleHome ∧
    Timely sampleChain sampleLedgerId sampleHome [sampleChunk 0 0, sampleChunk 0 2] ∧
    (∀ k < sampleChain.length, ∃ c ∈ [sampleChunk 0 0, sampleChunk 0 2],
      c.start ≤ k ∧ k < c.start + c.count) ∧
    rejection (sampleHome.push ((sampleChunk 0 0).call sampleChain sampleLedgerId)).1 =
      some (.notAdmitted, 0) :=
  ⟨reachable_sampleHome, by decide +kernel, fold_sampleChain.1, fold_sampleChain.2,
    by decide +kernel, withinCaps_sampleChain,
    ⟨fun _ => Nat.zero_le _, fun _ => Nat.zero_le _, trivial⟩, by decide +kernel,
    by decide +kernel⟩

end Mabel.Node
