import Mabel.Node.Pushed
import Mabel.Node.Reload

/-!
# The first event stored at a sequence stays

Pushes keep a sound store sound, so the files, the folded states and the byte counters agree
after any sequence of them, and no push changes or removes a stored event.
-/

namespace Mabel.Node

open Wire Proto Net Machine Program

variable {C : Crypto}

/-! ## One push keeps the store sound -/

namespace LedgerStorage

variable (s : LedgerStorage C) (record : ForkRecord C) (conflicting : EventId)

/-- A kept fork is entered with its own ledger. -/
theorem get?_forked (l : LedgerId) : (s.forked record conflicting).index.ledgers.get? l =
    if l = record.ledger then (s.index.ledgers.get? l).map fun entry =>
      { entry with forks := insertFork entry.forks record }
    else s.index.ledgers.get? l := by
  rw [forked, SortedMap.get?_adjust]
  by_cases hl : l = record.ledger
  · rw [if_pos hl, if_pos hl]
  · rw [if_neg hl, if_neg hl]

/-- A quantity that does not look at the forks has the same total. -/
theorem total_forked {f : Entry C → Nat}
    (hf : ∀ entry : Entry C, f { entry with forks := insertFork entry.forks record } = f entry) :
    (s.forked record conflicting).index.ledgers.total f = s.index.ledgers.total f :=
  SortedMap.total_adjust hf s.index.ledgers record.ledger

/-- Recording a fork leaves the events and the heads alone. -/
theorem filesOf_forked (l : LedgerId) :
    ((s.forked record conflicting).filesOf l).events = (s.filesOf l).events ∧
      ((s.forked record conflicting).filesOf l).headFile = (s.filesOf l).headFile := by
  have hfiles : (s.forked record conflicting).filesOf l = _ :=
    filesOf_withFiles s record.ledger l _
  rw [hfiles]
  by_cases hl : l = record.ledger
  · rw [if_pos hl, hl]
    exact ⟨rfl, rfl⟩
  · rw [if_neg hl]
    exact ⟨rfl, rfl⟩

/-- A kept fork is filed with its own ledger. -/
theorem forks_forked (l : LedgerId) : ((s.forked record conflicting).filesOf l).forks =
    if l = record.ledger then
      (s.filesOf l).forks.insert (toLex (record.seq, conflicting)) (forkEntry record)
    else (s.filesOf l).forks := by
  have hfiles : (s.forked record conflicting).filesOf l = _ :=
    filesOf_withFiles s record.ledger l _
  rw [hfiles]
  by_cases hl : l = record.ledger
  · rw [if_pos hl, if_pos hl, hl]
  · rw [if_neg hl, if_neg hl]

theorem logOf_forked (l : LedgerId) : (s.forked record conflicting).logOf l = s.logOf l := by
  rw [logOf, LedgerFiles.stored, (s.filesOf_forked record conflicting l).1]
  rfl

end LedgerStorage

/-- A kept fork keeps a storage sound. -/
theorem Sound.forked {s : LedgerStorage C} (h : Sound s) (record : ForkRecord C)
    (conflicting : EventId) : Sound (s.forked record conflicting) := by
  constructor
  · intro l entry hl
    obtain ⟨hevents, hhead⟩ := s.filesOf_forked record conflicting l
    rw [LedgerStorage.get?_forked] at hl
    by_cases hsame : l = record.ledger
    · rw [if_pos hsame, Option.map_eq_some_iff] at hl
      obtain ⟨entry, hentry, rfl⟩ := hl
      obtain ⟨log, hheld⟩ := h.held l entry hentry
      exact ⟨log, { hheld with
        holds := hheld.holds.of_events hevents, cached := hhead.trans hheld.cached }⟩
    · rw [if_neg hsame] at hl
      obtain ⟨log, hheld⟩ := h.held l entry hl
      exact ⟨log, { hheld with
        holds := hheld.holds.of_events hevents, cached := hhead.trans hheld.cached }⟩
  · intro l hl
    obtain ⟨hevents, hhead⟩ := s.filesOf_forked record conflicting l
    have habsent : s.index.ledgers.get? l = none := by
      rw [LedgerStorage.get?_forked] at hl
      by_cases hsame : l = record.ledger
      · rw [if_pos hsame, Option.map_eq_none_iff] at hl
        exact hl
      · rwa [if_neg hsame] at hl
    obtain ⟨hnone, hcached⟩ := h.absent l habsent
    exact ⟨hnone.of_events hevents, hhead.trans hcached⟩
  · rw [s.total_forked record conflicting fun _ => rfl]
    exact h.used
  · rw [SortedMap.length_eq_total, s.total_forked record conflicting fun _ => rfl,
      ← SortedMap.length_eq_total]
    exact h.ledgers
  · exact h.capacity

/-- However a push ends, it leaves the store sound. -/
theorem Pushed.sound {s t : LedgerStorage C} {call : PushCall C}
    {r : Outcome StoreError PushOutcome} (h : Sound s) (hpushed : Pushed s call r t) : Sound t := by
  cases hpushed with
  | fork =>
    split_ifs
    · exact h.forked _ _
    · exact h
  | stored hreaches hvalid hledger _ hroom =>
    exact h.landed (hreaches.taken_ne_nil hvalid) hreaches.applied.run hroom hledger
  | _ => exact h

/-! ## Runs of pushes -/

/-- The store after a sequence of pushes. -/
def LedgerStorage.pushes (s : LedgerStorage C) (calls : List (PushCall C)) : LedgerStorage C :=
  calls.foldl (fun s call => (s.push call).2) s

/-- What every push keeps of a sound store holds after any number of them. -/
theorem Sound.pushes_invariant {P : LedgerStorage C → Prop} {s : LedgerStorage C} (h : Sound s)
    (hinit : P s) (hstep : ∀ t call r t', Sound t → P t → Pushed t call r t' → P t')
    (calls : List (PushCall C)) : Sound (s.pushes calls) ∧ P (s.pushes calls) := by
  induction calls generalizing s with
  | nil => exact ⟨h, hinit⟩
  | cons call calls ih =>
    exact ih ((h.pushed call).sound h) (hstep s call _ _ h hinit (h.pushed call))

theorem Sound.pushes {s : LedgerStorage C} (h : Sound s) (calls : List (PushCall C)) :
    Sound (s.pushes calls) :=
  (h.pushes_invariant (P := fun _ => True) trivial (fun _ _ _ _ _ _ _ => trivial) calls).1

/-- The store of a home without a ledger. -/
def LedgerStorage.empty (setup : Setup) (identities : SortedMap IdentityId IdentityFiles)
    (endpoint : EndpointId C) : LedgerStorage C :=
  ⟨setup, .empty identities, .default, ⟨endpoint, verdicts setup.policy .default endpoint⟩⟩

/-- Opening a home without a ledger. -/
theorem openHome_empty (setup : Setup) (identities : SortedMap IdentityId IdentityFiles)
    (endpoint : EndpointId C) (clock : LedgerId → LoadClock) :
    LedgerStorage.openHome setup (.empty identities) endpoint clock =
      .ok (.empty setup identities endpoint) := rfl

/-- An empty home is sound. -/
theorem sound_empty (setup : Setup) (identities : SortedMap IdentityId IdentityFiles)
    (endpoint : EndpointId C) : Sound (LedgerStorage.empty setup identities endpoint) := by
  refine ⟨?_, ?_, rfl, Nat.zero_le _, Nat.zero_le _⟩
  · intro l entry hl
    exact absurd hl (by simp [LedgerStorage.empty, Index.default])
  · intro l _
    exact ⟨LedgerFiles.holds_none, rfl⟩

/-! ## A sample home -/

/-- The ledger of the sample events. -/
def sampleLedgerId : LedgerId :=
  (Mabel.eventIdOf Crypto.sample (sampleLedger.headD [])).toIdentity

/-- The sample ledger with another event behind its inception. -/
def sampleFork : List Bytes :=
  match buildTrustAttestation (SecretKey.sample 1)
    ⟨sampleLedgerId, 1, Mabel.eventIdOf Crypto.sample (sampleLedger.headD []), 1000,
      one_le_u64Max⟩
    ⟨.ofNat idBytes 9⟩ 5000 with
  | .ok built => [sampleLedger.headD [], built.signedEvent]
  | .error _ => []

def sampleSetup : Setup where
  root := "home"
  caps := ⟨10, 100000, 3, 8, 1000000⟩
  policy := ⟨[], false⟩
  overflowChecks := false

/-- A home that signs for the sample ledger and holds nothing yet. -/
def sampleHome : LedgerStorage Crypto.sample :=
  .empty sampleSetup (SortedMap.empty.insert sampleLedgerId ⟨true, none⟩)
    (SecretKey.sample 1).publicKey

def sampleClock : Clock := ⟨1, 2, 3, 4, 5⟩

/-- A push for the sample ledger. -/
def sampleCall (events : List Bytes) : PushCall Crypto.sample :=
  ⟨sampleLedgerId, events, ⟨none⟩, sampleClock⟩

/-! ## Stored events stay -/

/-- Every event stored before is stored still, with the same bytes at the same sequence. -/
def EventsKept (s t : LedgerStorage C) : Prop :=
  ∀ l seq bytes, (s.filesOf l).events.get? seq = some bytes →
    (t.filesOf l).events.get? seq = some bytes

/-- What is stored grows by a suffix. -/
theorem eventsKept_of_logs {s t : LedgerStorage C} (h : Sound s) (ht : Sound t)
    (hlogs : ∀ l, ∃ events, t.logOf l = s.logOf l ++ events) : EventsKept s t := by
  intro l seq bytes hget
  obtain ⟨events, hlog⟩ := hlogs l
  rw [h.holds l seq] at hget
  rw [ht.holds l seq, hlog, List.getElem?_append_left (List.getElem?_eq_some_iff.mp hget).1]
  exact hget

/-- However a push ends, what is stored of every ledger grows by a suffix. -/
theorem Pushed.logs {s t : LedgerStorage C} {call : PushCall C}
    {r : Outcome StoreError PushOutcome} (h : Sound s) (hpushed : Pushed s call r t)
    (l : LedgerId) : ∃ events, t.logOf l = s.logOf l ++ events := by
  cases hpushed with
  | fork =>
    refine ⟨[], ?_⟩
    rw [List.append_nil]
    split_ifs
    · rw [LedgerStorage.logOf_forked]
    · rfl
  | stored =>
    rw [h.logOf_landed]
    split_ifs
    · exact ⟨_, rfl⟩
    · exact ⟨[], (List.append_nil _).symm⟩
  | _ => exact ⟨[], (List.append_nil _).symm⟩

theorem Pushed.eventsKept {s t : LedgerStorage C} {call : PushCall C}
    {r : Outcome StoreError PushOutcome} (h : Sound s) (hpushed : Pushed s call r t) :
    EventsKept s t := eventsKept_of_logs h (hpushed.sound h) (hpushed.logs h)

/-! ## The store is coherent -/

/-- What is stored of one ledger and what its index entry says agree. -/
structure EntryCoherent (caps : StorageCaps) (files : LedgerFiles C) (l : LedgerId)
    (entry : Entry C) : Prop where
  /-- The event files are those of the sequences up to the head. -/
  sequences : files.events.keys = List.range (entry.headSeq + 1)
  folds : fold C files.stored = .ok (entry.state, none)
  ledger : entry.state.ledger = some l
  head : ∃ timestampMs, entry.state.head = some ⟨entry.headSeq, entry.headEvent, timestampMs⟩
  bytes : entry.bytes = (files.stored.map List.length).sum
  eventsCap : entry.eventCount ≤ caps.eventsPerLedger
  bytesCap : entry.bytes ≤ caps.bytesPerLedger

/-- The files, the index and the counters of a store agree, within the caps. -/
structure Coherent (s : LedgerStorage C) : Prop where
  entries : ∀ l entry, s.index.ledgers.get? l = some entry →
    EntryCoherent s.setup.caps (s.filesOf l) l entry
  used : s.index.storageUsed = s.index.ledgers.total Entry.bytes
  ledgersCap : s.index.ledgers.entries.length ≤ s.setup.caps.ledgers
  capacity : s.index.storageUsed ≤ s.setup.caps.storageCapacity

/-- An entry that is held is coherent with its files. -/
theorem Held.coherent {caps : StorageCaps} {files : LedgerFiles C} {l : LedgerId}
    {entry : Entry C} {log : List Bytes} (h : Held caps files l entry log) :
    EntryCoherent caps files l entry := by
  have hstored := h.holds.stored
  refine ⟨?_, ?_, h.ledger, h.head, ?_, h.countCap, h.bytesCap⟩
  · rw [h.holds.keys, h.count]
    rfl
  · rw [hstored]
    exact fold_eq_ok.mpr h.run
  · rw [hstored]
    exact h.bytes

/-- A sound storage is coherent. -/
theorem Sound.coherent {s : LedgerStorage C} (h : Sound s) : Coherent s := by
  refine ⟨?_, h.used, h.ledgers, h.capacity⟩
  intro l entry hl
  obtain ⟨log, hheld⟩ := h.held l entry hl
  exact hheld.coherent

/-- First seen wins: from an empty home on, after any pushes the store is coherent, and one
more push leaves every stored event where it is. -/
theorem store_append_only (setup : Setup) (identities : SortedMap IdentityId IdentityFiles)
    (endpoint : EndpointId C) (clock : LedgerId → LoadClock) (calls : List (PushCall C)) :
    ∃ s, LedgerStorage.openHome setup (.empty identities) endpoint clock = .ok s ∧
      Coherent (s.pushes calls) ∧
      ∀ call, EventsKept (s.pushes calls) ((s.pushes calls).push call).2 := by
  have hsound := (sound_empty setup identities endpoint).pushes calls
  refine ⟨_, openHome_empty setup identities endpoint clock, hsound.coherent, fun call => ?_⟩
  exact (hsound.pushed call).eventsKept hsound

end Mabel.Node
