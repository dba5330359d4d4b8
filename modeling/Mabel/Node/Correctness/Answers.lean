import Mabel.Net.Correctness.Answers
import Mabel.Node.Correctness.Reloading
import Mabel.Node.Correctness.Replicas

/-!
# What nodes answer is read

A node under the fixed caps keeps to the bounds of the wire: what it lists comes from verified
events, what it refuses names a sequence of what it was sent or holds, and its times are those its
clock read. So whatever frames reach it, every answer is one that a client reads.
-/

namespace Mabel.Node

open Wire Proto Net Machine Program

variable {C : Crypto} {s : LedgerStorage C} {l : LedgerId} {capacity : Nat}

/-! ## Times -/

/-- The times of a push are ones that the wire carries. -/
structure Clock.Dated (clock : Clock) : Prop where
  noted : clock.noted ≤ maxTimestampMs
  written : clock.written ≤ maxTimestampMs
  observed : clock.observed ≤ maxTimestampMs

/-- The times of an index entry are ones that the wire carries. -/
structure Entry.Dated (entry : Entry C) : Prop where
  firstSeen : entry.firstSeenMs ≤ maxTimestampMs
  updated : entry.updatedMs ≤ maxTimestampMs
  observed : ∀ record ∈ entry.forks, record.observedMs ≤ maxTimestampMs

/-- The times a node keeps are ones that the wire carries. -/
structure LedgerStorage.Dated (s : LedgerStorage C) : Prop where
  entry : ∀ l entry, s.index.ledgers.get? l = some entry → entry.Dated
  noted : ∀ l noted, (s.filesOf l).metaFile = some noted → noted.firstSeenMs ≤ maxTimestampMs

/-- A kept fork leaves every ledger's note. -/
theorem LedgerStorage.metaFile_forked (s : LedgerStorage C) (record : ForkRecord C)
    (conflicting : EventId) (l : LedgerId) :
    ((s.forked record conflicting).filesOf l).metaFile = (s.filesOf l).metaFile := by
  have hfiles : (s.forked record conflicting).filesOf l = _ :=
    filesOf_withFiles s record.ledger l _
  rw [hfiles]
  by_cases hl : l = record.ledger
  · rw [if_pos hl, hl]
  · rw [if_neg hl]

/-- A fork that is recorded is dated by the clock. -/
theorem LedgerStorage.Dated.forked (h : s.Dated) {record : ForkRecord C}
    (hrecord : record.observedMs ≤ maxTimestampMs) (conflicting : EventId) :
    (s.forked record conflicting).Dated := by
  refine ⟨fun l entry hentry => ?_, fun l noted hnoted => ?_⟩
  · rw [LedgerStorage.get?_forked] at hentry
    split_ifs at hentry
    · obtain ⟨held, hheld, rfl⟩ := Option.map_eq_some_iff.mp hentry
      have hdated := h.entry l held hheld
      refine ⟨hdated.firstSeen, hdated.updated, fun r hr => ?_⟩
      rcases List.mem_cons.mp ((insertFork_perm held.forks record).mem_iff.mp hr) with rfl | hr
      · exact hrecord
      · exact hdated.observed r hr
    · exact h.entry l entry hentry
  · rw [LedgerStorage.metaFile_forked] at hnoted
    exact h.noted l noted hnoted

/-- A run that lands is dated by the clock. -/
theorem LedgerStorage.Dated.landed (h : s.Dated) {call : PushCall C} (hclock : call.clock.Dated)
    (state : LedgerState C) (events : List Bytes) : (s.landed call state events).Dated := by
  have hnotedBy : s.index.ledgers.get? call.ledger = none →
      (s.notedBy call).firstSeenMs ≤ maxTimestampMs := by
    intro habsent
    rw [LedgerStorage.notedBy, habsent, if_neg (by simp)]
    cases hmeta : (s.filesOf call.ledger).metaFile with
    | none => exact hclock.noted
    | some noted => exact h.noted _ noted hmeta
  refine ⟨fun l entry hentry => ?_, fun l noted hnoted => ?_⟩
  · rw [LedgerStorage.get?_landed] at hentry
    split_ifs at hentry
    · obtain rfl := Option.some.inj hentry
      unfold LedgerStorage.entryAfter
      cases hheld : s.index.ledgers.get? call.ledger with
      | none => exact ⟨hnotedBy hheld, hclock.written, by simp⟩
      | some held =>
        have hdated := h.entry _ held hheld
        exact ⟨hdated.firstSeen, hclock.written, hdated.observed⟩
    · exact h.entry l entry hentry
  · rw [LedgerStorage.filesOf_landed] at hnoted
    split_ifs at hnoted
    · change (if (s.index.ledgers.get? call.ledger).isSome then (s.filesOf call.ledger).metaFile
        else some (s.notedBy call)) = some noted at hnoted
      split_ifs at hnoted with hheld
      · exact h.noted _ noted hnoted
      · obtain rfl := Option.some.inj hnoted
        exact hnotedBy (by simpa using hheld)
    · exact h.noted l noted hnoted

/-- A push keeps the times within what the wire carries. -/
theorem LedgerStorage.Dated.pushed (h : s.Dated) {call : PushCall C} (hclock : call.clock.Dated)
    {r : Outcome StoreError PushOutcome} {t : LedgerStorage C} (hpushed : Pushed s call r t) :
    t.Dated := by
  cases hpushed with
  | fork =>
    split_ifs
    · exact h.forked hclock.observed _
    · exact h
  | stored => exact h.landed hclock _ _
  | _ => exact h

/-! ## What is held -/

/-- A held ledger declares a kind. -/
theorem Held.declaredKind_ne {caps : StorageCaps} {files : LedgerFiles C} {entry : Entry C}
    {log : List Bytes} (h : Held caps files l entry log) : entry.declaredKind ≠ .kindUnspecified := by
  obtain ⟨timestampMs, hhead⟩ := h.head
  obtain ⟨first, rest, rfl, ⟨founded⟩⟩ := h.run.founded (by simp [hhead])
  have hvalid : Inception.Valid C 2 founded.inception := founded.opened.payloadValid
  obtain ⟨number, hnumber, hrange⟩ := hvalid.kind
  have hkind := founded.kindOf
  rw [Entry.declaredKind, founded.declaredKind_eq, Option.getD_some]
  intro hnone
  rw [hnone, hnumber] at hkind
  obtain rfl | rfl | rfl | rfl : number = 1 ∨ number = 2 ∨ number = 3 ∨ number = 4 := by omega
  all_goals simp [DeclaredKind.tryFrom] at hkind

/-- Evidence is within the bounds of the wire. -/
theorem Evidence.bounded {log : List Bytes} {record : ForkRecord C} (h : Evidence log l record)
    {state : LedgerState C} (hrun : FoldRun log state) (hcount : log.length ≤ u64Max)
    (hobserved : record.observedMs ≤ maxTimestampMs) : record.unread.Bounded C := by
  obtain ⟨shared, fork, hshared, hfork, -, -, -⟩ := h.valid
  have hforks := validateForkRecord_eq_ok.mp hfork
  obtain ⟨_, happly⟩ := hforks.conflictingApplies
  obtain ⟨st⟩ := apply_iff.mp happly
  have hlt := (List.getElem?_eq_some_iff.mp h.kept).1
  have hpos : record.seq ≠ 0 := by
    intro hzero
    rw [hzero, List.take_zero] at hshared
    obtain rfl : shared = LedgerState.default := (fold_eq_ok.mp hshared).eq_of_nil
    have hledger := hforks.ledger
    simp [LedgerState.default] at hledger
  exact ⟨⟨Nat.one_le_iff_ne_zero.mpr hpos, hlt.le.trans hcount⟩,
    accepted_of_foldRun hrun _ (List.mem_of_getElem? h.kept), st.opened.accepted, hobserved⟩

/-! ## What a push answers -/

/-- A refusal that the wire can carry. -/
def Refused (e : Fault StoreError) : Prop :=
  ∀ rejection, e = .reject (.rejected rejection) → rejection.Proper

/-- A proper rejection is a refusal. -/
theorem refused_of_proper {rejection : Rejection} (h : rejection.Proper) :
    Refused (.reject (.rejected rejection)) := by
  intro other hother
  obtain rfl := StoreError.rejected.inj (Fault.reject.inj hother)
  exact h

theorem refused_panic (site : String) : Refused (.panic site) := by
  intro rejection hrejection
  simp at hrejection

theorem refused_malformed {seq : Nat} (h : seq ≤ u64Max) (msg : String) :
    Refused (.reject (malformed seq msg)) := refused_of_proper ⟨by simp, h⟩

theorem refused_invalid {seq : Nat} (h : seq ≤ u64Max) (msg : String) :
    Refused (.reject (.invalid seq msg)) := refused_of_proper ⟨by simp, h⟩

/-- A push that is not admitted is refused. -/
theorem refused_refusal (ledger : LedgerId) (post : LedgerState C) (entries : List WitnessForEntry) :
    Refused (.reject (refusal ledger post entries)) := by
  rw [refusal]
  split
  · exact refused_of_proper (Rejection.proper_new (by simp) _)
  · split
    · exact refused_of_proper (Rejection.proper_new (by simp) _)
    · exact refused_of_proper (Rejection.proper_new (by simp) _)

/-- An accepted event declares a `u64`. -/
theorem seqOf_le {event : Bytes} (haccepted : Validate.signedEvent C event = .ok ()) {seq : Nat}
    (h : seqOf event = .ok seq) : seq ≤ u64Max := by
  obtain ⟨signed, body, payload, hopened⟩ := Validate.signedEvent_iff_opened.mp haccepted
  have hseq := (seqOf_eq_ok.mp h).symm.trans (signedEventSeq_opened hopened)
  obtain rfl := Option.some.inj hseq
  exact hopened.valid.seq

theorem stops_seqOf (event : Bytes) : Outcome.Stops Refused (seqOf event) :=
  .orReject (refused_malformed (Nat.zero_le _) _)

/-- The contiguity loop refuses at a sequence that an event declares. -/
theorem stops_checkRun {checks : Bool} {first : Nat} (events : List Bytes) : ∀ offset : Nat,
    (∀ event ∈ events, Validate.signedEvent C event = .ok ()) →
    Outcome.Stops Refused (checkRun checks first offset events) := by
  induction events with
  | nil => exact fun _ _ => .ok
  | cons event events ih =>
    intro offset haccepted
    obtain ⟨hevent, hrest⟩ := List.forall_mem_cons.mp haccepted
    rw [checkRun]
    refine .bind (fun e he => ?_) fun want _ => .bind (stops_seqOf event) fun seq hseq =>
      .bind (.rejectIf fun _ => refused_malformed (seqOf_le hevent hseq) _) fun _ _ =>
        ih (offset + 1) hrest
    obtain ⟨site, rfl⟩ := addU64_error he
    exact refused_panic site

/-- Under the fixed caps a ledger's events are few. -/
theorem Sound.countOf_le (h : Sound s) (hcaps : s.setup.caps = .fromConfig capacity)
    (l : LedgerId) : s.countOf l ≤ u64Max := by
  cases hentry : s.index.ledgers.get? l with
  | none =>
    rw [LedgerStorage.countOf, hentry]
    exact Nat.zero_le _
  | some entry =>
    rw [LedgerStorage.countOf, hentry]
    exact h.eventCount_le hentry hcaps

/-- Under the fixed caps a ledger that grew is still short. -/
theorem Room.countOf_le (hcaps : s.setup.caps = .fromConfig capacity) {n bytes : Nat}
    (hroom : Room s.setup.caps s.index l n bytes) : s.countOf l + n ≤ u64Max := by
  have hcount := hroom.count
  have hmax : maxEventsPerLedger ≤ u64Max := by decide
  rw [hcaps] at hcount
  exact hcount.trans hmax

section Pushes

variable {call : PushCall C} {r : Outcome StoreError PushOutcome} {t : LedgerStorage C}

/-- A run that is numbered is refused at a sequence of it or of what is held. -/
theorem Pushed.stops_of_numbered (hpushed : Pushed s call r t) (h : Sound s)
    (hcaps : s.setup.caps = .fromConfig capacity)
    (haccepted : ∀ event ∈ call.events, Validate.signedEvent C event = .ok ())
    (hrun : ∃ first, Numbered s.setup.overflowChecks first call.events) :
    Outcome.Stops Refused r := by
  have hcount := h.countOf_le hcaps call.ledger
  have hstored : ∀ {seq : Nat} {kept : Bytes}, (s.logOf call.ledger)[seq]? = some kept →
      seq ≤ u64Max := by
    intro seq kept hkept
    have hlt := (List.getElem?_eq_some_iff.mp hkept).1
    rw [h.length_logOf] at hlt
    exact hlt.le.trans hcount
  obtain ⟨start, hstart⟩ := hrun
  cases hpushed with
  | nothing => exact .ok
  | nothingHeld => exact .reject (refused_refusal _ _ _)
  | unnumbered _ hrun => exact absurd hstart (hrun start)
  | overflow _ hrun => exact absurd hstart (hrun start)
  | gap hrun =>
    obtain ⟨event, rest, hevents, hseq, -⟩ := hrun
    have hevent := haccepted event (by rw [hevents]; exact List.mem_cons_self)
    exact .reject (refused_malformed (seqOf_le hevent hseq) _)
  | known => exact .ok
  | divergent hdiffers => exact .reject (refused_invalid (hstored hdiffers.kept_eq) _)
  | fork hdiffers =>
    exact .reject (refused_of_proper ⟨by simp, hstored hdiffers.kept_eq⟩)
  | stops hreaches => exact .reject (refused_invalid (hreaches.ends.trans_le hcount) _)
  | foreign => exact .reject (refused_invalid (Nat.zero_le _) _)
  | notAdmitted => exact .reject (refused_refusal _ _ _)
  | tooLarge => exact .reject (refused_of_proper (Rejection.proper_new (by simp) _))
  | @stored first fresh state valid violation hreaches hvalid hledger htakes hroom =>
    cases hviolation : violation with
    | none => exact .ok
    | some reason =>
      have hends := hreaches.ends
      have hle : valid ≤ (call.events.drop fresh).length := hreaches.applied.valid_le
      have hgrown := Room.countOf_le hcaps hroom
      rw [List.length_take, Nat.min_eq_left hle] at hgrown
      exact .reject (refused_invalid (by omega) _)

/-- A run that is not numbered is refused at a sequence of it. -/
theorem stops_push_unnumbered (hne : call.events ≠ [])
    (haccepted : ∀ event ∈ call.events, Validate.signedEvent C event = .ok ())
    (hrun : ∀ first, ¬ Numbered s.setup.overflowChecks first call.events) :
    Outcome.Stops Refused (s.push call).1 := by
  have hpush : s.push call = run StoreOp.exec (pushLocked s.setup call) s := by
    rw [LedgerStorage.push, push, Shared.run_lockIndex_bind, run_andFinally]
    rfl
  rw [hpush]
  suffices hlocked : (pushLocked s.setup call).Ensures StoreOp.exec s
      fun r _ => Outcome.Stops Refused r from hlocked
  refine Ensures.after (a := s.index) (t := s) rfl ?_
  cases hevents : call.events with
  | nil => exact absurd hevents hne
  | cons event rest =>
    dsimp only
    refine Ensures.lift_bind (fun first hfirst => ?_) fun e he => ?_
    · rw [← hevents]
      refine Ensures.lift_bind (fun _ hcheck => ?_) fun e he => ?_
      · exact absurd ⟨event, rest, hevents, hfirst, hcheck⟩ (hrun first)
      · intro e' he'
        obtain rfl := Except.error.inj he'
        exact stops_checkRun call.events 0 haccepted _ he
    · intro e' he'
      obtain rfl := Except.error.inj he'
      exact stops_seqOf event _ he

/-- A push of accepted events that is refused is refused in words that the wire carries. -/
theorem Sound.stops_push (h : Sound s) (hcaps : s.setup.caps = .fromConfig capacity)
    (hne : call.events ≠ [])
    (haccepted : ∀ event ∈ call.events, Validate.signedEvent C event = .ok ()) :
    Outcome.Stops Refused (s.push call).1 := by
  by_cases hrun : ∃ first, Numbered s.setup.overflowChecks first call.events
  · exact (h.pushed call).stops_of_numbered h hcaps haccepted hrun
  · exact stops_push_unnumbered hne haccepted (not_exists.mp hrun)

/-- What a push stored is counted within the bounds of the wire. -/
theorem Pushed.sendable {outcome : PushOutcome} (hpushed : Pushed s call (.ok outcome) t)
    (h : Sound s) (hcaps : s.setup.caps = .fromConfig capacity) :
    (Response.accepted (C := C) outcome).Sendable := by
  have hcount := h.countOf_le hcaps call.ledger
  have hwrap : ∀ n : Nat, n % 2 ^ 32 ≤ u32Max := fun n =>
    Nat.le_pred_of_lt (Nat.mod_lt n (by decide))
  generalize hr : (.ok outcome : Outcome StoreError PushOutcome) = r at hpushed
  cases hpushed with
  | nothing =>
    obtain rfl := Except.ok.inj hr
    exact ⟨(Nat.sub_le _ _).trans hcount, Nat.zero_le _⟩
  | known =>
    obtain rfl := Except.ok.inj hr
    exact ⟨(Nat.sub_le _ _).trans hcount, Nat.zero_le _⟩
  | @stored first fresh state valid violation hreaches hvalid hledger htakes hroom =>
    cases hviolation : violation with
    | none =>
      rw [hviolation] at hr
      obtain rfl := Except.ok.inj hr
      exact ⟨(Nat.add_le_add_left (Nat.sub_le _ _) _).trans (Room.countOf_le hcaps hroom), hwrap _⟩
    | some reason =>
      rw [hviolation] at hr
      simp [answer, Outcome.reject] at hr
  | _ => simp [Outcome.reject, Outcome.panic] at hr

end Pushes

/-! ## Nodes within the bounds of the wire -/

/-- A node under the fixed caps that was only ever pushed to, at times that the wire carries. -/
structure LedgerStorage.Bounded (s : LedgerStorage C) : Prop where
  reachable : Reachable s
  capped : ∃ capacity, s.setup.caps = .fromConfig capacity
  dated : s.Dated

namespace LedgerStorage.Bounded

/-- A push by a dated clock keeps the storage bounded. -/
theorem pushed (h : s.Bounded) (call : PushCall C) (hclock : call.clock.Dated) :
    (s.push call).2.Bounded := by
  have hdone := h.reachable.sound.pushed call
  obtain ⟨capacity, hcaps⟩ := h.capped
  exact ⟨.pushed call h.reachable, ⟨capacity, hdone.setup_eq ▸ hcaps⟩, h.dated.pushed hclock hdone⟩

/-- The head's number is one the wire carries. -/
theorem headSeq_le (h : s.Bounded) {entry : Entry C}
    (hentry : s.index.ledgers.get? l = some entry) : entry.eventCount ≤ u64Max := by
  obtain ⟨capacity, hcaps⟩ := h.capped
  exact h.reachable.sound.eventCount_le hentry hcaps

/-- The row of a held ledger is within the bounds of the wire. -/
theorem summary (h : s.Bounded) {entry : Entry C}
    (hentry : s.index.ledgers.get? l = some entry) (cap : UInt32) :
    (entry.summary l cap).Bounded := by
  have hcount := h.headSeq_le hentry
  have hdated := h.dated.entry l entry hentry
  exact ⟨(h.reachable.sound.heldLog hentry).declaredKind_ne, (Nat.le_succ _).trans hcount, hcount,
    hdated.firstSeen, hdated.updated, Nat.le_pred_of_lt (Nat.mod_lt _ (by decide))⟩

/-- The fork records of a held ledger are within the bounds of the wire. -/
theorem forkRecord (h : s.Bounded) {entry : Entry C}
    (hentry : s.index.ledgers.get? l = some entry) {record : ForkRecord C}
    (hrecord : record ∈ entry.forks) : record.unread.Bounded C := by
  have hevidence := (h.reachable.forksSound l entry hentry).evidence record hrecord
  have hheld := h.reachable.sound.heldLog hentry
  exact hevidence.bounded hheld.run (hheld.count.trans_le (h.headSeq_le hentry))
    ((h.dated.entry l entry hentry).observed record hrecord)

/-- The fork records that a node lists are evidence against what it stores. -/
theorem evidence (h : s.Bounded) {ledger : Option LedgerId} {record : ForkRecord C}
    (hrecord : record ∈ s.forkRecords ledger) :
    Evidence (s.logOf record.ledger) record.ledger record := by
  obtain ⟨⟨held, entry⟩, hmem, hforks⟩ := List.mem_flatMap.mp hrecord
  have hentry := SortedMap.get?_eq_some.mpr (List.mem_of_mem_filter hmem)
  have hevidence := (h.reachable.forksSound held entry hentry).evidence record hforks
  obtain rfl : record.ledger = held := hevidence.ledger
  exact hevidence

/-- Every summary served is bounded. -/
theorem mem_summaries (h : s.Bounded) {row : LedgerSummary} (hrow : row ∈ s.summaries) :
    row.Bounded := by
  obtain ⟨⟨ledger, entry⟩, hentry, rfl⟩ := List.mem_map.mp hrow
  exact h.summary (SortedMap.get?_eq_some.mpr (List.mem_of_mem_filter hentry)) _

/-- Every fork record served is bounded. -/
theorem mem_forkRecords (h : s.Bounded) {ledger : Option LedgerId} {record : ForkRecord C}
    (hrecord : record ∈ s.forkRecords ledger) : record.unread.Bounded C := by
  obtain ⟨⟨held, entry⟩, hentry, hrecord⟩ := List.mem_flatMap.mp hrecord
  exact h.forkRecord (SortedMap.get?_eq_some.mpr (List.mem_of_mem_filter hentry)) hrecord

end LedgerStorage.Bounded

/-- A page of a listing is no longer than its limit and holds what is listed. -/
theorem pageOf_spec {α : Type} (items : List α) (offset limit : Nat) :
    (pageOf items offset limit).items.length ≤ limit ∧
      ∀ item ∈ (pageOf items offset limit).items, item ∈ items :=
  ⟨List.length_take_le _ _, fun _ hitem => List.mem_of_mem_drop (List.mem_of_mem_take hitem)⟩

section Blocking

variable {α : Type} {work : OnNode C StoreError α}

/-- Work on the blocking pool answers as it does alone. -/
theorem blocking_fst_eq_ok {a : α} :
    (blocking work s).1 = .ok a ↔ (run StoreOp.exec work s).1 = .ok a := by
  rw [blocking]
  rcases run StoreOp.exec work s with ⟨(rejection | site) | a, t⟩ <;> simp

/-- Work on the blocking pool is rejected as it is alone. -/
theorem blocking_fst_eq_rejected {rejection : Rejection} :
    (blocking work s).1 = .error (.rejected rejection) ↔
      (run StoreOp.exec work s).1 = .error (.reject (.rejected rejection)) := by
  rw [blocking]
  rcases run StoreOp.exec work s with ⟨(rejection | site) | a, t⟩ <;> simp

end Blocking

/-- A fork record is borne out by what a node stores. -/
def LedgerStorage.BornOut (s : LedgerStorage C) (record : ForkRecord C) : Prop :=
  Evidence (s.logOf record.ledger) record.ledger record

/-- A node within the bounds of the wire answers within them and stays in them. -/
theorem nodeStore_proper (loads : LoadClock) {clock : Clock} (hclock : clock.Dated) :
    (nodeStore loads clock : Store C (LedgerStorage C)).Proper LedgerStorage.Bounded
      LedgerStorage.BornOut where
  head := by
    intro s hs ledger
    have hrun : (nodeStore loads clock).head ledger s =
        (.ok ((s.index.ledgers.get? ledger).map Entry.head), s) := by
      refine blocking_of_ok ?_
      rw [run_mapReject_eq_ok]
      exact hs.reachable.sound.run_nodeHead ledger loads
    rw [hrun]
    refine ⟨hs, fun answer hanswer value hvalue => ?_, by simp⟩
    obtain rfl := Except.ok.inj hanswer
    obtain ⟨entry, hentry, rfl⟩ := Option.map_eq_some_iff.mp hvalue
    exact ⟨(Nat.le_succ _).trans (hs.headSeq_le hentry), (hs.dated.entry _ entry hentry).updated⟩
  readFrom := by
    intro s hs ledger since limit hlimit
    have hsound := hs.reachable.sound
    cases hentry : s.index.ledgers.get? ledger with
    | none =>
      rw [hsound.nodeStore_absent hentry]
      refine ⟨hs, fun answer hanswer value hvalue => ?_, by simp⟩
      obtain rfl := Except.ok.inj hanswer
      simp at hvalue
    | some entry =>
      have hkeeps : (nodeServer loads clock).store.Keeps s ledger (s.logOf ledger) :=
        hsound.keeps hentry (hs.headSeq_le hentry) loads clock
      rw [show (nodeStore loads clock).readFrom ledger since limit s = _ from
        hkeeps.reads since limit]
      refine ⟨hs, fun answer hanswer value hvalue => ?_, by simp⟩
      obtain rfl := Except.ok.inj hanswer
      obtain rfl := Option.some.inj hvalue
      exact hkeeps.served since hlimit
  push := by
    intro s hs ledger events provenance hevents
    let call : PushCall C := ⟨ledger, events, provenance, clock⟩
    have hsound := hs.reachable.sound
    obtain ⟨capacity, hcaps⟩ := hs.capped
    have hne : call.events ≠ [] := List.length_pos_iff.mp hevents.1.1
    refine ⟨?_, fun outcome houtcome => ?_, fun rejection hrejection => ?_⟩
    · change (blocking _ s).2.Bounded
      rw [blocking_snd]
      exact hs.pushed call hclock
    · have hpushed := hsound.pushed call
      rw [show (s.push call).1 = .ok outcome from blocking_fst_eq_ok.mp houtcome] at hpushed
      exact hpushed.sendable hsound hcaps
    · exact hsound.stops_push hcaps hne hevents.1.2.2 _ (blocking_fst_eq_rejected.mp hrejection)
        rejection rfl
  list := by
    intro s hs offset limit hlimit
    obtain ⟨hcount, hitems⟩ := pageOf_spec s.summaries offset limit
    refine ⟨hs, fun page hpage => ?_, by simp [nodeStore]⟩
    obtain rfl := Except.ok.inj hpage
    exact ⟨hcount.trans hlimit, fun row hrow => hs.mem_summaries (hitems row hrow)⟩
  forks := by
    intro s hs ledger offset limit hlimit
    obtain ⟨hcount, hitems⟩ := pageOf_spec (s.forkRecords ledger) offset limit
    refine ⟨hs, fun page hpage => ?_, by simp [nodeStore]⟩
    obtain rfl := Except.ok.inj hpage
    exact ⟨⟨hcount.trans hlimit, fun record hrecord => hs.mem_forkRecords (hitems record hrecord)⟩,
      fun record hrecord => hs.evidence (hitems record hrecord)⟩

section Networks

variable {ι : Type} [DecidableEq ι]

/-- A frame keeps every node within the bounds of the wire. -/
theorem Network.bounded_deliver {net : Network ι C} (h : ∀ i, (net.nodes i).Bounded)
    {arrival : Arrival ι C} (hclock : arrival.clock.Dated) :
    ∀ i, ((net.deliver arrival).2.nodes i).Bounded := by
  intro i
  have hproper : (nodeServer arrival.loads arrival.clock : LedgerProtocol C _).store.Proper
      LedgerStorage.Bounded LedgerStorage.BornOut := nodeStore_proper arrival.loads hclock
  obtain ⟨hkeeps, -⟩ := hproper.serveStream le_rfl (h arrival.node) arrival.free
    arrival.provenance arrival.frame
  by_cases hi : i = arrival.node
  · subst hi
    simpa [Network.deliver] using hkeeps
  · simpa [Network.deliver, Function.update_of_ne hi] using h i

/-- The network once frames have reached their nodes, one after another. -/
def Network.delivered (net : Network ι C) (arrivals : List (Arrival ι C)) : Network ι C :=
  arrivals.foldl (fun net arrival => (net.deliver arrival).2) net

/-- Every node of a network stays bounded under dated deliveries. -/
theorem Network.bounded_delivered (arrivals : List (Arrival ι C)) :
    ∀ {net : Network ι C}, (∀ i, (net.nodes i).Bounded) →
      (∀ arrival ∈ arrivals, arrival.clock.Dated) →
      ∀ i, ((net.delivered arrivals).nodes i).Bounded := by
  induction arrivals with
  | nil => exact fun h _ => h
  | cons arrival arrivals ih =>
    intro net h hclocks
    obtain ⟨hclock, hrest⟩ := List.forall_mem_cons.mp hclocks
    exact ih (Network.bounded_deliver h hclock) hrest

/-- Whatever frames reached whichever nodes, the next one, whatever it is and wherever it arrives,
gets an answer that fits a frame and that a client reads as what the node answers. Where that is a
page of forks, each record on it is evidence against what the node stores. -/
theorem answers_are_read (net : Network ι C) (hnet : ∀ i, (net.nodes i).Bounded)
    (arrivals : List (Arrival ι C)) (hclocks : ∀ arrival ∈ arrivals, arrival.clock.Dated)
    (next : Arrival ι C) (hclock : next.clock.Dated) :
    ∃ answer got, ((net.delivered arrivals).deliver next).1 = some (answer : Response C).encode ∧
      answer.encode.length ≤ maxFrameBytes ∧ parseResponse C answer.encode = .ok got ∧
      answer.Received got ∧ answer.Attests ((net.delivered arrivals).nodes next.node).BornOut := by
  have hproper : (nodeServer next.loads next.clock : LedgerProtocol C _).store.Proper
      LedgerStorage.Bounded LedgerStorage.BornOut := nodeStore_proper next.loads hclock
  obtain ⟨-, answer, hanswer, hsendable, hattests⟩ := hproper.serveStream le_rfl
    (Network.bounded_delivered arrivals hnet hclocks next.node) next.free next.provenance next.frame
  obtain ⟨hsize, got, hread, hreceived⟩ := hsendable.read
  exact ⟨answer, got, hanswer, hsize, hread, hreceived, hattests⟩

end Networks

/-- A home under the fixed caps that holds nothing yet. -/
theorem bounded_empty {setup : Setup} (hcaps : ∃ capacity, setup.caps = .fromConfig capacity)
    (identities : SortedMap IdentityId IdentityFiles) (endpoint : EndpointId C) :
    (LedgerStorage.empty setup identities endpoint).Bounded where
  reachable := .opened (openHome_empty setup identities endpoint fun _ => ⟨6, 7⟩)
  capped := hcaps
  dated := by
    refine ⟨fun l entry hentry => ?_, fun l noted hnoted => ?_⟩
    · simp [LedgerStorage.empty, Index.default] at hentry
    · simp [LedgerStorage.empty, LedgerStorage.filesOf, NodeHome.empty,
        LedgerFiles.none] at hnoted

theorem bounded_cappedHome : cappedHome.Bounded := bounded_empty ⟨2147483648, rfl⟩ _ _

theorem dated_sampleClock : sampleClock.Dated := ⟨by decide, by decide, by decide⟩

/-- A chain is pushed to a node, and then a fork of it. -/
def forkArrivals : List (Arrival Bool Crypto.sample) :=
  [sampleArrival, { sampleArrival with frame := pushRequest sampleLedgerId sampleFork }]

/-- The node is asked which forks it saw. -/
def forksArrival : Arrival Bool Crypto.sample :=
  { sampleArrival with frame := (Request.forks none 0 0).encode }

/-- The node shows the fork it saw, and its record is evidence against the chain it kept. -/
theorem answers_are_read_sampleNetwork : ∃ page record,
    ((sampleNetwork.delivered forkArrivals).deliver forksArrival).1 =
      some (Response.forks page : Response Crypto.sample).encode ∧ page.items = [record] ∧
    record.kept ≠ record.conflicting ∧
    Evidence (((sampleNetwork.delivered forkArrivals).nodes true).logOf record.ledger) record.ledger
      record := by
  have hclocks : ∀ arrival ∈ forkArrivals, arrival.clock.Dated := by
    intro arrival harrival
    rcases List.mem_pair.mp harrival with rfl | rfl <;> exact dated_sampleClock
  obtain ⟨answer, got, hanswer, -, hread, hreceived, hattests⟩ := answers_are_read sampleNetwork
    (fun _ => bounded_cappedHome) forkArrivals hclocks forksArrival dated_sampleClock
  have hshown : ∃ page record, ((sampleNetwork.delivered forkArrivals).deliver forksArrival).1.map
      (parseResponse Crypto.sample) = some (.ok (.forks page)) ∧ page.items = [record] ∧
      record.kept ≠ record.conflicting := by
    refine ⟨⟨((sampleNetwork.delivered forkArrivals).nodes true).forkRecords none, false⟩,
      ⟨sampleLedgerId, 1, sampleChain.getLastD [], sampleFork.getLastD [], 5, none⟩, ?_⟩
    decide +kernel
  obtain ⟨page, record, hforks, hitems, hdiffer⟩ := hshown
  rw [hanswer, Option.map_some, hread] at hforks
  obtain rfl := Except.ok.inj (Option.some.inj hforks)
  cases answer with
  | forks sent =>
    obtain rfl := Response.forks.inj hreceived
    exact ⟨page, record, hanswer, hitems, hdiffer, hattests page rfl record (by simp [hitems])⟩
  | _ => simp [Response.Received] at hreceived

end Mabel.Node
