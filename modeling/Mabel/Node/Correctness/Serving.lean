import Mabel.Net.Correctness.Serving
import Mabel.Node.Correctness.Additions
import Mabel.Node.Correctness.Delivery
import Mabel.Node.Correctness.Outcomes
import Mabel.Node.NodeStore

/-!
# A node serves what it stores

Between the files of a sound store and a client on a connection there are two cuts of a page, two
encodings and a count of requests. What the client is left with is the stored log from where it
asked, whatever the sizes of its events, and every page of a listing.
-/

namespace Mabel.Node

open Wire Proto Net Machine Program

variable {C : Crypto} {files : LedgerFiles C} {log : List Bytes}

/-! ## Reads of a sound store -/

/-- A page of event files is what the log holds there. -/
theorem run_readPage {store : LedgerStore C} (h : files.Holds log) {headSeq : Nat}
    (hhead : headSeq + 1 = log.length) (limit : Nat) : ∀ seq,
    run FileOp.exec (readPage store headSeq limit seq) files =
      (.ok ((log.drop seq).take limit, seq + ((log.drop seq).take limit).length), files) := by
  induction limit with
  | zero =>
    intro seq
    simp [readPage]
  | succ limit ih =>
    intro seq
    rw [readPage]
    by_cases hseq : seq ≤ headSeq
    · have hlt : seq < log.length := by omega
      rw [if_pos hseq, run_bind_of_ok (run_readEvent h (List.getElem?_eq_getElem hlt)),
        run_bind_of_ok (ih (seq + 1)), List.drop_eq_getElem_cons hlt, List.take_succ_cons]
      rw [run_pure, List.length_cons, Nat.add_assoc, Nat.add_comm 1]
    · rw [if_neg hseq, List.drop_eq_nil_of_le (by omega)]
      simp

theorem run_readEntry (s : LedgerStorage C) (ledger : LedgerId) :
    run StoreOp.exec (readEntry ledger) s = (.ok (s.index.ledgers.get? ledger), s) := rfl

variable {s : LedgerStorage C} {ledger : LedgerId}

/-- A node says of a ledger where its index ends it, and looking for it changes nothing. -/
theorem Sound.run_nodeHead (h : Sound s) (ledger : LedgerId) (clock : LoadClock) :
    run StoreOp.exec (head s.setup ledger clock) s =
      (.ok ((s.index.ledgers.get? ledger).map Entry.head), s) := by
  rw [head, run_bind_of_ok (run_readEntry s ledger)]
  cases hentry : s.index.ledgers.get? ledger with
  | some entry => rfl
  | none =>
    obtain ⟨hnone, hfile⟩ := h.absent ledger hentry
    have hload : run FileOp.exec (loadEntry (s.setup.ledger ledger) clock) (s.filesOf ledger) =
        (.ok none, s.filesOf ledger) := by
      have hread : run FileOp.exec ((s.setup.ledger ledger).readAll clock.rebuilt)
          (s.filesOf ledger) = (.ok [], s.filesOf ledger) := by
        rw [LedgerStore.readAll, LedgerStore.readFrom,
          run_bind_of_ok (run_head_empty hfile hnone clock.rebuilt)]
        rfl
      rw [loadEntry, run_bind_of_ok hread, if_pos rfl]
      rfl
    have hattempt : run StoreOp.exec ((onLedger ledger
        (loadEntry (s.setup.ledger ledger) clock)).attempt : OnNode C StorageError _) s =
          (.ok (some none), s) := by
      rw [run_attempt, run_onLedger, hload, LedgerStorage.withFiles_filesOf]
      rfl
    dsimp only
    rw [adopt, run_bind_of_ok hattempt]
    rfl

/-- A held ledger is read page by page from its log, and reading changes nothing. -/
theorem Sound.run_readFrom_held (h : Sound s) {entry : Entry C}
    (hentry : s.index.ledgers.get? ledger = some entry) (since limit : Nat) (clock : LoadClock) :
    run StoreOp.exec (readFrom s.setup ledger since limit clock) s =
      (.ok (some (logPage (s.logOf ledger) since limit)), s) := by
  have hheld := h.heldLog hentry
  have hcount : entry.headSeq + 1 = (s.logOf ledger).length := hheld.count.symm
  have hhead := h.run_nodeHead ledger clock
  rw [hentry, Option.map_some] at hhead
  have hread : run StoreOp.exec (onLedger ledger
      (readPage (s.setup.ledger ledger) entry.headSeq limit since) : OnNode C StorageError _) s =
        (.ok (((s.logOf ledger).drop since).take limit,
          since + (((s.logOf ledger).drop since).take limit).length), s) := by
    rw [run_onLedger, run_readPage hheld.holds hcount, LedgerStorage.withFiles_filesOf]
  have hpage : run StoreOp.exec (page s.setup ledger since limit clock) s =
      (.ok (some ⟨entry.report ledger s.setup.caps.forkRecords,
        ((s.logOf ledger).drop since).take limit,
        decide (since + (((s.logOf ledger).drop since).take limit).length ≤ entry.headSeq)⟩), s) := by
    rw [page, run_bind_of_ok hhead, if_neg (by simp), run_bind_of_ok (run_readEntry s ledger),
      hentry]
    dsimp only
    rw [run_bind_of_ok hread]
    rfl
  have hlast : (entry.report ledger s.setup.caps.forkRecords).summary.headSeq =
      (s.logOf ledger).length - 1 := by
    change entry.headSeq = _
    omega
  have hmore : decide (since + (((s.logOf ledger).drop since).take limit).length ≤ entry.headSeq) =
      decide (since + (((s.logOf ledger).drop since).take limit).length <
        (s.logOf ledger).length) := by
    rw [decide_eq_decide]
    omega
  rw [readFrom, run_bind_of_ok hpage, run_pure, Option.map_some, hlast, hmore]
  rfl

/-- A ledger that is not held is not found, and looking for it changes nothing. -/
theorem Sound.run_readFrom_absent (h : Sound s) (hentry : s.index.ledgers.get? ledger = none)
    (since limit : Nat) (clock : LoadClock) :
    run StoreOp.exec (readFrom s.setup ledger since limit clock) s = (.ok none, s) := by
  have hhead := h.run_nodeHead ledger clock
  rw [hentry, Option.map_none] at hhead
  have hpage : run StoreOp.exec (page s.setup ledger since limit clock) s = (.ok none, s) := by
    rw [page, run_bind_of_ok hhead, if_pos rfl]
    rfl
  rw [readFrom, run_bind_of_ok hpage]
  rfl

/-- The events of a run are events. -/
theorem accepted_of_foldRun {state : LedgerState C} (h : FoldRun log state) :
    ∀ event ∈ log, Validate.signedEvent C event = .ok () := by
  intro event hevent
  obtain ⟨k, hk⟩ := List.mem_iff_getElem?.mp hevent
  obtain ⟨_, _, -, -, ⟨st⟩, -⟩ := h.at_index hk
  exact st.opened.accepted

/-- A node keeps the log of a ledger it holds. -/
theorem Sound.keeps (h : Sound s) {entry : Entry C}
    (hentry : s.index.ledgers.get? ledger = some entry) (hcount : entry.eventCount ≤ u64Max)
    (loads : LoadClock) (clock : Clock) :
    (nodeStore loads clock).Keeps s ledger (s.logOf ledger) where
  reads since limit := by
    refine blocking_of_ok ?_
    rw [run_mapReject_eq_ok]
    exact h.run_readFrom_held hentry since limit loads
  accepted := accepted_of_foldRun (h.foldRun ledger)
  length := (h.heldLog hentry).count.trans_le hcount

/-! ## Getting a ledger -/

/-- Work on the blocking pool leaves what it leaves alone. -/
theorem blocking_snd {α : Type} (work : OnNode C StoreError α) (s : LedgerStorage C) :
    (blocking work s).2 = (run StoreOp.exec work s).2 := by
  rw [blocking]
  rcases run StoreOp.exec work s with ⟨(rejection | site) | a, t⟩ <;> rfl

/-- Answering a request leaves a sound store as it is, but for the push it carries. -/
theorem Sound.snd_answer (h : Sound s) (loads : LoadClock) (clock : Clock)
    (provenance : Provenance C) (request : Net.Request) :
    ((nodeServer loads clock).answer provenance request s).2 = s ∨
      ∃ ledger events, request = .push ledger events ∧
        ((nodeServer loads clock).answer provenance request s).2 =
          (s.push ⟨ledger, events, provenance, clock⟩).2 := by
  have hdispatch : ((nodeServer loads clock).answer provenance request s).2 =
      ((nodeServer loads clock).dispatch provenance request s).2 := by
    rw [LedgerProtocol.answer]
    rcases (nodeServer loads clock).dispatch provenance request s with
      ⟨(rejection | message) | frame, t⟩ <;> rfl
  rw [hdispatch]
  cases request with
  | head ledger =>
    left
    rw [LedgerProtocol.dispatch, framed]
    change (blocking _ s).2 = s
    rw [blocking_snd, run_mapReject, h.run_nodeHead]
  | get ledger since limit =>
    left
    rw [LedgerProtocol.dispatch, framed]
    change (blocking _ s).2 = s
    rw [blocking_snd, run_mapReject]
    cases hentry : s.index.ledgers.get? ledger with
    | none => rw [h.run_readFrom_absent hentry]
    | some entry => rw [h.run_readFrom_held hentry]
  | push ledger events =>
    right
    refine ⟨ledger, events, rfl, ?_⟩
    rw [LedgerProtocol.dispatch, framed]
    change (blocking _ s).2 = _
    rw [blocking_snd]
    rfl
  | list offset limit => exact .inl rfl
  | forks ledger offset limit => exact .inl rfl

/-- A frame leaves a sound store as it is, but for the push it carries. -/
theorem Sound.snd_serveStream (h : Sound s) (loads : LoadClock) (clock : Clock) (free : Bool)
    (provenance : Provenance C) (frame : Bytes) :
    ((nodeServer loads clock).serveStream free provenance frame s).2 = s ∨
      ∃ ledger events, parseRequest C frame = .ok (.push ledger events) ∧
        ((nodeServer loads clock).serveStream free provenance frame s).2 =
          (s.push ⟨ledger, events, provenance, clock⟩).2 := by
  rw [LedgerProtocol.serveStream]
  by_cases hsize : frame.length ≤ (nodeServer loads clock : LedgerProtocol C _).config.maxFrameBytes
  · rw [if_pos hsize, LedgerProtocol.handleFrame]
    by_cases hfree : free = true
    · rw [if_neg (by simp [hfree])]
      rcases parseRequest C frame with (rejection | site) | request
      · exact .inl rfl
      · exact .inl rfl
      · rcases h.snd_answer loads clock provenance request with hsame | ⟨ledger, events, rfl, hpush⟩
        · exact .inl hsame
        · exact .inr ⟨ledger, events, rfl, hpush⟩
    · rw [if_pos (by simpa using hfree)]
      exact .inl rfl
  · rw [if_neg hsize]
    exact .inl rfl

/-- A ledger within the fixed caps is read in at most ten pages, from wherever. -/
theorem getRequests_le {caps : StorageCaps} {entry : Entry C} {capacity : Nat}
    (h : Held caps files ledger entry log) (hcaps : caps = .fromConfig capacity) (since : Nat) :
    getRequests responseBudgetBytes (log.drop since) ≤ 10 := by
  have hsize : ∀ event ∈ log, event.length ≤ maxEventBytes := fun event hevent =>
    length_accepted (accepted_of_foldRun h.run event hevent)
  have hdropped : ∀ event ∈ log.drop since, event.length ≤ maxEventBytes := fun event hevent =>
    hsize event (List.mem_of_mem_drop hevent)
  have hcount : log.length ≤ 4096 := by
    have hcap := h.countCap
    rw [hcaps] at hcap
    rw [h.count]
    exact hcap
  have hbytes : (log.map List.length).sum ≤ 4 * 1024 * 1024 := by
    have hcap := h.bytesCap
    rw [hcaps, h.bytes] at hcap
    exact hcap
  have hsizes : maxEventBytes + 3 ≤ responseBudgetBytes := by decide
  have hrounds := pageRounds_le hsizes _ _ hdropped (Nat.lt_succ_self _)
  have hcosts : costs 1 id (log.drop since) ≤ 4 * 1024 * 1024 + 3 * 4096 := by
    refine (costs_le hdropped).trans ?_
    have hsum : ((log.drop since).map List.length).sum ≤ (log.map List.length).sum :=
      ((List.drop_sublist since log).map List.length).sum_le_sum fun _ _ => Nat.zero_le _
    rw [List.length_drop]
    omega
  have hpages : (log.drop since).length / maxGetLimit ≤ 8 := by
    refine (Nat.div_le_div_right (c := maxGetLimit) (b := 4096) ?_).trans (by decide)
    rw [List.length_drop]
    omega
  have hfills : costs 1 id (log.drop since) / (responseBudgetBytes - (maxEventBytes + 2)) ≤ 1 :=
    (Nat.div_le_div_right hcosts).trans (by decide)
  exact hrounds.trans (by omega)

/-- Under the fixed caps the count of a ledger's events is far within a word. -/
theorem Sound.eventCount_le (h : Sound s) {entry : Entry C}
    (hentry : s.index.ledgers.get? ledger = some entry) {capacity : Nat}
    (hcaps : s.setup.caps = .fromConfig capacity) : entry.eventCount ≤ u64Max := by
  have hcap := (h.heldLog hentry).countCap
  have hmax : maxEventsPerLedger ≤ u64Max := by decide
  rw [hcaps] at hcap
  exact hcap.trans hmax

/-- A node that does not hold a ledger reads nothing of it. -/
theorem Sound.nodeStore_absent (h : Sound s) (hentry : s.index.ledgers.get? ledger = none)
    (loads : LoadClock) (clock : Clock) (since limit : Nat) :
    (nodeStore loads clock).readFrom ledger since limit s = (.ok none, s) := by
  refine blocking_of_ok ?_
  rw [run_mapReject_eq_ok]
  exact h.run_readFrom_absent hentry since limit loads

/-- A client that gets a ledger the node does not hold ends up with nothing. -/
theorem Sound.getAll_absent (h : Sound s) (hentry : s.index.ledgers.get? ledger = none)
    {loads : LoadClock} {clock : Clock} {provenance : Provenance C} {rounds : Nat} {since : UInt64}
    {result : Option (List Bytes)} {t : Connection (LedgerStorage C)}
    (hrun : run ((nodeServer loads clock).peer provenance) (Client.getAll C rounds ledger since)
      ⟨s, 0⟩ = (.ok result, t)) : result = none := by
  have hmissing : run ((nodeServer loads clock).peer provenance)
      (Client.getAll C (rounds + 1) ledger since) ⟨s, 0⟩ = (.ok none, ⟨s, 0 + 1⟩) :=
    run_getAll_missing rfl (h.nodeStore_absent hentry loads clock) (by decide) _ _
  have hmore := run_getAllFrom_more 1 rounds hrun
  rw [Client.getAll, hmore] at hmissing
  exact Except.ok.inj (Prod.mk.inj hmissing).1

/-- A client that gets a ledger from a node in any reachable state, over a connection with ten
requests left, is left with exactly the stored events from where it asked, in order and once each,
however their sizes cut the pages, with nothing where the ledger is not held, and the node
unchanged. -/
theorem get_all_of_node (s : LedgerStorage C) (hreach : Reachable s) (capacity : Nat)
    (hcaps : s.setup.caps = .fromConfig capacity) (loads : LoadClock) (clock : Clock)
    (provenance : Provenance C) (ledger : LedgerId) (since : UInt64) (rounds served : Nat)
    (hserved : served + 10 ≤ maxRequestsPerConnection) :
    ∃ n ≤ 10, run ((nodeServer loads clock).peer provenance)
        (Client.getAll C (rounds + 10) ledger since) ⟨s, served⟩ =
      (.ok ((s.index.ledgers.get? ledger).map fun _ => (s.logOf ledger).drop since.toNat),
        ⟨s, served + n⟩) := by
  have hsound := hreach.sound
  cases hentry : s.index.ledgers.get? ledger with
  | none =>
    exact ⟨1, by decide,
      run_getAll_missing rfl (hsound.nodeStore_absent hentry loads clock) (by omega) _ _⟩
  | some entry =>
    have hheld := hsound.heldLog hentry
    have hpages := getRequests_le hheld hcaps since.toNat
    have hkeeps := hsound.keeps hentry (hsound.eventCount_le hentry hcaps) loads clock
    refine ⟨_, hpages, ?_⟩
    have hrun : run ((nodeServer loads clock).peer provenance)
        (Client.getAllFrom C ledger (rounds + 10) since []) ⟨s, served⟩ = _ :=
      run_getAllFrom_kept rfl hkeeps (((s.logOf ledger).drop since.toNat).length + 1) _ _ _ _
        (Nat.lt_succ_self _) (hpages.trans (Nat.le_add_left _ _)) (by omega)
    have hmet : served + pageRounds responseBudgetBytes
        (((s.logOf ledger).drop since.toNat).length + 1) ((s.logOf ledger).drop since.toNat) ≤
          maxRequestsPerConnection := (Nat.add_le_add_left hpages served).trans hserved
    rw [Client.getAll, hrun, if_pos hmet]
    rfl

/-- The sample chain, pushed, is read back whole. -/
theorem get_all_of_node_sampleChain :
    ∃ n ≤ 10, run ((nodeServer ⟨6, 7⟩ sampleClock).peer ⟨none⟩)
        (Client.getAll Crypto.sample 10 sampleLedgerId 0)
          ⟨(cappedHome.push (sampleCall sampleChain)).2, 0⟩ =
      (.ok (some sampleChain), ⟨(cappedHome.push (sampleCall sampleChain)).2, n⟩) := by
  obtain ⟨n, hn, hrun⟩ := get_all_of_node (cappedHome.push (sampleCall sampleChain)).2
    (.pushed _ reachable_cappedHome) 2147483648 (by decide +kernel) ⟨6, 7⟩ sampleClock ⟨none⟩
    sampleLedgerId 0 0 0 (by decide)
  have hstored : (((cappedHome.push (sampleCall sampleChain)).2.index.ledgers.get?
      sampleLedgerId).map fun _ => ((cappedHome.push (sampleCall sampleChain)).2.logOf
        sampleLedgerId).drop (0 : UInt64).toNat) = some sampleChain := by decide +kernel
  rw [hstored, Nat.zero_add, Nat.zero_add] at hrun
  exact ⟨n, hn, hrun⟩

end Mabel.Node
