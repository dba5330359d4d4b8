import Mabel.Core.Paging
import Mabel.Net.Correctness.Listing
import Mabel.Node.Correctness.Answers
import Mabel.Node.Correctness.Reloading

/-!
# Listings of a node, read to their end

A client that pages through a listing of a node, each page from as many items on as it has, gathers
the listing, whatever limits it asks for and wherever a page is cut. Fork records that a node serves
verify against what the same node serves of their ledgers, while the connection has requests left.
-/

namespace Mabel.Node

open Wire Proto Net Program Paging

variable {C : Crypto} {α : Type} {s : LedgerStorage C}

/-! ## Pages -/

/-- What of a page of a listing is sent: a first part of what follows its offset, empty only where
nothing follows, and whether more comes after it. -/
theorem pageOf_cut (all : List α) (offset : Nat) {limit : Nat} (hlimit : 0 < limit) (budget : Nat)
    (encode : α → Bytes) :
    ((pageOf all offset limit).cut budget encode).items <+: all.drop offset ∧
      (((pageOf all offset limit).cut budget encode).items = [] → all.drop offset = []) ∧
      ((pageOf all offset limit).cut budget encode).more =
        decide (offset + ((pageOf all offset limit).cut budget encode).items.length < all.length) := by
  obtain ⟨hpart, hempty, hmore⟩ := (pageOf all offset limit).cut_spec budget encode
  have hitems : (pageOf all offset limit).items = (all.drop offset).take limit := rfl
  refine ⟨hpart.trans (List.take_prefix _ _), fun hnone => ?_, ?_⟩
  · have htake := hempty hnone
    rw [hitems, List.take_eq_nil_iff] at htake
    exact htake.resolve_left hlimit.ne'
  · have hsent := hpart.length_le
    have htaken : (pageOf all offset limit).items.length ≤ all.length - offset := by
      rw [hitems, List.length_take, List.length_drop]
      exact Nat.min_le_right _ _
    have hrest : (pageOf all offset limit).more =
        decide (offset + (pageOf all offset limit).items.length < all.length) := rfl
    rw [hmore, hrest, ← Bool.decide_or, decide_eq_decide]
    omega

/-- A clamped limit is positive. -/
theorem clamp_pos (limit : UInt32) {cap : Nat} (hcap : 0 < cap) : 0 < clamp limit cap := by
  rw [clamp]
  split_ifs with hzero
  · exact hcap
  · refine lt_min (Nat.pos_of_ne_zero fun hnone => hzero ?_) hcap
    exact UInt32.toNat_inj.mp hnone

/-- A page of a listing that a client reads from a node, at an offset and over some connection. -/
def LedgerStorage.PageRead (s : LedgerStorage C) (call : UInt32 → UInt32 → Call (Page α))
    (offset : Nat) (items : List α) (more : Bool) : Prop :=
  ∃ loads clock provenance served start limit t, start.toNat = offset ∧
    served < maxRequestsPerConnection ∧
    run ((nodeServer loads clock).peer provenance) (call start limit) ⟨s, served⟩ =
      (.ok ⟨items, more⟩, t)

/-- A call reads pages of a listing from a node. -/
def LedgerStorage.Lists (s : LedgerStorage C) (call : UInt32 → UInt32 → Call (Page α)) (cap : Nat)
    (encode : α → Bytes) (all : List α) : Prop :=
  ∀ loads clock provenance served start limit, served < maxRequestsPerConnection →
    run ((nodeServer loads clock).peer provenance) (call start limit) ⟨s, served⟩ =
      (.ok ((pageOf all start.toNat (clamp limit cap)).cut responseBudgetBytes encode),
        ⟨s, served + 1⟩)

/-- Such a call reads the pages of the listing. -/
theorem LedgerStorage.Lists.pagesOf {call : UInt32 → UInt32 → Call (Page α)} {cap : Nat}
    {encode : α → Bytes} {all : List α} (h : s.Lists call cap encode all) (hcap : 0 < cap)
    (hall : all.length < 2 ^ 32) : PagesOf (s.PageRead call) all := by
  have hread : ∀ {offset items more}, s.PageRead call offset items more →
      items <+: all.drop offset ∧ (items = [] → all.drop offset = []) ∧
        more = decide (offset + items.length < all.length) := by
    rintro offset items more ⟨loads, clock, provenance, served, start, limit, t, rfl, hserved, hrun⟩
    have hpage := h loads clock provenance served start limit hserved
    rw [hrun] at hpage
    have hspec := pageOf_cut all start.toNat (clamp_pos limit hcap) responseBudgetBytes encode
    rw [← Except.ok.inj (Prod.mk.inj hpage).1] at hspec
    exact hspec
  refine ⟨fun offset hoffset => ?_, fun hpage => (hread hpage).1, fun hpage => (hread hpage).2.2,
    fun hpage => ?_⟩
  · have hstart : (UInt32.ofNat offset).toNat = offset := by
      rw [UInt32.toNat_ofNat', Nat.mod_eq_of_lt (by omega)]
    exact ⟨_, _, ⟨0, 0⟩, ⟨0, 0, 0, 0, 0⟩, ⟨none⟩, 0, UInt32.ofNat offset, 0, _, hstart, by decide,
      h _ _ _ _ _ _ (by decide)⟩
  · obtain ⟨-, hempty, hmore⟩ := hread hpage
    have hlength := congrArg List.length (hempty rfl)
    rw [List.length_drop, List.length_nil] at hlength
    rw [hmore, decide_eq_false_iff_not, List.length_nil]
    omega

namespace LedgerStorage.Bounded

variable (h : s.Bounded)
include h

/-- A client reads pages of the rows of a node. -/
theorem lists_summaries : s.Lists (Client.list C) maxListLimit summaryEntry s.summaries := by
  intro loads clock provenance served start limit hserved
  have hspec := pageOf_spec s.summaries start.toNat (clamp limit maxListLimit)
  have hcut := (pageOf s.summaries start.toNat (clamp limit maxListLimit)).sendable_cut
    responseBudgetBytes summaryEntry
  exact run_list_listed rfl hserved rfl
    ⟨hcut.1.trans (hspec.1.trans (clamp_le _ _)),
      fun row hrow => h.mem_summaries (hspec.2 row (hcut.2 row hrow))⟩

/-- A client reads pages of the fork records of a node. -/
theorem lists_forkRecords (ledger : Option LedgerId) :
    s.Lists (Client.forksUnverified C ledger) maxForksLimit forkEntry (s.forkRecords ledger) := by
  intro loads clock provenance served start limit hserved
  have hspec := pageOf_spec (s.forkRecords ledger) start.toNat (clamp limit maxForksLimit)
  have hcut := (pageOf (s.forkRecords ledger) start.toNat (clamp limit maxForksLimit)).sendable_cut
    responseBudgetBytes forkEntry
  exact run_forksUnverified_listed rfl hserved rfl
    ⟨hcut.1.trans (hspec.1.trans (clamp_le _ _)),
      fun record hrecord => h.mem_forkRecords (hspec.2 record (hcut.2 record hrecord))⟩

/-- Under the fixed caps a node holds few ledgers. -/
theorem length_entries_le : s.index.ledgers.entries.length ≤ maxLedgers := by
  obtain ⟨capacity, hcaps⟩ := h.capped
  have hledgers := h.reachable.sound.ledgers
  rwa [hcaps] at hledgers

/-- Under the fixed caps a node lists few rows. -/
theorem length_summaries_le : s.summaries.length ≤ maxLedgers := by
  rw [LedgerStorage.summaries, List.length_map]
  exact (List.length_filter_le _ _).trans h.length_entries_le

/-- Under the fixed caps a node keeps few fork records. -/
theorem length_forkRecords_le (ledger : Option LedgerId) :
    (s.forkRecords ledger).length ≤ maxLedgers * maxForkRecords.toNat := by
  obtain ⟨capacity, hcaps⟩ := h.capped
  rw [LedgerStorage.forkRecords, List.length_flatMap]
  have hfew : ∀ n ∈ (s.index.ledgers.entries.filter fun e => ledger.all (· == e.1)).map
      fun e => e.2.forks.length, n ≤ maxForkRecords.toNat := by
    rw [List.forall_mem_map]
    intro e he
    have hentry := SortedMap.get?_eq_some.mpr (List.mem_of_mem_filter he)
    have hkept := (h.reachable.forksSound e.1 e.2 hentry).few
    rwa [hcaps] at hkept
  refine (List.sum_le_card_nsmul _ _ hfew).trans ?_
  rw [List.length_map, Nat.nsmul_eq_mul]
  exact Nat.mul_le_mul_right _ ((List.length_filter_le _ _).trans h.length_entries_le)

end LedgerStorage.Bounded

/-- A client that pages through what a node lists, each page from as many items on as it has,
whatever limits it asks for, however the pages are cut and over whichever connections, gathers the
rows of the ledgers that may be listed, each once and in the order of their ids, and likewise the
fork records; there is such a reading, and no page of it changes the node. -/
theorem listings_are_read_whole (s : LedgerStorage C) (h : s.Bounded) (ledger : Option LedgerId) :
    (∀ rows, Reading (s.PageRead (Client.list C)) 0 rows ↔ rows = s.summaries) ∧
    s.summaries.Pairwise (fun a b => a.ledger < b.ledger) ∧
    (∀ records, Reading (s.PageRead (Client.forksUnverified C ledger)) 0 records ↔
      records = s.forkRecords ledger) ∧
    ∀ loads clock provenance served start limit, served < maxRequestsPerConnection →
      (run ((nodeServer loads clock).peer provenance) (Client.list C start limit)
        ⟨s, served⟩).2 = ⟨s, served + 1⟩ ∧
      (run ((nodeServer loads clock).peer provenance) (Client.forksUnverified C ledger start limit)
        ⟨s, served⟩).2 = ⟨s, served + 1⟩ := by
  have hrows : s.summaries.length < 2 ^ 32 := h.length_summaries_le.trans_lt (by decide)
  have hrecords : (s.forkRecords ledger).length < 2 ^ 32 :=
    (h.length_forkRecords_le ledger).trans_lt (by decide)
  refine ⟨fun rows => ?_, ?_, fun records => ?_, ?_⟩
  · exact (h.lists_summaries.pagesOf (by decide) hrows).reading_iff
  · rw [LedgerStorage.summaries, List.pairwise_map]
    exact s.index.ledgers.sorted.filter _
  · exact ((h.lists_forkRecords ledger).pagesOf (by decide) hrecords).reading_iff
  · intro loads clock provenance served start limit hserved
    rw [h.lists_summaries _ _ _ _ _ _ hserved, h.lists_forkRecords ledger _ _ _ _ _ _ hserved]
    exact ⟨rfl, rfl⟩

/-- A node that stored a chain and saw a fork of it. -/
def forkedHome : LedgerStorage Crypto.sample :=
  cappedHome.pushes [sampleCall sampleChain, sampleCall sampleFork]

theorem bounded_forkedHome : forkedHome.Bounded :=
  (bounded_cappedHome.pushed (sampleCall sampleChain) dated_sampleClock).pushed
    (sampleCall sampleFork) dated_sampleClock

/-- The inception of the guest of the sample ledger. -/
def guestChain : List Bytes :=
  match buildInception (SecretKey.sample 2) .agent (.raw (SecretKey.sample 5).publicKey)
    (.ofNat nonceBytes 6) 1000 with
  | .ok built => [built.signedEvent]
  | .error _ => []

/-- The ledger of the guest. -/
def guestLedgerId : LedgerId :=
  (Mabel.eventIdOf Crypto.sample (guestChain.headD [])).toIdentity

/-- The sample ledger with a third event behind its inception. -/
def guestFork : List Bytes :=
  match buildTrustAttestation (SecretKey.sample 1)
    ⟨sampleLedgerId, 1, Mabel.eventIdOf Crypto.sample (sampleLedger.headD []), 1000,
      one_le_u64Max⟩ guestLedgerId 6000 with
  | .ok built => [sampleLedger.headD [], built.signedEvent]
  | .error _ => []

/-- A home that signs for both ledgers and holds nothing yet. -/
def sharedHome : LedgerStorage Crypto.sample :=
  .empty { sampleSetup with caps := .fromConfig 2147483648 }
    ((SortedMap.empty.insert sampleLedgerId ⟨true, none⟩).insert guestLedgerId ⟨true, none⟩)
    (SecretKey.sample 1).publicKey

/-- A node that stored two ledgers and saw two forks of one of them. -/
def busyHome : LedgerStorage Crypto.sample :=
  sharedHome.pushes [sampleCall sampleChain, sampleCall sampleFork, sampleCall guestFork,
    ⟨guestLedgerId, guestChain, ⟨none⟩, sampleClock⟩]

theorem bounded_busyHome : busyHome.Bounded := by
  have hshared : sharedHome.Bounded := bounded_empty ⟨2147483648, rfl⟩ _ _
  have hforks := ((hshared.pushed (sampleCall sampleChain) dated_sampleClock).pushed
    (sampleCall sampleFork) dated_sampleClock).pushed (sampleCall guestFork) dated_sampleClock
  exact hforks.pushed ⟨guestLedgerId, guestChain, ⟨none⟩, sampleClock⟩ dated_sampleClock

/-- Read by pages of one, that node shows both its rows and both its records. -/
theorem listings_are_read_whole_busyHome :
    (∃ first second : LedgerSummary,
      busyHome.PageRead (Client.list Crypto.sample) 0 [first] true ∧
      busyHome.PageRead (Client.list Crypto.sample) 1 [second] false ∧
      busyHome.summaries = [first, second]) ∧
    ∃ first second : ForkRecord Crypto.sample,
      busyHome.PageRead (Client.forksUnverified Crypto.sample none) 0 [first] true ∧
      busyHome.PageRead (Client.forksUnverified Crypto.sample none) 1 [second] false ∧
      busyHome.forkRecords none = [first, second] := by
  obtain ⟨hrows, -, hrecords, -⟩ := listings_are_read_whole busyHome bounded_busyHome none
  -- A page of one row or record, over a fresh connection.
  have hpages : ∀ {α : Type} {call : UInt32 → UInt32 → Call (Page α)} {cap : Nat}
      {encode : α → Bytes} {all items : List α} {more : Bool} (start : UInt32),
      busyHome.Lists call cap encode all →
      (pageOf all start.toNat (clamp 1 cap)).cut responseBudgetBytes encode = ⟨items, more⟩ →
      busyHome.PageRead call start.toNat items more := by
    intro α call cap encode all items more start hlists hpage
    have hrun := hlists ⟨0, 0⟩ sampleClock ⟨none⟩ 0 start 1 (by decide)
    rw [hpage] at hrun
    exact ⟨_, _, _, _, _, _, _, rfl, by decide, hrun⟩
  obtain ⟨hlength, hfirst, hsecond⟩ : busyHome.summaries.length = 2 ∧
      (pageOf busyHome.summaries 0 1).cut responseBudgetBytes summaryEntry =
        ⟨busyHome.summaries.take 1, true⟩ ∧
      (pageOf busyHome.summaries 1 1).cut responseBudgetBytes summaryEntry =
        ⟨busyHome.summaries.drop 1, false⟩ := by decide +kernel
  obtain ⟨hlength', hfirst', hsecond'⟩ : (busyHome.forkRecords none).length = 2 ∧
      (pageOf (busyHome.forkRecords none) 0 1).cut responseBudgetBytes forkEntry =
        ⟨(busyHome.forkRecords none).take 1, true⟩ ∧
      (pageOf (busyHome.forkRecords none) 1 1).cut responseBudgetBytes forkEntry =
        ⟨(busyHome.forkRecords none).drop 1, false⟩ := by decide +kernel
  constructor
  · obtain ⟨first, second, hall⟩ := List.length_eq_two.mp hlength
    have hlists := bounded_busyHome.lists_summaries
    rw [hall] at hlists hfirst hsecond
    have hpage : busyHome.PageRead (Client.list Crypto.sample) 0 [first] true :=
      hpages 0 hlists hfirst
    have hlast : busyHome.PageRead (Client.list Crypto.sample) 1 [second] false :=
      hpages 1 hlists hsecond
    exact ⟨first, second, hpage, hlast, ((hrows _).mp (.more hpage (.last hlast))).symm⟩
  · obtain ⟨first, second, hall⟩ := List.length_eq_two.mp hlength'
    have hlists := bounded_busyHome.lists_forkRecords none
    rw [hall] at hlists hfirst' hsecond'
    have hpage : busyHome.PageRead (Client.forksUnverified Crypto.sample none) 0 [first] true :=
      hpages 0 hlists hfirst'
    have hlast : busyHome.PageRead (Client.forksUnverified Crypto.sample none) 1 [second] false :=
      hpages 1 hlists hsecond'
    exact ⟨first, second, hpage, hlast, ((hrecords _).mp (.more hpage (.last hlast))).symm⟩

/-! ## Fork records that verify -/

/-- Evidence verifies against the log it is evidence against. -/
theorem Evidence.recordHolds {log : List Bytes} {l : LedgerId} {record : ForkRecord C}
    (h : Evidence log l record) : Client.recordHolds record log = .ok true := by
  obtain ⟨shared, fork, hshared, hfork, hledger, -, -⟩ := h.valid
  have hlt := (List.getElem?_eq_some_iff.mp h.kept).1
  have hnamed : shared.ledger = some record.ledger := by
    rw [(validateForkRecord_eq_ok.mp hfork).ledger, hledger, h.ledger]
  rw [Client.recordHolds, if_neg (not_lt.mpr hlt.le), hshared]
  dsimp only
  rw [if_neg (by simp [hnamed]), hfork]

/-- What a node serves of a ledger bears out its fork records. -/
theorem LedgerStorage.Bounded.bearsOut (h : s.Bounded) (loads : LoadClock) (clock : Clock)
    {ledger : Option LedgerId} {record : ForkRecord C} (hrecord : record ∈ s.forkRecords ledger) :
    (nodeStore loads clock).BearsOut s record (s.logOf record.ledger) ∧
      getRequests responseBudgetBytes (s.logOf record.ledger) ≤ 10 := by
  have hsound := h.reachable.sound
  obtain ⟨capacity, hcaps⟩ := h.capped
  obtain ⟨⟨held, entry⟩, hmem, hforks⟩ := List.mem_flatMap.mp hrecord
  have hentry := SortedMap.get?_eq_some.mpr (List.mem_of_mem_filter hmem)
  have hevidence := (h.reachable.forksSound held entry hentry).evidence record hforks
  obtain rfl : record.ledger = held := hevidence.ledger
  have hseq := (h.mem_forkRecords hrecord).seq.1
  have hpages := getRequests_le (hsound.heldLog hentry) hcaps 0
  exact ⟨⟨hsound.keeps hentry (h.headSeq_le hentry) loads clock, Nat.one_le_iff_ne_zero.mp hseq,
    hevidence.recordHolds⟩, hpages⟩

/-- Every fork record that a node serves verifies, unless the connection runs out of requests: one
for the page and for each record those that read its ledger, which are at least one and at most
ten. So a page of few records is always verified over a fresh connection, and a full page never. -/
theorem forks_of_node (s : LedgerStorage C) (h : s.Bounded) (loads : LoadClock) (clock : Clock)
    (provenance : Provenance C) (ledger : Option LedgerId) (offset limit : UInt32)
    (rounds served : Nat) (hserved : served < maxRequestsPerConnection) :
    let page := (pageOf (s.forkRecords ledger) offset.toNat (clamp limit maxForksLimit)).cut
      responseBudgetBytes forkEntry
    let spent := verifyRequests s.logOf page.items
    run ((nodeServer loads clock).peer provenance)
        (Client.forks C (rounds + 10) ledger offset limit) ⟨s, served⟩ =
      (if served + 1 + spent ≤ maxRequestsPerConnection then
        (.ok ⟨page.items, 0, page.more⟩, ⟨s, served + 1 + spent⟩)
      else (Outcome.reject (.failed .connection), ⟨s, maxRequestsPerConnection⟩)) ∧
    page.items.length ≤ spent ∧ spent ≤ 10 * page.items.length := by
  intro page spent
  have hborne : ∀ record ∈ page.items, (nodeStore loads clock).BearsOut s record
      (s.logOf record.ledger) ∧ getRequests responseBudgetBytes (s.logOf record.ledger) ≤ 10 := by
    intro record hrecord
    have hcut := (Page.sendable_cut responseBudgetBytes forkEntry _).2 record hrecord
    exact h.bearsOut loads clock ((pageOf_spec _ _ _).2 record hcut)
  have hlisted : run ((nodeServer loads clock).peer provenance)
      (Client.forksUnverified C ledger offset limit) ⟨s, served⟩ = (.ok page, ⟨s, served + 1⟩) :=
    h.lists_forkRecords ledger loads clock provenance served offset limit hserved
  have hverify : run ((nodeServer loads clock).peer provenance)
      (Client.verifyRecords (rounds + 10) page.items) ⟨s, served + 1⟩ = _ :=
    run_verifyRecords rfl s.logOf page.items
      (fun record hrecord => ⟨(hborne record hrecord).1, (hborne record hrecord).2.trans
        (Nat.le_add_left _ _)⟩) hserved
  refine ⟨?_, ?_, ?_⟩
  · rw [Client.forks, run_bind_of_ok hlisted]
    by_cases hleft : served + 1 + spent ≤ maxRequestsPerConnection
    · rw [if_pos hleft, run_bind_of_ok (hverify.trans (if_pos hleft))]
      rfl
    · rw [if_neg hleft, run_bind_of_error (hverify.trans (if_neg hleft))]
      rfl
  · have hpos : ∀ n ∈ page.items.map fun record =>
        getRequests responseBudgetBytes (s.logOf record.ledger), 1 ≤ n := by
      rw [List.forall_mem_map]
      exact fun record _ => pageRounds_pos _ _ _
    have hsum := List.card_nsmul_le_sum _ _ hpos
    rw [List.length_map, Nat.nsmul_eq_mul, Nat.mul_one] at hsum
    exact hsum
  · have hpages : ∀ n ∈ page.items.map fun record =>
        getRequests responseBudgetBytes (s.logOf record.ledger), n ≤ 10 := by
      rw [List.forall_mem_map]
      exact fun record hrecord => (hborne record hrecord).2
    have hsum := List.sum_le_card_nsmul _ _ hpages
    rw [List.length_map, Nat.nsmul_eq_mul, Nat.mul_comm] at hsum
    exact hsum

/-- The forked home's record is read by a client. -/
theorem forks_of_node_forkedHome :
    run ((nodeServer ⟨6, 7⟩ sampleClock).peer ⟨none⟩) (Client.forks Crypto.sample 10 none 0 0)
        ⟨forkedHome, 0⟩ =
      (.ok ⟨forkedHome.forkRecords none, 0, false⟩, ⟨forkedHome, 2⟩) := by
  obtain ⟨hforks, -⟩ := forks_of_node forkedHome bounded_forkedHome ⟨6, 7⟩ sampleClock ⟨none⟩ none
    0 0 0 0 (by decide)
  obtain ⟨hpage, hspent⟩ : (pageOf (forkedHome.forkRecords none) 0 (clamp 0 maxForksLimit)).cut
        responseBudgetBytes forkEntry = ⟨forkedHome.forkRecords none, false⟩ ∧
      verifyRequests forkedHome.logOf (forkedHome.forkRecords none) = 1 := by decide +kernel
  rw [show (0 : UInt32).toNat = 0 from rfl, hpage] at hforks
  dsimp only at hforks
  rw [hspent, if_pos (by decide)] at hforks
  exact hforks

end Mabel.Node
