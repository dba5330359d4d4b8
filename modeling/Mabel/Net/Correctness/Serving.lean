import Mabel.Net.Correctness.Paging
import Mabel.Net.Correctness.RoundTrip
import Mabel.Net.Server

/-!
# What a connection answers

A page is cut twice, by the clamped limit in the store and by the byte budget of the response. The
cut keeps a first part of what the store answered, never an empty one of a page that has items, and
says that more follows exactly where something was left out. What is sent is within the frame cap
and is read by the client as it was meant.
-/

namespace Mabel.Net

open Wire Proto Program Validate

variable {C : Crypto} {σ α : Type}

/-! ## The budget -/

section Budget

variable (number budget : Nat) (encode : α → Bytes)

/-- What encoded entries cost. -/
def costs (items : List α) : Nat :=
  (items.map fun item => entryLen number (encode item)).sum

/-- Behind entries already taken the budget is kept, and the first entry left out would pass it. -/
theorem fillFrom_spec (items : List α) : ∀ (used : Nat) (out : List Bytes), out ≠ [] →
    ∃ k ≤ items.length,
      fillFrom number budget encode used out items =
        (out ++ (items.take k).map encode, decide (k < items.length)) ∧
      used + costs number encode (items.take k) ≤ max budget used ∧
      (k < items.length → budget < used + costs number encode (items.take (k + 1))) := by
  induction items with
  | nil => exact fun _ _ _ => ⟨0, le_rfl, by simp [fillFrom], by simp [costs], by simp⟩
  | cons item items ih =>
    intro used out hout
    by_cases hover : used + entryLen number (encode item) > budget
    · refine ⟨0, Nat.zero_le _, ?_, by simp [costs], fun _ => by simpa [costs] using hover⟩
      simp [fillFrom, hover, hout]
    · obtain ⟨k, hk, hfill, hcosts, hnext⟩ := ih (used + entryLen number (encode item))
        (out ++ [encode item]) (by simp)
      refine ⟨k + 1, Nat.succ_le_succ hk, ?_, ?_, fun hlt => ?_⟩
      · rw [fillFrom, if_neg (fun h => hover h.1), hfill]
        simp
      · simp only [costs, List.take_succ_cons, List.map_cons, List.sum_cons] at hcosts ⊢
        omega
      · have hover' := hnext (by simpa using hlt)
        simp only [costs, List.take_succ_cons, List.map_cons, List.sum_cons] at hover' ⊢
        omega

/-- Where the budget cuts a page. -/
def pageCut (items : List α) : Nat :=
  (fillBudget number budget encode items).1.length

/-- The budget keeps a first part of the items: not an empty one, within the budget or of one item,
and the first item left out would pass the budget. -/
theorem fillBudget_spec (items : List α) :
    pageCut number budget encode items ≤ items.length ∧
    (items ≠ [] → 0 < pageCut number budget encode items) ∧
    fillBudget number budget encode items =
      ((items.take (pageCut number budget encode items)).map encode,
        decide (pageCut number budget encode items < items.length)) ∧
    costs number encode (items.take (pageCut number budget encode items)) ≤
      max budget (costs number encode (items.take 1)) ∧
    (pageCut number budget encode items < items.length →
      budget < costs number encode (items.take (pageCut number budget encode items + 1))) := by
  cases items with
  | nil => simp [pageCut, fillBudget, fillFrom, costs]
  | cons item items =>
    obtain ⟨k, hk, hfill, hcosts, hnext⟩ := fillFrom_spec number budget encode items
      (entryLen number (encode item)) [encode item] (by simp)
    have hfill' : fillBudget number budget encode (item :: items) =
        (encode item :: (items.take k).map encode, decide (k < items.length)) := by
      rw [fillBudget, fillFrom]
      simpa using hfill
    have hcut : pageCut number budget encode (item :: items) = k + 1 := by
      rw [pageCut, hfill']
      simp [Nat.min_eq_left hk]
    rw [hcut]
    refine ⟨Nat.succ_le_succ hk, fun _ => Nat.succ_pos k, ?_, ?_, fun hlt => ?_⟩
    · rw [hfill']
      simp
    · simpa [costs] using hcosts
    · have hover := hnext (by simpa using hlt)
      simpa [costs] using hover

/-- What an event costs in a page at most. -/
theorem entryLen_one_le {body : Bytes} (h : body.length ≤ maxEventBytes) :
    entryLen 1 body ≤ maxEventBytes + 3 := by
  have hkey : varintLen (1 <<< 3 ||| 2) = 1 := varintLen_of_lt (by decide)
  have hlen := varintLen_le 1 body.length (h.trans_lt (by decide))
  rw [entryLen]
  omega

/-- The records of a repeated field are as long as their entries cost. -/
theorem length_repeatedField (bodies : List Bytes) :
    (putEntries (repeatedField 1 bodies)).length = costs 1 id bodies := by
  induction bodies with
  | nil => rfl
  | cons body bodies ih =>
    have hsplit : repeatedField 1 (body :: bodies) =
        messageField 1 body ++ repeatedField 1 bodies := rfl
    rw [hsplit, putEntries_append, List.length_append, ih, messageField, putEntries_cons,
      putEntries_nil, List.append_nil, length_putEntry_bytes]
    have hkey : 1 <<< 3 ||| 2 = 1 * 8 + 2 := by decide
    simp only [costs, List.map_cons, List.sum_cons, entryLen, hkey, id]
    omega

end Budget

/-! ## Pages that are sent -/

/-- A page of events a store may answer with. -/
structure EventPage.Served (C : Crypto) (page : EventPage) : Prop where
  count : page.events.length ≤ maxGetLimit
  accepted : ∀ event ∈ page.events, signedEvent C event = .ok ()
  headSeq : page.headSeq ≤ u64Max

/-- What of a page of events is sent. -/
def EventPage.cut (budget : Nat) (page : EventPage) : EventPage :=
  let k := pageCut 1 budget id page.events
  ⟨page.events.take k, page.headSeq, page.more || decide (k < page.events.length)⟩

/-- What of a page of a listing is sent. -/
def Page.cut (budget : Nat) (encode : α → Bytes) (page : Page α) : Page α :=
  let k := pageCut 1 budget encode page.items
  ⟨page.items.take k, page.more || decide (k < page.items.length)⟩

section Frames

variable {server : LedgerProtocol C σ}

/-- The events frame is the encoded page, cut to the budget. -/
theorem eventsFrame_eq (page : EventPage) : server.eventsFrame page =
    (Response.events (C := C) (page.cut server.config.responseBudgetBytes)).encode := by
  obtain ⟨-, -, hfill, -⟩ := fillBudget_spec 1 server.config.responseBudgetBytes id page.events
  simp only [LedgerProtocol.eventsFrame, Response.encode, EventPage.cut, hfill, List.map_id]

/-- The ledgers frame is the encoded page, cut to the budget. -/
theorem ledgersFrame_eq (page : Page LedgerSummary) : server.ledgersFrame page =
    (Response.ledgers (C := C) (page.cut server.config.responseBudgetBytes summaryEntry)).encode := by
  obtain ⟨-, -, hfill, -⟩ :=
    fillBudget_spec 1 server.config.responseBudgetBytes summaryEntry page.items
  simp only [LedgerProtocol.ledgersFrame, Response.encode, Page.cut, hfill]

/-- The forks frame is the encoded page, cut to the budget. -/
theorem forksFrame_eq (page : Page (ForkRecord C)) : server.forksFrame page =
    (Response.forks (page.cut server.config.responseBudgetBytes forkEntry)).encode := by
  obtain ⟨-, -, hfill, -⟩ :=
    fillBudget_spec 1 server.config.responseBudgetBytes forkEntry page.items
  simp only [LedgerProtocol.forksFrame, Response.encode, Page.cut, hfill]

theorem length_accepted {event : Bytes} (h : signedEvent C event = .ok ()) :
    event.length ≤ maxEventBytes := (signedEvent_eq_ok.mp h).1

/-- What is cut to the budget fits a frame. -/
theorem EventPage.Served.sendable {page : EventPage} (h : page.Served C) {budget : Nat}
    (hbudget : budget ≤ responseBudgetBytes) :
    (Response.events (C := C) (page.cut budget)).Sendable := by
  obtain ⟨-, -, -, hcosts, -⟩ := fillBudget_spec 1 budget id page.events
  have hfirst : costs 1 id (page.events.take 1) ≤ maxEventBytes + 3 := by
    cases hevents : page.events with
    | nil => simp [costs]
    | cons event events =>
      have haccepted := h.accepted event (by rw [hevents]; exact List.mem_cons_self)
      simpa [costs] using entryLen_one_le (length_accepted haccepted)
  refine ⟨⟨⟨?_, fun event hevent => h.accepted event (List.mem_of_mem_take hevent)⟩, h.headSeq⟩, ?_⟩
  · exact (List.take_sublist _ _).length_le.trans h.count
  · have hsize : responseBudgetBytes + 13 + 5 ≤ maxFrameBytes := by decide
    have hevent : maxEventBytes + 3 ≤ responseBudgetBytes := by decide
    suffices hbody : (putEntries (Response.events (C := C) (page.cut budget)).entries).length ≤
        responseBudgetBytes + 13 from
      (length_envelope_le (by decide) (by decide) hbody).trans hsize
    have hseq := length_count64 (show 2 < 16 by decide) h.headSeq
    have hmore := length_flagField (show 3 < 16 by decide) (page.cut budget).more
    have hbodies := length_repeatedField (page.cut budget).events
    have hkept : costs 1 id (page.cut budget).events ≤ responseBudgetBytes :=
      hcosts.trans (max_le hbudget (hfirst.trans hevent))
    have hhead : (page.cut budget).headSeq = page.headSeq := rfl
    rw [Response.entries, putEntries_append, putEntries_append, List.length_append,
      List.length_append, hhead]
    omega

end Frames

/-! ## One request on a connection -/

section Connections

variable {server : LedgerProtocol C σ} {free : Nat → Bool} {provenance : Provenance C}
  {connection : Connection σ}

/-- A request within its bounds is answered while the connection has requests left. -/
theorem accept_answer (hcap : server.config.maxFrameBytes = maxFrameBytes)
    (hserved : connection.served < server.config.maxRequestsPerConnection)
    (hfree : free connection.served = true) {r : Request} (hr : r.Sendable C) :
    server.accept free provenance r.encode connection =
      (some (server.answer provenance r connection.store).1,
        ⟨(server.answer provenance r connection.store).2, connection.served + 1⟩) := by
  have haccepted := Request.accepted hr
  have hsize : r.encode.length ≤ server.config.maxFrameBytes := by
    rw [hcap]
    exact (isFrame_request.accepts_iff.mp haccepted).1
  rw [LedgerProtocol.accept, if_pos hserved, LedgerProtocol.serveStream, if_pos hsize, hfree,
    LedgerProtocol.handleFrame]
  simp only [Bool.not_true, Bool.false_eq_true, if_false, parseRequest_encode haccepted]

/-- A connection that has made all its requests answers nothing more. -/
theorem accept_closed (hserved : server.config.maxRequestsPerConnection ≤ connection.served)
    (frame : Bytes) : server.accept free provenance frame connection = (none, connection) := by
  rw [LedgerProtocol.accept, if_neg (not_lt.mpr hserved)]

/-- The client reads a response within its bounds as it was meant. -/
theorem received_encode {r : Response C} (h : r.Sendable) (hshort : r.Short)
    (hnot : ∀ rejection, r ≠ .rejected rejection) (hencode : r.encode = envelope r.number r.entries) :
    received C (some r.encode) = .ok r := by
  refine received_eq_ok.mpr ⟨r.encode, rfl, ?_, ?_, ?_⟩
  · rw [hencode]
    exact (h.sizes hshort).2
  · rw [hencode]
    exact h.parse hshort
  · cases r with
    | rejected rejection => exact absurd rfl (hnot rejection)
    | _ => rfl

end Connections

/-! ## Paging a ledger -/

/-- The page of a log a read answers with. -/
def logPage (log : List Bytes) (since limit : Nat) : EventPage :=
  let events := (log.drop since).take limit
  ⟨events, log.length - 1, decide (since + events.length < log.length)⟩

/-- In this state a store answers every read of a ledger from a log, and stays in it. -/
structure Store.Keeps (store : Store C σ) (s : σ) (ledger : LedgerId) (log : List Bytes) : Prop where
  reads : ∀ since limit, store.readFrom ledger since limit s = (.ok (some (logPage log since limit)), s)
  accepted : ∀ event ∈ log, signedEvent C event = .ok ()
  length : log.length ≤ u64Max

/-- How many pages carry events, each cut by the most one page may name and by the budget. -/
def pageRounds (budget : Nat) : Nat → List Bytes → Nat
  | 0, _ => 0
  | fuel + 1, events =>
    let k := pageCut 1 budget id (events.take maxGetLimit)
    if k < events.length then 1 + pageRounds budget fuel (events.drop k) else 1

/-- How many requests read events to their end. -/
def getRequests (budget : Nat) (events : List Bytes) : Nat :=
  pageRounds budget (events.length + 1) events

section Paging

variable {server : LedgerProtocol C σ} {provenance : Provenance C} {s : σ} {ledger : LedgerId}
  {log : List Bytes}

/-- A server under the caps it has when it is not told otherwise, whose verification slots are not
all taken. -/
abbrev LedgerProtocol.peer (server : LedgerProtocol C σ) (provenance : Provenance C) :
    Peer (Connection σ) := server.accept (fun _ => true) provenance

/-- A page of a kept log is one a server serves. -/
theorem Store.Keeps.served (h : server.store.Keeps s ledger log) (since : Nat) {limit : Nat}
    (hlimit : limit ≤ maxGetLimit) : (logPage log since limit).Served C := by
  refine ⟨(List.length_take_le _ _).trans hlimit, fun event hevent => ?_, ?_⟩
  · exact h.accepted event (List.mem_of_mem_drop (List.mem_of_mem_take hevent))
  · exact (Nat.sub_le _ _).trans h.length

/-- One page is read as the store answered it, cut to the budget. -/
theorem run_get_kept (hconfig : server.config = .default) (h : server.store.Keeps s ledger log)
    {served : Nat} (hserved : served < maxRequestsPerConnection) (since : UInt64) (limit : UInt32) :
    run (server.peer provenance) (Client.get C ledger since limit) ⟨s, served⟩ =
      (.ok (some ((logPage log since.toNat (clamp limit maxGetLimit)).cut responseBudgetBytes)),
        ⟨s, served + 1⟩) := by
  have hclamp : clamp limit maxGetLimit ≤ maxGetLimit := by
    rw [clamp]
    split_ifs
    · exact le_rfl
    · exact Nat.min_le_right _ _
  have hanswer : server.peer provenance (getRequest ledger since limit) ⟨s, served⟩ =
      (some ((Response.events (C := C) ((logPage log since.toNat
        (clamp limit maxGetLimit)).cut responseBudgetBytes)).encode), ⟨s, served + 1⟩) := by
    have hrequest : server.peer provenance (Request.get ledger since limit).encode ⟨s, served⟩ =
        (some (server.answer provenance (.get ledger since limit) s).1,
          ⟨(server.answer provenance (.get ledger since limit) s).2, served + 1⟩) :=
      accept_answer (by rw [hconfig]; rfl) (by rw [hconfig]; exact hserved) rfl trivial
    have hdispatch : server.answer provenance (.get ledger since limit) s =
        ((Response.events (C := C) ((logPage log since.toNat
          (clamp limit maxGetLimit)).cut responseBudgetBytes)).encode, s) := by
      simp only [LedgerProtocol.answer, LedgerProtocol.dispatch, framed, h.reads, Except.map,
        Option.elim_some, eventsFrame_eq, hconfig, ServerConfig.default]
    rw [hdispatch] at hrequest
    exact hrequest
  rw [run_get, hanswer, received_encode ((h.served _ hclamp).sendable le_rfl) trivial (by simp) rfl]
  rfl

/-- A connection whose requests are used up answers no further page. -/
theorem run_get_closed (hconfig : server.config = .default) (since : UInt64) (limit : UInt32) :
    run (server.peer provenance) (Client.get C ledger since limit) ⟨s, maxRequestsPerConnection⟩ =
      (Outcome.reject (.failed .connection), ⟨s, maxRequestsPerConnection⟩) := by
  rw [run_get, LedgerProtocol.peer, accept_closed (by rw [hconfig]; rfl)]
  rfl

/-- The page of a log that is sent is a first part of the rest of it, and says whether there is
more. -/
theorem cut_logPage (log : List Bytes) (since budget : Nat) :
    let k := pageCut 1 budget id ((log.drop since).take maxGetLimit)
    (logPage log since maxGetLimit).cut budget =
      ⟨(log.drop since).take k, log.length - 1, decide (k < (log.drop since).length)⟩ := by
  intro k
  have hk : k ≤ ((log.drop since).take maxGetLimit).length := (fillBudget_spec 1 budget id _).1
  have hevents : ((log.drop since).take maxGetLimit).take k = (log.drop since).take k := by
    rw [List.take_take, Nat.min_eq_left (hk.trans (List.length_take_le _ _))]
  have hmore : (decide (since + ((log.drop since).take maxGetLimit).length < log.length) ||
      decide (k < ((log.drop since).take maxGetLimit).length)) =
        decide (k < (log.drop since).length) := by
    rw [List.length_take, List.length_drop] at hk ⊢
    rw [← Bool.decide_or, decide_eq_decide]
    omega
  rw [← hevents, ← hmore]
  rfl

/-- Reading anything takes a round. -/
theorem pageRounds_pos (budget fuel : Nat) (events : List Bytes) :
    0 < pageRounds budget (fuel + 1) events := by
  rw [pageRounds]
  split_ifs <;> omega

/-- The loop reads a kept log from a sequence to its end, if the connection has that many requests
left, and fails where the connection is closed on it. -/
theorem run_getAllFrom_kept (hconfig : server.config = .default)
    (h : server.store.Keeps s ledger log) (fuel : Nat) :
    ∀ (rounds served : Nat) (next : UInt64) (all : List Bytes),
    (log.drop next.toNat).length < fuel →
    pageRounds responseBudgetBytes fuel (log.drop next.toNat) ≤ rounds →
    served ≤ maxRequestsPerConnection →
    run (server.peer provenance) (Client.getAllFrom C ledger rounds next all) ⟨s, served⟩ =
      if served + pageRounds responseBudgetBytes fuel (log.drop next.toNat) ≤
          maxRequestsPerConnection then
        (.ok (some (all ++ log.drop next.toNat)),
          ⟨s, served + pageRounds responseBudgetBytes fuel (log.drop next.toNat)⟩)
      else (Outcome.reject (.failed .connection), ⟨s, maxRequestsPerConnection⟩) := by
  induction fuel with
  | zero => exact fun _ _ _ _ hfuel => absurd hfuel (Nat.not_lt_zero _)
  | succ fuel ih =>
    intro rounds served next all hfuel hrounds hserved
    have hpos := pageRounds_pos responseBudgetBytes fuel (log.drop next.toNat)
    obtain ⟨rounds, rfl⟩ : ∃ n, rounds = n + 1 := ⟨rounds - 1, by omega⟩
    rcases hserved.eq_or_lt with rfl | hlt
    · -- The connection is closed.
      rw [if_neg (by omega), Client.getAllFrom, run_bind_of_error (run_get_closed hconfig next 0)]
      rfl
    set rest := log.drop next.toNat with hrest
    have hpage := cut_logPage log next.toNat responseBudgetBytes
    obtain ⟨hk, hkpos, -⟩ := fillBudget_spec 1 responseBudgetBytes id (rest.take maxGetLimit)
    have hget : run (server.peer provenance) (Client.get C ledger next 0) ⟨s, served⟩ =
        (.ok (some ((logPage log next.toNat maxGetLimit).cut responseBudgetBytes)),
          ⟨s, served + 1⟩) := run_get_kept hconfig h hlt next 0
    rw [hpage, ← hrest] at hget
    rw [Client.getAllFrom, run_bind_of_ok hget]
    rw [pageRounds] at hrounds ⊢
    set k := pageCut 1 responseBudgetBytes id (rest.take maxGetLimit) with hkdef
    have hcap : k ≤ maxGetLimit := hk.trans (List.length_take_le _ _)
    by_cases hmore : k < rest.length
    · have hpositive : 0 < k := by
        refine hkpos fun hempty => ?_
        have hlength := congrArg List.length hempty
        rw [List.length_take, List.length_nil] at hlength
        have hlimit : 0 < maxGetLimit := by decide
        omega
      have hlog := h.length
      have hlength : next.toNat + rest.length = log.length := by
        rw [hrest, List.length_drop] at hmore ⊢
        omega
      have hcount : (UInt64.ofNat (rest.take k).length).toNat = k := by
        rw [List.length_take_of_le hmore.le, UInt64.toNat_ofNat', Nat.mod_eq_of_lt]
        have hmax : u64Max < 2 ^ 64 := by decide
        omega
      have hne : UInt64.ofNat (rest.take k).length ≠ 0 := by
        intro hzero
        rw [hzero] at hcount
        exact absurd hcount hpositive.ne
      have hnext : (next + UInt64.ofNat (rest.take k).length).toNat = next.toNat + k := by
        rw [UInt64.toNat_add, hcount, Nat.mod_eq_of_lt]
        have hmax : u64Max < 2 ^ 64 := by decide
        omega
      have hdrop : log.drop (next + UInt64.ofNat (rest.take k).length).toNat = rest.drop k := by
        rw [hnext, hrest, List.drop_drop]
      have hall : ∀ all : List Bytes, all ++ rest.take k ++ rest.drop k = all ++ rest := by
        intro all
        rw [List.append_assoc, List.take_append_drop]
      rw [if_pos hmore] at hrounds ⊢
      have hstep := ih rounds (served + 1) (next + UInt64.ofNat (rest.take k).length)
        (all ++ rest.take k)
        (by rw [hdrop, List.length_drop]; omega) (by rw [hdrop]; omega) hlt
      rw [hdrop, hall] at hstep
      simp only [hmore, decide_true, Bool.not_true, Bool.false_eq_true, if_false, hne]
      rw [hstep, Nat.add_assoc, Nat.add_comm 1]
    · have hwhole : rest.take k = rest := List.take_of_length_le (not_lt.mp hmore)
      rw [if_neg hmore, if_pos (show served + 1 ≤ maxRequestsPerConnection from hlt)]
      simp only [hmore, decide_false, Bool.not_false, if_true, hwhole]
      rfl

/-- A loop that has ended within its rounds ends the same way within more. -/
theorem run_getAllFrom_more {τ : Type} {peer : Peer τ} {result : Option (List Bytes)} {u : τ}
    (more rounds : Nat) : ∀ {next : UInt64} {all : List Bytes} {t : τ},
    run peer (Client.getAllFrom C ledger rounds next all) t = (.ok result, u) →
      run peer (Client.getAllFrom C ledger (rounds + more) next all) t = (.ok result, u) := by
  induction rounds with
  | zero =>
    intro next all t h
    simp [Client.getAllFrom] at h
  | succ rounds ih =>
    intro next all t h
    rw [Client.getAllFrom, run_bind_eq_ok] at h
    obtain ⟨page, t', hget, hrest⟩ := h
    rw [Nat.add_right_comm, Client.getAllFrom, run_bind_of_ok hget]
    cases page with
    | none => exact hrest
    | some page =>
      dsimp only at hrest ⊢
      split_ifs at hrest ⊢
      · exact hrest
      · exact hrest
      · exact ih hrest

/-- Whatever a client ends up with of a kept log is the log from where it asked. -/
theorem getAll_kept (hconfig : server.config = .default) (h : server.store.Keeps s ledger log)
    {rounds served : Nat} {since : UInt64} {result : Option (List Bytes)} {t : Connection σ}
    (hserved : served ≤ maxRequestsPerConnection)
    (hrun : run (server.peer provenance) (Client.getAll C rounds ledger since) ⟨s, served⟩ =
      (.ok result, t)) : result = some (log.drop since.toNat) := by
  have hmore := run_getAllFrom_more (getRequests responseBudgetBytes (log.drop since.toNat)) rounds
    hrun
  have hwhole : run (server.peer provenance) (Client.getAllFrom C ledger
      (rounds + getRequests responseBudgetBytes (log.drop since.toNat)) since []) ⟨s, served⟩ = _ :=
    run_getAllFrom_kept hconfig h ((log.drop since.toNat).length + 1) _ served since []
      (Nat.lt_succ_self _) (Nat.le_add_left _ _) hserved
  rw [hmore] at hwhole
  split_ifs at hwhole with hmet
  · exact Except.ok.inj (Prod.mk.inj hwhole).1
  · exact absurd (Prod.mk.inj hwhole).1.symm Outcome.reject_ne_ok

/-- A ledger the store does not hold is not found. -/
theorem run_getAll_missing (hconfig : server.config = .default)
    (h : ∀ since limit, server.store.readFrom ledger since limit s = (.ok none, s)) {served : Nat}
    (hserved : served < maxRequestsPerConnection) (rounds : Nat) (since : UInt64) :
    run (server.peer provenance) (Client.getAll C (rounds + 1) ledger since) ⟨s, served⟩ =
      (.ok none, ⟨s, served + 1⟩) := by
  have hanswer : server.peer provenance (getRequest ledger since 0) ⟨s, served⟩ =
      (some (Response.notFound (C := C)).encode, ⟨s, served + 1⟩) := by
    have hrequest : server.peer provenance (Request.get ledger since 0).encode ⟨s, served⟩ =
        (some (server.answer provenance (.get ledger since 0) s).1,
          ⟨(server.answer provenance (.get ledger since 0) s).2, served + 1⟩) :=
      accept_answer (by rw [hconfig]; rfl) (by rw [hconfig]; exact hserved) rfl trivial
    have hdispatch : server.answer provenance (.get ledger since 0) s =
        ((Response.notFound (C := C)).encode, s) := by
      simp only [LedgerProtocol.answer, LedgerProtocol.dispatch, framed, h, Except.map,
        Option.elim_none, Response.encode]
    rw [hdispatch] at hrequest
    exact hrequest
  have hget : run (server.peer provenance) (Client.get C ledger since 0) ⟨s, served⟩ =
      (.ok none, ⟨s, served + 1⟩) := by
    rw [run_get, hanswer, received_encode (r := .notFound (C := C)) trivial trivial (by simp) rfl]
    rfl
  rw [Client.getAll, Client.getAllFrom, run_bind_of_ok hget]
  rfl

end Paging

/-! ## How many pages -/

section Rounds

variable {budget : Nat} {events : List Bytes}

/-- The costs of a longer page add up. -/
theorem costs_append (number : Nat) (encode : α → Bytes) (items others : List α) :
    costs number encode (items ++ others) = costs number encode items + costs number encode others := by
  rw [costs, List.map_append, List.sum_append]
  rfl

/-- The costs of a page are bounded by its events' lengths. -/
theorem costs_le (h : ∀ event ∈ events, event.length ≤ maxEventBytes) :
    costs 1 id events ≤ (events.map List.length).sum + 3 * events.length := by
  induction events with
  | nil => simp [costs]
  | cons event events ih =>
    have hrest := ih fun e he => h e (List.mem_cons_of_mem _ he)
    have hkey : varintLen (1 <<< 3 ||| 2) = 1 := varintLen_of_lt (by decide)
    have hlen := varintLen_le 1 event.length ((h event List.mem_cons_self).trans_lt (by decide))
    simp only [costs, List.map_cons, List.sum_cons, List.length_cons, id, entryLen] at hrest ⊢
    omega

/-- Every page but the last names as many events as a page may, or all but fills the budget. -/
theorem pageRounds_le (hbudget : maxEventBytes + 3 ≤ budget) (fuel : Nat) : ∀ events : List Bytes,
    (∀ event ∈ events, event.length ≤ maxEventBytes) → events.length < fuel →
    pageRounds budget fuel events ≤
      1 + events.length / maxGetLimit + costs 1 id events / (budget - (maxEventBytes + 2)) := by
  induction fuel with
  | zero => exact fun _ _ hfuel => absurd hfuel (Nat.not_lt_zero _)
  | succ fuel ih =>
    intro events hevents hfuel
    obtain ⟨hk, -, -, -, hover⟩ := fillBudget_spec 1 budget id (events.take maxGetLimit)
    rw [pageRounds]
    set k := pageCut 1 budget id (events.take maxGetLimit) with hkdef
    rw [List.length_take] at hk hover
    by_cases hmore : k < events.length
    · have hfirst : 0 < k := by
        obtain ⟨-, hpos, -⟩ := fillBudget_spec 1 budget id (events.take maxGetLimit)
        refine hpos fun hempty => ?_
        have hlength := congrArg List.length hempty
        have hlimit : 0 < maxGetLimit := by decide
        rw [List.length_take, List.length_nil] at hlength
        omega
      have hrest := ih (events.drop k)
        (fun event hevent => hevents event (List.mem_of_mem_drop hevent))
        (by rw [List.length_drop]; omega)
      have hsplit : costs 1 id events = costs 1 id (events.take k) + costs 1 id (events.drop k) := by
        rw [← costs_append, List.take_append_drop]
      rw [if_pos hmore]
      rw [List.length_drop] at hrest
      by_cases hcount : k = maxGetLimit
      · -- The page named as many events as it may.
        have hdiv : events.length / maxGetLimit = (events.length - maxGetLimit) / maxGetLimit + 1 := by
          rw [← Nat.add_div_right _ (by decide : 0 < maxGetLimit)]
          congr 1
          omega
        have hcosts : costs 1 id (events.drop k) / (budget - (maxEventBytes + 2)) ≤
            costs 1 id events / (budget - (maxEventBytes + 2)) :=
          Nat.div_le_div_right (by omega)
        rw [hcount] at hrest hcosts ⊢
        omega
      · -- The next event would have passed the budget.
        have hnext := hover (by omega)
        have hone : costs 1 id (events.take (k + 1)) ≤
            costs 1 id (events.take k) + (maxEventBytes + 3) := by
          rw [List.take_succ_eq_append_getElem hmore, costs_append]
          have hevent := entryLen_one_le (hevents _ (List.getElem_mem hmore))
          simpa [costs] using hevent
        have htake : (events.take maxGetLimit).take (k + 1) = events.take (k + 1) := by
          rw [List.take_take, Nat.min_eq_left (by omega)]
        rw [htake] at hnext
        have hdiv : costs 1 id (events.drop k) / (budget - (maxEventBytes + 2)) + 1 ≤
            costs 1 id events / (budget - (maxEventBytes + 2)) := by
          rw [← Nat.add_div_right _ (by omega : 0 < budget - (maxEventBytes + 2))]
          exact Nat.div_le_div_right (by omega)
        have hcounts : (events.length - k) / maxGetLimit ≤ events.length / maxGetLimit :=
          Nat.div_le_div_right (Nat.sub_le _ _)
        omega
    · rw [if_neg hmore, Nat.add_assoc]
      exact Nat.le_add_right 1 _

end Rounds

end Mabel.Net
