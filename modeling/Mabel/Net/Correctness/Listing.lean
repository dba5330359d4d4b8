import Mabel.Net.Correctness.Answers

/-!
# Listings a client reads

A page of a listing arrives as the store answered it, cut to the budget of a frame. Fork records are
verified one by one against the ledgers the same connection serves, which spends the requests it has
left.
-/

namespace Mabel.Net

open Wire Proto Program Validate

variable {C : Crypto} {σ α : Type}

/-! ## Pages that are cut -/

/-- What of a page is sent: a first part of it, empty only with it, and whether more follows. -/
theorem Page.cut_spec (budget : Nat) (encode : α → Bytes) (page : Page α) :
    (page.cut budget encode).items <+: page.items ∧
      ((page.cut budget encode).items = [] → page.items = []) ∧
      (page.cut budget encode).more =
        (page.more || decide ((page.cut budget encode).items.length < page.items.length)) := by
  obtain ⟨hle, hpos, -⟩ := fillBudget_spec 1 budget encode page.items
  refine ⟨List.take_prefix _ _, fun hempty => ?_, ?_⟩
  · by_contra hne
    have hlength := congrArg List.length hempty
    rw [Page.cut, List.length_take_of_le hle, List.length_nil] at hlength
    exact (hpos hne).ne' hlength
  · rw [Page.cut, List.length_take_of_le hle]

section Server

variable {server : LedgerProtocol C σ} {provenance : Provenance C} {s t : σ} {served : Nat}

/-- The response a server answers a request with is what the client receives. -/
theorem peer_received (hconfig : server.config = .default)
    (hserved : served < maxRequestsPerConnection) (request : Request)
    (hrequest : request.Sendable C) {r : Response C}
    (hanswer : server.answer provenance request s = (r.encode, t)) (hr : r.Sendable)
    (hshort : r.Short) (hnot : ∀ rejection, r ≠ .rejected rejection)
    (hencode : r.encode = envelope r.number r.entries) :
    received C (server.peer provenance request.encode ⟨s, served⟩).1 = .ok r ∧
      (server.peer provenance request.encode ⟨s, served⟩).2 = ⟨t, served + 1⟩ := by
  have hpeer : server.peer provenance request.encode ⟨s, served⟩ =
      (some (server.answer provenance request s).1,
        ⟨(server.answer provenance request s).2, served + 1⟩) :=
    accept_answer (by rw [hconfig]; rfl) (by rw [hconfig]; exact hserved) rfl hrequest
  rw [hpeer, hanswer]
  exact ⟨received_encode hr hshort hnot hencode, rfl⟩

/-- A page of ledgers is read as the store answered it, cut to the budget. -/
theorem run_list_listed (hconfig : server.config = .default)
    (hserved : served < maxRequestsPerConnection) {offset limit : UInt32}
    {page : Page LedgerSummary}
    (hlist : server.store.list offset.toNat (clamp limit maxListLimit) s = (.ok page, s))
    (hpage : (Response.ledgers (C := C) (page.cut responseBudgetBytes summaryEntry)).Sendable) :
    run (server.peer provenance) (Client.list C offset limit) ⟨s, served⟩ =
      (.ok (page.cut responseBudgetBytes summaryEntry), ⟨s, served + 1⟩) := by
  have hanswer : server.answer provenance (.list offset limit) s =
      ((Response.ledgers (C := C) (page.cut responseBudgetBytes summaryEntry)).encode, s) := by
    simp only [LedgerProtocol.answer, LedgerProtocol.dispatch, framed, hlist, Except.map,
      ledgersFrame_eq, hconfig, ServerConfig.default]
  obtain ⟨hreceived, hleft⟩ := peer_received hconfig hserved (.list offset limit) trivial hanswer
    hpage trivial (by simp) rfl
  change received C (server.peer provenance (listRequest offset limit) ⟨s, served⟩).1 = _ at hreceived
  rw [run_list, hreceived]
  exact congrArg (Prod.mk _) hleft

/-- A page of fork records is read as the store answered it, cut to the budget. -/
theorem run_forksUnverified_listed (hconfig : server.config = .default)
    (hserved : served < maxRequestsPerConnection) {ledger : Option LedgerId}
    {offset limit : UInt32} {page : Page (ForkRecord C)}
    (hforks : server.store.forks ledger offset.toNat (clamp limit maxForksLimit) s = (.ok page, s))
    (hpage : (Response.forks (page.cut responseBudgetBytes forkEntry)).Sendable) :
    run (server.peer provenance) (Client.forksUnverified C ledger offset limit) ⟨s, served⟩ =
      (.ok (page.cut responseBudgetBytes forkEntry), ⟨s, served + 1⟩) := by
  have hanswer : server.answer provenance (.forks ledger offset limit) s =
      ((Response.forks (page.cut responseBudgetBytes forkEntry)).encode, s) := by
    simp only [LedgerProtocol.answer, LedgerProtocol.dispatch, framed, hforks, Except.map,
      forksFrame_eq, hconfig, ServerConfig.default]
  obtain ⟨hreceived, hleft⟩ := peer_received hconfig hserved (.forks ledger offset limit) trivial
    hanswer hpage trivial (by simp) rfl
  change received C (server.peer provenance (forksRequest ledger offset limit) ⟨s, served⟩).1 = _
    at hreceived
  rw [run_forksUnverified, hreceived]
  exact congrArg (Prod.mk _) hleft

/-! ## Verifying fork records -/

/-- In this state a store serves what bears out a fork record. -/
structure Store.BearsOut (store : Store C σ) (s : σ) (record : ForkRecord C) (log : List Bytes) :
    Prop where
  keeps : store.Keeps s record.ledger log
  seq : record.seq ≠ 0
  holds : Client.recordHolds record log = .ok true

/-- How many requests verify some fork records. -/
def verifyRequests (logOf : LedgerId → List Bytes) (records : List (ForkRecord C)) : Nat :=
  (records.map fun record => getRequests responseBudgetBytes (logOf record.ledger)).sum

/-- A record that is borne out verifies, if the connection has the requests left. -/
theorem run_forkVerifies (provenance : Provenance C) (hconfig : server.config = .default)
    {record : ForkRecord C} {log : List Bytes} (h : server.store.BearsOut s record log) {rounds : Nat}
    (hrounds : getRequests responseBudgetBytes log ≤ rounds)
    (hserved : served ≤ maxRequestsPerConnection) :
    run (server.peer provenance) (Client.forkVerifies rounds record) ⟨s, served⟩ =
      if served + getRequests responseBudgetBytes log ≤ maxRequestsPerConnection then
        (.ok true, ⟨s, served + getRequests responseBudgetBytes log⟩)
      else (Outcome.reject (.failed .connection), ⟨s, maxRequestsPerConnection⟩) := by
  have hget : run (server.peer provenance) (Client.getAllFrom C record.ledger rounds 0 [])
      ⟨s, served⟩ = _ := run_getAllFrom_kept hconfig h.keeps
    (log.length + 1) rounds served 0 [] (Nat.lt_succ_self _) hrounds hserved
  rw [Client.forkVerifies, if_neg h.seq, Client.getAll]
  by_cases hleft : served + getRequests responseBudgetBytes log ≤ maxRequestsPerConnection
  · rw [if_pos hleft, run_bind_of_ok (hget.trans (if_pos hleft))]
    change (Client.recordHolds record log, _) = _
    rw [h.holds]
    rfl
  · rw [if_neg hleft, run_bind_of_error (hget.trans (if_neg hleft))]
    rfl

/-- Records that are borne out all verify, if the connection has the requests left. -/
theorem run_verifyRecords (hconfig : server.config = .default) (logOf : LedgerId → List Bytes)
    {rounds : Nat} (records : List (ForkRecord C)) : ∀ {served : Nat},
    (∀ record ∈ records, server.store.BearsOut s record (logOf record.ledger) ∧
      getRequests responseBudgetBytes (logOf record.ledger) ≤ rounds) →
    served ≤ maxRequestsPerConnection →
    run (server.peer provenance) (Client.verifyRecords rounds records) ⟨s, served⟩ =
      if served + verifyRequests logOf records ≤ maxRequestsPerConnection then
        (.ok (records, 0), ⟨s, served + verifyRequests logOf records⟩)
      else (Outcome.reject (.failed .connection), ⟨s, maxRequestsPerConnection⟩) := by
  induction records with
  | nil =>
    intro served _ hserved
    rw [verifyRequests, List.map_nil, List.sum_nil, Nat.add_zero, if_pos hserved]
    rfl
  | cons record records ih =>
    intro served hrecords hserved
    obtain ⟨⟨hborne, hrounds⟩, hrest⟩ := List.forall_mem_cons.mp hrecords
    have hfirst := run_forkVerifies provenance hconfig hborne hrounds hserved
    have hcost : verifyRequests logOf (record :: records) =
        getRequests responseBudgetBytes (logOf record.ledger) + verifyRequests logOf records := by
      rw [verifyRequests, List.map_cons, List.sum_cons]
      rfl
    rw [Client.verifyRecords, hcost, ← Nat.add_assoc]
    by_cases hleft : served + getRequests responseBudgetBytes (logOf record.ledger) ≤
        maxRequestsPerConnection
    · have hothers := ih hrest hleft
      rw [run_bind_of_ok (hfirst.trans (if_pos hleft))]
      by_cases hall : served + getRequests responseBudgetBytes (logOf record.ledger) +
          verifyRequests logOf records ≤ maxRequestsPerConnection
      · rw [if_pos hall, run_bind_of_ok (hothers.trans (if_pos hall))]
        rfl
      · rw [if_neg hall, run_bind_of_error (hothers.trans (if_neg hall))]
        rfl
    · rw [run_bind_of_error (hfirst.trans (if_neg hleft)), if_neg (by omega)]
      rfl

end Server

end Mabel.Net
