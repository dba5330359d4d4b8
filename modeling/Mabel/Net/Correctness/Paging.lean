import Mabel.Net.Client
import Mabel.Net.Correctness.Nesting
import Mabel.Net.Correctness.RoundTrip

/-!
# What ends the paging of a ledger

Each round of a call sends one frame and looks at one answer, so the peer's answers decide how
long a loop goes on. A page with events that claims more is followed by another request, and
nothing but another kind of answer ends the loop.
-/

namespace Mabel.Net

open Wire Program Validate

variable {C : Crypto}

/-! ## One request -/

/-- The frame an answer is. -/
def arrived : Option Bytes → Outcome Stop Bytes
  | some answer =>
    if answer.length ≤ maxFrameBytes then .ok answer
    else Outcome.reject (.failed .responseTooLarge)
  | none => Outcome.reject (.failed .connection)

/-- A rejection is an error. -/
def granted : Response C → Outcome Stop (Response C)
  | .rejected rejection => Outcome.reject (.failed (.rejected rejection))
  | other => .ok other

/-- What a client makes of an answer: the response it carries. -/
def received (C : Crypto) (answer : Option Bytes) : Outcome Stop (Response C) := do
  let frame ← arrived answer
  let response ← Outcome.mapReject (fun e => Stop.failed e.toClient) (parseResponse C frame)
  granted response

/-- The page of events an answer to a `Get` carries, if the peer holds the ledger. -/
def eventsOf : Response C → Outcome Stop (Option EventPage)
  | .events page => .ok (some page)
  | .notFound => .ok none
  | other => Outcome.reject (.failed (.unexpectedResponse "Get" other.name))

/-- The page of ledgers an answer carries. -/
def ledgersOf : Response C → Outcome Stop (Page LedgerSummary)
  | .ledgers page => .ok page
  | other => Outcome.reject (.failed (.unexpectedResponse "List" other.name))

/-- The page of fork records an answer carries. -/
def forksOf : Response C → Outcome Stop (Page (ForkRecord C))
  | .forks page => .ok page
  | other => Outcome.reject (.failed (.unexpectedResponse "Forks" other.name))

section Peer

variable {σ : Type} (peer : Peer σ) (s : σ)

/-- A request sends its frame once and reads what came back. -/
theorem run_request (frame : Bytes) :
    run peer (Client.request C frame) s = (received C (peer frame s).1, (peer frame s).2) := by
  have hsend : run peer (Client.sendFrame frame) s =
      (arrived (peer frame s).1, (peer frame s).2) := by
    rw [Client.sendFrame, run_ask_bind]
    cases (peer frame s).1 with
    | none => rfl
    | some answer => by_cases hsize : answer.length ≤ maxFrameBytes <;> simp [arrived, hsize, failWith]
  refine run_bind_settled hsend fun answer => ?_
  refine run_lift_bind_reads fun response => ?_
  cases response <;> rfl

/-- A get is one request and what it answers. -/
theorem run_get (ledger : LedgerId) (since : UInt64) (limit : UInt32) :
    run peer (Client.get C ledger since limit) s =
      (received C (peer (getRequest ledger since limit) s).1 >>= eventsOf,
        (peer (getRequest ledger since limit) s).2) := by
  refine run_bind_settled (run_request peer s _) fun response => ?_
  cases response <;> rfl

/-- A list is one request and what it answers. -/
theorem run_list (offset limit : UInt32) : run peer (Client.list C offset limit) s =
    (received C (peer (listRequest offset limit) s).1 >>= ledgersOf,
      (peer (listRequest offset limit) s).2) := by
  refine run_bind_settled (run_request peer s _) fun response => ?_
  cases response <;> rfl

/-- A forks request is one request and what it answers. -/
theorem run_forksUnverified (ledger : Option LedgerId) (offset limit : UInt32) :
    run peer (Client.forksUnverified C ledger offset limit) s =
      (received C (peer (forksRequest ledger offset limit) s).1 >>= forksOf,
        (peer (forksRequest ledger offset limit) s).2) := by
  refine run_bind_settled (run_request peer s _) fun response => ?_
  cases response <;> rfl

end Peer

/-! ## Answers that end a loop -/

/-- A call has returned: it answered, or it failed with an error of its own. -/
def Returned {α : Type} : Outcome Stop α → Prop
  | .ok _ => True
  | .error (.reject (.failed _)) => True
  | .error (.reject .unfinished) => False
  | .error (.panic _) => False

/-- An answer that makes the client ask again: a page that has events and claims more. -/
def Prolongs (C : Crypto) (answer : Option Bytes) : Prop :=
  ∃ frame page, answer = some frame ∧ parseResponse C frame = .ok (.events page) ∧
    page.more = true ∧ page.events ≠ []

/-- A page of events that is read is within its table. -/
theorem parseResponse_events {frame : Bytes} {page : EventPage}
    (h : parseResponse C frame = .ok (.events page)) :
    frame.length ≤ maxFrameBytes ∧ page.events.length ≤ maxGetLimit := by
  obtain ⟨_, hmessage, -⟩ := Outcome.bind_eq_ok.mp h
  rw [Outcome.mapReject_eq_ok] at hmessage
  obtain ⟨hsize, number, sub, es, ⟨⟨name, hvariant⟩, -, hes⟩, rfl⟩ :=
    isFrame_response.accepts_iff.mp hmessage
  rw [parseResponse_envelope hmessage] at h
  refine ⟨hsize, ?_⟩
  obtain rfl : number = 2 := by
    unfold readResponse at h
    split at h <;> simp_all [Outcome.bind_eq_ok]
  obtain ⟨-, rfl⟩ : name = "events" ∧ sub = Descriptors.eventsResp := by
    simpa [Descriptors.response, Validate.variant] using hvariant
  obtain ⟨events, headSeq, more, ⟨⟨hcount, -⟩, -⟩, rfl⟩ := admits_eventsResp.mp hes
  have hread := Response.read_entries (C := C) (r := .events ⟨events, headSeq, more⟩) trivial
  simp only [Response.number, Response.entries] at hread
  rw [hread] at h
  cases h
  exact hcount

/-- Reading a response never panics. -/
theorem readResponse_noPanic (number : Nat) (inner : List Entry) :
    Outcome.NoPanic (readResponse C number inner) := by
  unfold readResponse
  split
  · exact .bind .orReject fun _ _ => .ok
  · exact .ok
  · exact .ok
  · exact .bind (.mapM fun _ _ => .orReject) fun _ _ => .ok
  · exact .bind (.mapM fun _ _ => .orReject) fun _ _ => .ok
  · exact .ok
  · exact .bind .orReject fun _ _ => .bind .orReject fun _ _ => .ok
  · exact .reject

/-- Reading a response frame never panics. -/
theorem parseResponse_noPanic (frame : Bytes) : Outcome.NoPanic (parseResponse C frame) := by
  have hmem : Descriptors.response ∈ containerDescriptors := by
    simp [containerDescriptors, syncDescriptors]
  have hmessage : Outcome.NoPanic (message C Descriptors.response frame) :=
    (framed_noPanic 3 _ (containers_framed _ hmem) frame 0).bind fun _ _ => .ok
  exact hmessage.mapReject.bind fun _ _ => .bind .orReject fun _ _ => .bind .orReject fun _ _ =>
    .bind .orReject fun _ _ => readResponse_noPanic _ _

theorem Returned.error {α β : Type} {e : Fault Stop} (h : Returned (.error e : Outcome Stop α)) :
    Returned (.error e : Outcome Stop β) := by
  rcases e with (_ | _) | _ <;> exact h

/-- What a client makes of an answer is a return. -/
theorem returned_received (answer : Option Bytes) : Returned (received C answer) := by
  rcases answer with _ | frame
  · trivial
  · unfold received arrived
    by_cases hsize : frame.length ≤ maxFrameBytes
    · simp only [hsize, if_true, Outcome.ok_bind]
      rcases hparse : parseResponse C frame with (e | site) | response
      · trivial
      · exact absurd hparse (parseResponse_noPanic frame site)
      · cases response <;> trivial
    · simp only [hsize, if_false]
      trivial

/-- A response is received exactly if it is what the frame is read as and is no rejection. -/
theorem received_eq_ok {answer : Option Bytes} {response : Response C} :
    received C answer = .ok response ↔ ∃ frame, answer = some frame ∧
      frame.length ≤ maxFrameBytes ∧ parseResponse C frame = .ok response ∧
      granted response = .ok response := by
  have hgranted : ∀ {r : Response C}, granted r = .ok response → r = response := by
    intro r h
    cases r <;> first | exact Except.ok.inj h | exact absurd h Outcome.reject_ne_ok
  constructor
  · intro h
    obtain ⟨frame, harrived, hrest⟩ := Outcome.bind_eq_ok.mp h
    obtain ⟨r, hparse, hresponse⟩ := Outcome.bind_eq_ok.mp hrest
    obtain rfl := hgranted hresponse
    rw [Outcome.mapReject_eq_ok] at hparse
    obtain rfl | ⟨bytes, rfl⟩ := answer.eq_none_or_eq_some
    · exact absurd harrived Outcome.reject_ne_ok
    · simp only [arrived] at harrived
      split_ifs at harrived with hsize
      · obtain rfl := Except.ok.inj harrived
        exact ⟨bytes, rfl, hsize, hparse, hresponse⟩
      · exact absurd harrived Outcome.reject_ne_ok
  · rintro ⟨frame, rfl, hsize, hparse, hresponse⟩
    simp only [received, arrived, hsize, if_true, Outcome.ok_bind, hparse, Outcome.mapReject_ok]
    exact hresponse

/-! ## The loop -/

section Loop

variable {σ : Type} {peer : Peer σ} {s : σ} {ledger : LedgerId} {next : UInt64}

/-- A page that prolongs the loop is followed by another round. -/
theorem run_getAllFrom_prolonged (h : Prolongs C (peer (getRequest ledger next 0) s).1)
    (all : List Bytes) : ∃ next' all', ∀ rounds,
      run peer (Client.getAllFrom C ledger (rounds + 1) next all) s =
        run peer (Client.getAllFrom C ledger rounds next' all')
          (peer (getRequest ledger next 0) s).2 := by
  obtain ⟨frame, page, hanswer, hparse, hmore, hevents⟩ := h
  obtain ⟨hsize, hcount⟩ := parseResponse_events hparse
  have hreceived : received C (peer (getRequest ledger next 0) s).1 = .ok (.events page) :=
    received_eq_ok.mpr ⟨frame, hanswer, hsize, hparse, rfl⟩
  have hget : run peer (Client.get C ledger next 0) s =
      (.ok (some page), (peer (getRequest ledger next 0) s).2) := by
    rw [run_get, hreceived]
    rfl
  have hne : UInt64.ofNat page.events.length ≠ 0 := by
    have hpos := List.length_pos_iff.mpr hevents
    have hcap : page.events.length ≤ 512 := hcount
    intro hzero
    have := congrArg UInt64.toNat hzero
    rw [UInt64.toNat_ofNat', Nat.mod_eq_of_lt (by omega)] at this
    exact absurd this hpos.ne'
  refine ⟨next + UInt64.ofNat page.events.length, all ++ page.events, fun rounds => ?_⟩
  rw [Client.getAllFrom, run_bind_of_ok hget]
  simp only [hmore, Bool.not_true, Bool.false_eq_true, if_false, hne]

/-- Any other answer ends the loop. -/
theorem run_getAllFrom_ended (h : ¬ Prolongs C (peer (getRequest ledger next 0) s).1)
    (rounds : Nat) (all : List Bytes) :
    Returned (run peer (Client.getAllFrom C ledger (rounds + 1) next all) s).1 := by
  have hreturned := returned_received (C := C) (peer (getRequest ledger next 0) s).1
  have hget := run_get (C := C) peer s ledger next 0
  rw [Client.getAllFrom]
  cases hreceived : received C (peer (getRequest ledger next 0) s).1 with
  | error e =>
    rw [hreceived] at hreturned hget
    rw [run_bind_of_error hget]
    exact hreturned.error
  | ok response =>
    rw [hreceived] at hget
    cases response with
    | events page =>
      rw [run_bind_of_ok hget]
      cases hmore : page.more with
      | false =>
        simp only [hmore, Bool.not_false, if_true]
        trivial
      | true =>
        obtain ⟨frame, hanswer, -, hparse, -⟩ := received_eq_ok.mp hreceived
        have hempty : page.events = [] := by
          by_contra hevents
          exact h ⟨frame, page, hanswer, hparse, hmore, hevents⟩
        simp only [hmore, hempty, Bool.not_true, Bool.false_eq_true, if_false]
        trivial
    | notFound =>
      rw [run_bind_of_ok hget]
      trivial
    | _ =>
      rw [run_bind_of_error hget]
      trivial

end Loop

/-- A peer that answers a fixed sequence, whatever it is asked. -/
def answering (answers : Nat → Option Bytes) : Peer Nat := fun _ sent => (answers sent, sent + 1)

section Answering

variable {answers : Nat → Option Bytes} {ledger : LedgerId}

/-- Rounds of prolonging answers end where the loop still asks. -/
theorem run_getAllFrom_unfinished (rounds : Nat) : ∀ {sent : Nat} {next : UInt64}
    {all : List Bytes}, (∀ i < rounds, Prolongs C (answers (sent + i))) →
      run (answering answers) (Client.getAllFrom C ledger rounds next all) sent =
        (Outcome.reject .unfinished, sent + rounds) := by
  induction rounds with
  | zero => exact fun _ => rfl
  | succ rounds ih =>
    intro sent next all h
    have hfirst : Prolongs C (answering answers (getRequest ledger next 0) sent).1 :=
      h 0 (Nat.succ_pos rounds)
    obtain ⟨next', all', hrun⟩ := run_getAllFrom_prolonged hfirst all
    rw [hrun, answering, ih fun i hi => ?_, Nat.add_right_comm, Nat.add_assoc]
    rw [Nat.add_right_comm, Nat.add_assoc]
    exact h (i + 1) (Nat.succ_lt_succ hi)

/-- The first answer that does not prolong the loop ends it. -/
theorem returned_getAllFrom (i : Nat) : ∀ {sent : Nat} {next : UInt64} {all : List Bytes},
    ¬ Prolongs C (answers (sent + i)) →
      ∃ rounds, Returned (run (answering answers) (Client.getAllFrom C ledger rounds next all)
        sent).1 := by
  induction i with
  | zero => exact fun h => ⟨1, run_getAllFrom_ended h 0 _⟩
  | succ i ih =>
    intro sent next all h
    by_cases hfirst : Prolongs C (answering answers (getRequest ledger next 0) sent).1
    · have hlater : ¬ Prolongs C (answers (sent + 1 + i)) := by
        rw [Nat.add_right_comm, Nat.add_assoc]
        exact h
      obtain ⟨next', all', hrun⟩ := run_getAllFrom_prolonged hfirst all
      obtain ⟨rounds, hreturned⟩ := ih hlater
      refine ⟨rounds + 1, ?_⟩
      rw [hrun]
      exact hreturned
    · exact ⟨1, run_getAllFrom_ended hfirst 0 all⟩

end Answering

/-- Whatever a peer answers, paging a ledger returns after some number of requests exactly if one
of the answers is something else than a page that has events and claims more. -/
theorem get_all_returns_iff (C : Crypto) (answers : Nat → Option Bytes) (ledger : LedgerId)
    (since : UInt64) :
    (∃ rounds, Returned (run (answering answers) (Client.getAll C rounds ledger since) 0).1) ↔
      ∃ i, ¬ Prolongs C (answers i) := by
  constructor
  · rintro ⟨rounds, hreturned⟩
    by_contra hnone
    have hall : ∀ i, Prolongs C (answers i) := fun i => not_not.mp fun hi => hnone ⟨i, hi⟩
    rw [Client.getAll, run_getAllFrom_unfinished rounds fun i _ => hall _] at hreturned
    exact hreturned
  · rintro ⟨i, hi⟩
    exact returned_getAllFrom i (by rwa [Nat.zero_add])

/-- A peer whose every answer is one event and a claim of more is asked without end. -/
theorem get_all_endless :
    let page : EventPage := ⟨sampleLedger.take 1, 0, true⟩
    let answer := eventsResponse page.events page.headSeq page.more
    parseResponse Crypto.sample answer = .ok (.events page) ∧
      ∀ rounds, ¬ Returned (run (answering fun _ => some answer)
        (Client.getAll Crypto.sample rounds ⟨.ofNat idBytes 1⟩ 0) 0).1 := by
  have hparse : parseResponse Crypto.sample (eventsResponse (sampleLedger.take 1) 0 true) =
      .ok (.events ⟨sampleLedger.take 1, 0, true⟩) := by decide +kernel
  refine ⟨hparse, fun rounds hreturned => ?_⟩
  rw [Client.getAll, run_getAllFrom_unfinished rounds fun i _ => ?_] at hreturned
  · exact hreturned
  · exact ⟨_, _, rfl, hparse, rfl, by decide +kernel⟩

end Mabel.Net
