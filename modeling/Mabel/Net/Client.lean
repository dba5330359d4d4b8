import Mabel.Core.Program
import Mabel.Ledger.Fork
import Mabel.Net.Frames

/-!
# The client side of a connection

One client owns one connection and reuses it: a request is one frame on a stream of its own,
and the answer is one frame, validated before it is read. A call is a program whose only
operation sends a frame, so the peer that answers is what the program runs against.

A loop that pages until the peer says there is no more has no bound of its own. It is given a
number of rounds and stops unfinished when they are used up.
-/

namespace Mabel.Net

open Wire Program

variable {C : Crypto}

/-! ## Calls -/

/-- Why a client call did not produce an answer. -/
inductive ClientError where
  /-- The connection or one of its streams failed. -/
  | connection
  /-- The response frame is over the frame cap. -/
  | responseTooLarge
  /-- The response frame did not pass the field table. -/
  | malformed (error : WireError)
  /-- The peer answered `RejectedResp`. -/
  | rejected (rejection : Rejection)
  /-- The peer answered a variant this request never gets. -/
  | unexpectedResponse (sent got : String)
  /-- The peer answered a well-formed frame that contradicts the protocol. -/
  | protocol (msg : String)
  /-- The caller asked to push more than one `Push` may carry. -/
  | pushTooLarge (events bytes : Nat)
  deriving DecidableEq, Repr

/-- How a call stops without an answer. -/
inductive Stop where
  | failed (error : ClientError)
  /-- The call still asks after the rounds it was given. -/
  | unfinished
  deriving DecidableEq, Repr

/-- What the other end of a connection does with a frame: the bytes that come back on its
stream, or nothing where the stream fails. -/
abbrev Peer (σ : Type) := Bytes → σ → Option Bytes × σ

/-- A call on a connection. -/
abbrev Call (α : Type) := Program Bytes (fun _ => Option Bytes) Stop α

/-- Stop with an error. -/
def failWith {α : Type} (error : ClientError) : Call α := .lift (Outcome.reject (.failed error))

def ResponseError.toClient : ResponseError → ClientError
  | .malformed error => .malformed error
  | .protocol msg => .protocol msg

def Response.name : Response C → String
  | .head .. => "Head"
  | .events .. => "Events"
  | .accepted .. => "Accepted"
  | .ledgers .. => "Ledgers"
  | .forks .. => "Forks"
  | .notFound => "NotFound"
  | .rejected .. => "Rejected"

def unexpected {α : Type} (sent : String) (got : Response C) : Call α :=
  failWith (.unexpectedResponse sent got.name)

/-- One page of fork records that were verified, and how many were not. -/
structure ForksPage (C : Crypto) where
  verified : List (ForkRecord C)
  /-- How many records the peer served that did not verify and were dropped. -/
  rejected : Nat
  /-- Whether records past this page exist, as the peer reported it. -/
  more : Bool
  deriving DecidableEq

namespace Client

/-- Send one request frame and return the response frame, validating neither. -/
def sendFrame (frame : Bytes) : Call Bytes := do
  match ← Program.ask frame with
  | some answer => if answer.length ≤ maxFrameBytes then pure answer else failWith .responseTooLarge
  | none => failWith .connection

/-- Send a request and read the answer, turning `RejectedResp` into an error. -/
def request (C : Crypto) (frame : Bytes) : Call (Response C) := do
  let answer ← sendFrame frame
  match ← Program.lift (Outcome.mapReject (fun e => .failed e.toClient) (parseResponse C answer))
    with
  | .rejected rejection => failWith (.rejected rejection)
  | other => pure other

/-- Where a ledger ends. -/
def head (C : Crypto) (ledger : LedgerId) : Call (Option Head) := do
  match ← request C (headRequest ledger) with
  | .head head => pure (some head)
  | .notFound => pure none
  | other => unexpected "Head" other

/-- One page of a ledger's events from `since` on. -/
def get (C : Crypto) (ledger : LedgerId) (since : UInt64) (limit : UInt32) :
    Call (Option EventPage) := do
  match ← request C (getRequest ledger since limit) with
  | .events page => pure (some page)
  | .notFound => pure none
  | other => unexpected "Get" other

/-- The loop of `getAll`. The next sequence wraps where the sum passes 64 bits. -/
def getAllFrom (C : Crypto) (ledger : LedgerId) : Nat → UInt64 → List Bytes →
    Call (Option (List Bytes))
  | 0, _, _ => .lift (Outcome.reject .unfinished)
  | rounds + 1, next, all => do
    match ← get C ledger next 0 with
    | none => pure none
    | some page =>
      let count := UInt64.ofNat page.events.length
      if !page.more then pure (some (all ++ page.events))
      else if count = 0 then
        failWith (.protocol "a Get page claims more events but carries none")
      -- The page is contiguous from `next`, so the next page starts one past its last event.
      else getAllFrom C ledger rounds (next + count) (all ++ page.events)

/-- Every event from `since` on, paging until `more` is false. -/
def getAll (C : Crypto) (rounds : Nat) (ledger : LedgerId) (since : UInt64) :
    Call (Option (List Bytes)) := getAllFrom C ledger rounds since []

/-- Offer events for a ledger. -/
def push (C : Crypto) (ledger : LedgerId) (events : List Bytes) : Call PushOutcome := do
  let bytes := (events.map List.length).sum
  if events.length > maxPushEvents ∨ bytes > maxPushBytes then
    failWith (.pushTooLarge events.length bytes)
  else
    match ← request C (pushRequest ledger events) with
    | .accepted outcome => pure outcome
    | other => unexpected "Push" other

/-- One page of the peer's ledgers, by ascending ledger id. -/
def list (C : Crypto) (offset limit : UInt32) : Call (Page LedgerSummary) := do
  match ← request C (listRequest offset limit) with
  | .ledgers page => pure page
  | other => unexpected "List" other

/-- One page of fork records exactly as the peer served them. -/
def forksUnverified (C : Crypto) (ledger : Option LedgerId) (offset limit : UInt32) :
    Call (Page (ForkRecord C)) := do
  match ← request C (forksRequest ledger offset limit) with
  | .forks page => pure page
  | other => unexpected "Forks" other

/-- Whether the events below a record's sequence fold to a prefix both of its events apply
to. -/
def recordHolds (record : ForkRecord C) (events : List Bytes) : Outcome Stop Bool :=
  if events.length < record.seq then .ok false
  else
    match fold C (events.take record.seq) with
    | .ok (shared, violation) =>
      if violation.isSome ∨ shared.ledger ≠ some record.ledger then .ok false
      else
        match validateForkRecord shared record.kept record.conflicting with
        | .ok _ => .ok true
        | .error (.reject _) => .ok false
        | .error (.panic site) => Outcome.panic site
    | .error (.panic site) => Outcome.panic site

/-- Whether one fork record is what it claims, checked against the events this same peer
serves for the ledger it names. -/
def forkVerifies (rounds : Nat) (record : ForkRecord C) : Call Bool := do
  -- Seq 0 cannot fork: the ledger id is the id of the seq-0 event.
  if record.seq = 0 then pure false
  else
    match ← getAll C rounds record.ledger 0 with
    | none => pure false
    | some events => .lift (recordHolds record events)

/-- Verify the records of a page in order, counting those that do not verify. -/
def verifyRecords (rounds : Nat) : List (ForkRecord C) → Call (List (ForkRecord C) × Nat)
  | [] => pure ([], 0)
  | record :: records => do
    let verifies ← forkVerifies rounds record
    let (verified, rejected) ← verifyRecords rounds records
    pure (if verifies then (record :: verified, rejected) else (verified, rejected + 1))

/-- One page of fork records, each checked against the ledger it names. -/
def forks (C : Crypto) (rounds : Nat) (ledger : Option LedgerId) (offset limit : UInt32) :
    Call (ForksPage C) := do
  let page ← forksUnverified C ledger offset limit
  let (verified, rejected) ← verifyRecords rounds page.items
  pure ⟨verified, rejected, page.more⟩

end Client

end Mabel.Net
