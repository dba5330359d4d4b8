import Mabel.Net.Client

/-!
# Serving requests

A connection carries many requests, each answered by one frame. A request is read under the frame
cap and its page cut to what a response may hold; a connection that has made all its requests is
closed. Who may read what is the store's to decide.
-/

namespace Mabel.Net

open Wire Validate

variable {C : Crypto} {σ : Type}

/-! ## Stores -/

/-- The ledger storage a sync server serves. Counts that reach it are clamped. -/
structure Store (C : Crypto) (σ : Type) where
  /-- Where a ledger ends, or nothing if it is not held. -/
  head : LedgerId → σ → Except StoreError (Option Head) × σ
  /-- Events from a sequence on, at most so many, or nothing if the ledger is not held. -/
  readFrom : LedgerId → Nat → Nat → σ → Except StoreError (Option EventPage) × σ
  push : LedgerId → List Bytes → Provenance C → σ → Except StoreError PushOutcome × σ
  /-- The enumerable ledgers, from an offset on, at most so many. -/
  list : Nat → Nat → σ → Except StoreError (Page LedgerSummary) × σ
  forks : Option LedgerId → Nat → Nat → σ → Except StoreError (Page (ForkRecord C)) × σ

/-! ## Caps -/

/-- The caps one server enforces on a connection and its frames. -/
structure ServerConfig where
  /-- Requests one connection may make before it is closed. -/
  maxRequestsPerConnection : Nat
  maxFrameBytes : Nat
  /-- Bytes a response body fills before it stops and sets `more`. -/
  responseBudgetBytes : Nat

/-- `RESPONSE_BUDGET_BYTES`: the rest of a frame covers the framing around the entries. -/
def responseBudgetBytes : Nat := maxFrameBytes - 64 * 1024

/-- `MAX_REQUESTS_PER_CONNECTION`. -/
def maxRequestsPerConnection : Nat := 64

/-- The caps of a server that is not told otherwise. -/
def ServerConfig.default : ServerConfig :=
  ⟨Net.maxRequestsPerConnection, Net.maxFrameBytes, Net.responseBudgetBytes⟩

/-- A limit of zero is absent on the wire and means as many as the cap. -/
def clamp (limit : UInt32) (cap : Nat) : Nat := if limit = 0 then cap else min limit.toNat cap

section Budget

variable {α : Type} (number budget : Nat) (encode : α → Bytes)

/-- Fill encoded entries behind those already taken, of a known size. -/
def fillFrom (used : Nat) (out : List Bytes) : List α → List Bytes × Bool
  | [] => (out, false)
  | item :: items =>
    let body := encode item
    let cost := entryLen number body
    if used + cost > budget ∧ out ≠ [] then (out, true)
    else fillFrom (used + cost) (out ++ [body]) items

/-- Fill entries into a byte budget, and say whether it had to stop early. -/
def fillBudget (items : List α) : List Bytes × Bool := fillFrom number budget encode 0 [] items

end Budget

/-! ## Answers -/

/-- Serves ledgers from a store. -/
structure LedgerProtocol (C : Crypto) (σ : Type) where
  store : Store C σ
  config : ServerConfig

/-- The frame of what a store answered. -/
def framed {α : Type} (reply : Except StoreError α × σ) (frame : α → Bytes) :
    Except StoreError Bytes × σ := (reply.1.map frame, reply.2)

namespace LedgerProtocol

variable (server : LedgerProtocol C σ)

/-- The frame of a page of events. -/
def eventsFrame (page : EventPage) : Bytes :=
  let filled := fillBudget 1 server.config.responseBudgetBytes id page.events
  eventsResponse filled.1 page.headSeq (page.more || filled.2)

/-- The frame of a page of ledgers. -/
def ledgersFrame (page : Page LedgerSummary) : Bytes :=
  let filled := fillBudget 1 server.config.responseBudgetBytes summaryEntry page.items
  ledgersResponse filled.1 (page.more || filled.2)

/-- The frame of a page of fork records. -/
def forksFrame (page : Page (ForkRecord C)) : Bytes :=
  let filled := fillBudget 1 server.config.responseBudgetBytes forkEntry page.items
  forksResponse filled.1 (page.more || filled.2)

/-- Ask the store for what a request names. -/
def dispatch (provenance : Provenance C) : Request → σ → Except StoreError Bytes × σ
  | .head ledger, s =>
    framed (server.store.head ledger s) fun head => head.elim notFoundResponse headResponse
  | .get ledger since limit, s =>
    framed (server.store.readFrom ledger since.toNat (clamp limit maxGetLimit) s) fun page =>
      page.elim notFoundResponse server.eventsFrame
  | .push ledger events, s => framed (server.store.push ledger events provenance s) acceptedResponse
  | .list offset limit, s =>
    framed (server.store.list offset.toNat (clamp limit maxListLimit) s) server.ledgersFrame
  | .forks ledger offset limit, s =>
    framed (server.store.forks ledger offset.toNat (clamp limit maxForksLimit) s) server.forksFrame

/-- Answer a request. A store that failed is one that is busy: the protocol has no other code. -/
def answer (provenance : Provenance C) (request : Request) (s : σ) : Bytes × σ :=
  match server.dispatch provenance request s with
  | (.ok frame, s) => (frame, s)
  | (.error (.rejected rejection), s) => (rejectedResponse rejection, s)
  | (.error (.unavailable _), s) =>
    (rejectedResponse (.new .busy "the store cannot answer right now"), s)

/-- Answer one request frame with one response frame, if a verification slot is free. A frame whose
reading panics is answered by nothing. -/
def handleFrame (free : Bool) (provenance : Provenance C) (frame : Bytes) (s : σ) :
    Option Bytes × σ :=
  if !free then (some (rejectedResponse (.new .busy "the verification queue is full, retry")), s)
  else
    match parseRequest C frame with
    | .ok request => (some (server.answer provenance request s).1,
        (server.answer provenance request s).2)
    | .error (.reject rejection) => (some (rejectedResponse rejection), s)
    | .error (.panic _) => (none, s)

/-- Read one request frame and answer it, or answer the frame cap. -/
def serveStream (free : Bool) (provenance : Provenance C) (frame : Bytes) (s : σ) :
    Option Bytes × σ :=
  if frame.length ≤ server.config.maxFrameBytes then server.handleFrame free provenance frame s
  else (some (rejectedResponse (.new .tooLarge "the request frame is over the 4 MiB cap")), s)

end LedgerProtocol

/-! ## Connections -/

/-- What a connection of a server sees. -/
structure Connection (σ : Type) where
  store : σ
  /-- Requests the connection has made. -/
  served : Nat

/-- A connection is served until it has made all its requests and is closed. Whether a verification
slot is free is up to the other connections. -/
def LedgerProtocol.accept (server : LedgerProtocol C σ) (free : Nat → Bool)
    (provenance : Provenance C) : Peer (Connection σ) := fun frame connection =>
  if connection.served < server.config.maxRequestsPerConnection then
    let answered := server.serveStream (free connection.served) provenance frame connection.store
    (answered.1, ⟨answered.2, connection.served + 1⟩)
  else (none, connection)

end Mabel.Net
