import Mabel.Net.Descriptors
import Mabel.Net.Wire

/-!
# Sync frames

The canonical encoders of requests and responses, and the readers that validate a frame
against its field table and then read it by hand. An event is copied into a frame and out of
it as the same byte string.
-/

namespace Mabel.Net

open Wire Proto Validate

variable {C : Crypto}

/-! ## Values -/

/-- What a client asked for. -/
inductive Request where
  | head (ledger : LedgerId)
  /-- `since` is inclusive, `limit` not yet clamped. -/
  | get (ledger : LedgerId) (since : UInt64) (limit : UInt32)
  | push (ledger : LedgerId) (events : List Bytes)
  | list (offset limit : UInt32)
  /-- No ledger asks about every one. -/
  | forks (ledger : Option LedgerId) (offset limit : UInt32)
  deriving DecidableEq

/-- What a server answered. -/
inductive Response (C : Crypto) where
  | head (value : Head)
  | events (page : EventPage)
  | accepted (outcome : PushOutcome)
  | ledgers (page : Page LedgerSummary)
  | forks (page : Page (ForkRecord C))
  | notFound
  | rejected (rejection : Rejection)
  deriving DecidableEq

/-- Why a response frame was not read. -/
inductive ResponseError where
  /-- The frame did not pass the field table. -/
  | malformed (error : WireError)
  /-- The frame is well formed and contradicts the protocol. -/
  | protocol (msg : String)
  deriving DecidableEq, Repr

/-- The number the schema gives a code. -/
def RejectCode.number : RejectCode → Nat
  | .unspecified => 0
  | .malformed => 1
  | .tooLarge => 2
  | .invalid => 3
  | .fork => 4
  | .unsupported => 5
  | .notAdmitted => 6
  | .busy => 7

/-- The code a number of the schema names. -/
def RejectCode.tryFrom : Int → Option RejectCode
  | 0 => some .unspecified
  | 1 => some .malformed
  | 2 => some .tooLarge
  | 3 => some .invalid
  | 4 => some .fork
  | 5 => some .unsupported
  | 6 => some .notAdmitted
  | 7 => some .busy
  | _ => none

/-! ## Writing -/

/-- A `bool` field, omitted when false. -/
def flagField (number : Nat) (value : Bool) : List Entry := uintField number (if value then 1 else 0)

/-- The one record of a frame. -/
def envelope (number : Nat) (body : List Entry) : Bytes :=
  putEntries (messageField number (putEntries body))

/-- Whether an index of a string's bytes is where a character begins or the string ends. -/
def isCharBoundary (text : Bytes) (index : Nat) : Bool :=
  match text[index]? with
  | some byte => byte &&& 0xc0 ≠ 0x80
  | none => index = text.length

/-- Step back to a character boundary. -/
def clipEnd (text : Bytes) : Nat → Nat
  | 0 => 0
  | index + 1 => if isCharBoundary text (index + 1) then index + 1 else clipEnd text index

/-- Clip a reason to its cap on a character boundary. -/
def clip (msg : String) : Bytes :=
  let text := utf8 msg
  if text.length ≤ maxRejectMsgBytes then text else text.take (clipEnd text maxRejectMsgBytes)

def headRequest (ledger : LedgerId) : Bytes := envelope 1 (bytesField 1 ledger.toVec)

def getRequest (ledger : LedgerId) (since : UInt64) (limit : UInt32) : Bytes :=
  envelope 2 (bytesField 1 ledger.toVec ++ uintField 2 since.toNat ++ uintField 3 limit.toNat)

def pushRequest (ledger : LedgerId) (events : List Bytes) : Bytes :=
  envelope 3 (bytesField 1 ledger.toVec ++ repeatedField 2 events)

def listRequest (offset limit : UInt32) : Bytes :=
  envelope 4 (uintField 1 offset.toNat ++ uintField 2 limit.toNat)

def forksRequest (ledger : Option LedgerId) (offset limit : UInt32) : Bytes :=
  envelope 5 (ledger.elim [] (fun ledger => bytesField 1 ledger.toVec) ++
    uintField 2 offset.toNat ++ uintField 3 limit.toNat)

/-- The frame of a request. -/
def Request.encode : Request → Bytes
  | .head ledger => headRequest ledger
  | .get ledger since limit => getRequest ledger since limit
  | .push ledger events => pushRequest ledger events
  | .list offset limit => listRequest offset limit
  | .forks ledger offset limit => forksRequest ledger offset limit

def headResponse (head : Head) : Bytes :=
  envelope 1 (uintField 1 head.headSeq ++ bytesField 2 head.headEvent.toVec ++
    uintField 3 head.updatedMs)

def eventsResponse (events : List Bytes) (headSeq : Nat) (more : Bool) : Bytes :=
  envelope 2 (repeatedField 1 events ++ uintField 2 headSeq ++ flagField 3 more)

def acceptedResponse (outcome : PushOutcome) : Bytes :=
  envelope 3 (uintField 1 outcome.headSeq ++ uintField 2 outcome.stored)

/-- Encode one entry of a listing. -/
def summaryEntry (summary : LedgerSummary) : Bytes :=
  putEntries (bytesField 1 summary.ledger.toVec ++
    uintField 2 (varintOfInt32 summary.declaredKind.number) ++ uintField 3 summary.headSeq ++
    bytesField 4 summary.headEvent.toVec ++ uintField 5 summary.eventCount ++
    uintField 6 summary.firstSeenMs ++ uintField 7 summary.updatedMs ++
    uintField 8 summary.forkCount ++ flagField 9 summary.forksTruncated)

/-- The frame of a listing over already encoded entries. -/
def ledgersResponse (entries : List Bytes) (more : Bool) : Bytes :=
  envelope 4 (repeatedField 1 entries ++ flagField 2 more)

def forksResponse (entries : List Bytes) (more : Bool) : Bytes :=
  envelope 5 (repeatedField 1 entries ++ flagField 2 more)

def notFoundResponse : Bytes := envelope 6 []

def rejectedResponse (rejection : Rejection) : Bytes :=
  envelope 7 (uintField 1 rejection.code.number ++ uintField 2 rejection.atSeq ++
    bytesField 3 (clip rejection.msg))

/-- The frame of a response. -/
def Response.encode : Response C → Bytes
  | .head value => headResponse value
  | .events page => eventsResponse page.events page.headSeq page.more
  | .accepted outcome => acceptedResponse outcome
  | .ledgers page => ledgersResponse (page.items.map summaryEntry) page.more
  | .forks page => forksResponse (page.items.map forkEntry) page.more
  | .notFound => notFoundResponse
  | .rejected rejection => rejectedResponse rejection

/-! ## Reading -/

/-- Whether a `bool` field is set. -/
def flag (es : List Entry) (number : Nat) : Bool := decide (uint es number ≠ 0)

/-- Every entry of a repeated length-delimited field, in order. -/
def repeated (es : List Entry) (number : Nat) : List Bytes :=
  es.filterMap fun e =>
    match e.2 with
    | .bytes slice => if e.1 = number then some slice else none
    | .varint _ => none

/-- The `oneof` variant a frame carries. -/
def variant (es : List Entry) : Option (Nat × Bytes) :=
  es.findSome? fun e =>
    match e.2 with
    | .bytes slice => some (e.1, slice)
    | .varint _ => none

def ledgerId (bytes : Option Bytes) : Option LedgerId := bytes.bind IdentityId.fromSlice

def eventIdField (bytes : Option Bytes) : Option EventId := bytes.bind EventId.fromSlice

/-- A `string` field, empty when it is absent. -/
def text (bytes : Option Bytes) : Option String :=
  match bytes with
  | none => some ""
  | some bytes => fromUtf8 bytes

/-- Whether a frame is one length-delimited record whose number no request has. -/
def isUnknownVariant (frame : Bytes) : Bool :=
  match fields frame with
  | some [(number, .bytes _)] => ¬ (1 ≤ number ∧ number ≤ 5)
  | _ => false

/-- The code a validator failure on a request answers. -/
def rejectCode (frame : Bytes) : WireError → RejectCode
  | .messageTooLarge .. | .fieldTooLong .. => .tooLarge
  | .repeatedCount _ _ count _ max => if count > max then .tooLarge else .malformed
  | .unknownOneofVariant message _ _ =>
    if message = Descriptors.request.name ∧ isUnknownVariant frame = true then .unsupported
    else .malformed
  | _ => .malformed

def malformed (msg : String) : Rejection := .new .malformed msg

/-- The request a variant's body holds. -/
def readRequest (number : Nat) (inner : List Entry) : Outcome Rejection Request :=
  let unreadable := malformed "Request.kind is missing a required field"
  match number with
  | 1 => do
    let ledger ← Outcome.orReject unreadable (ledgerId (bytes inner 1))
    .ok (.head ledger)
  | 2 => do
    let ledger ← Outcome.orReject unreadable (ledgerId (bytes inner 1))
    .ok (.get ledger (.ofNat (uint inner 2)) (.ofNat (uint inner 3)))
  | 3 => do
    let ledger ← Outcome.orReject unreadable (ledgerId (bytes inner 1))
    .ok (.push ledger (repeated inner 2))
  | 4 => .ok (.list (.ofNat (uint inner 1)) (.ofNat (uint inner 2)))
  | 5 => do
    let ledger ←
      match bytes inner 1 with
      | some raw => do
        let ledger ← Outcome.orReject unreadable (IdentityId.fromSlice raw)
        .ok (some ledger)
      | none => .ok none
    .ok (.forks ledger (.ofNat (uint inner 2)) (.ofNat (uint inner 3)))
  | _ => Outcome.reject (.new .unsupported "unrecognised Request.kind variant")

/-- Validate a request frame and read it. -/
def parseRequest (C : Crypto) (frame : Bytes) : Outcome Rejection Request := do
  Outcome.mapReject (fun error => .new (rejectCode frame error) error.display)
    (message C Descriptors.request frame)
  let outer ← Outcome.orReject (malformed "Request is not readable") (fields frame)
  let (number, body) ← Outcome.orReject (malformed "Request.kind names no variant") (variant outer)
  let inner ← Outcome.orReject (malformed "Request.kind is not readable") (fields body)
  readRequest number inner

def broken (msg : String) : ResponseError := .protocol msg

/-- Read one entry of a listing. -/
def readSummary (entry : Bytes) : Option LedgerSummary := do
  let f ← fields entry
  let ledger ← ledgerId (bytes f 1)
  let declaredKind ← DeclaredKind.tryFrom (int32OfVarint (uint f 2))
  let headEvent ← eventIdField (bytes f 4)
  return ⟨ledger, declaredKind, uint f 3, headEvent, uint f 5, uint f 6, uint f 7,
    uint f 8 % 2 ^ 32, flag f 9⟩

/-- The endpoint a fork record came from, if it names one. -/
def readSource (C : Crypto) : Option Bytes → Option (Option (EndpointId C))
  | some raw => do
    let raw ← Block.ofBytes? idBytes raw
    let endpoint ← PublicKey.fromBytes C raw
    return some endpoint
  | none => some none

/-- Read one fork record. -/
def readFork (C : Crypto) (entry : Bytes) : Option (ForkRecord C) := do
  let f ← fields entry
  let source ← readSource C (bytes f 6)
  let ledger ← ledgerId (bytes f 1)
  let kept ← bytes f 3
  let conflicting ← bytes f 4
  return ⟨ledger, uint f 2, kept, conflicting, uint f 5, source⟩

/-- The response a variant's body holds. -/
def readResponse (C : Crypto) (number : Nat) (inner : List Entry) :
    Outcome ResponseError (Response C) :=
  let missing := broken "Response.kind is missing a required field"
  match number with
  | 1 => do
    let headEvent ← Outcome.orReject missing (eventIdField (bytes inner 2))
    .ok (.head ⟨uint inner 1, headEvent, uint inner 3⟩)
  | 2 => .ok (.events ⟨repeated inner 1, uint inner 2, flag inner 3⟩)
  | 3 => .ok (.accepted ⟨uint inner 1, uint inner 2 % 2 ^ 32⟩)
  | 4 => do
    let items ← (repeated inner 1).mapM fun entry => Outcome.orReject missing (readSummary entry)
    .ok (.ledgers ⟨items, flag inner 2⟩)
  | 5 => do
    let items ← (repeated inner 1).mapM fun entry => Outcome.orReject missing (readFork C entry)
    .ok (.forks ⟨items, flag inner 2⟩)
  | 6 => .ok .notFound
  | 7 => do
    let code ← Outcome.orReject (broken "RejectedResp.code is not a known code")
      (RejectCode.tryFrom (int32OfVarint (uint inner 1)))
    let msg ← Outcome.orReject (broken "RejectedResp.msg is not valid UTF-8")
      (text (bytes inner 3))
    .ok (.rejected ⟨code, uint inner 2, msg⟩)
  | _ => Outcome.reject (broken "unrecognised Response.kind variant")

/-- Validate a response frame and read it. -/
def parseResponse (C : Crypto) (frame : Bytes) : Outcome ResponseError (Response C) := do
  Outcome.mapReject .malformed (message C Descriptors.response frame)
  let outer ← Outcome.orReject (broken "Response is not readable") (fields frame)
  let (number, body) ← Outcome.orReject (broken "Response.kind names no variant") (variant outer)
  let inner ← Outcome.orReject (broken "Response.kind is not readable") (fields body)
  readResponse C number inner

end Mabel.Net
