import Mabel.Ledger.Validate.Descriptor

/-!
# The field tables of the sync messages

A sync frame passes the scanner an event passes. Caps live in the tables, so a frame that
exceeds one is refused during the scan. An event inside a frame is detached: its nesting
budget is its own and not the frame's.
-/

namespace Mabel.Net

open Validate

/-- `MAX_FRAME_BYTES`. -/
def maxFrameBytes : Nat := 4 * 1024 * 1024

/-- `MAX_PUSH_EVENTS`. -/
def maxPushEvents : Nat := 512

/-- `MAX_PUSH_BYTES`. -/
def maxPushBytes : Nat := 2 * 1024 * 1024

/-- `MAX_GET_LIMIT`. -/
def maxGetLimit : Nat := 512

/-- `MAX_LIST_LIMIT`. -/
def maxListLimit : Nat := 256

/-- `MAX_FORKS_LIMIT`. -/
def maxForksLimit : Nat := 64

/-- `MAX_REJECT_MSG_BYTES`. -/
def maxRejectMsgBytes : Nat := 256

/-- `SMALL_REQUEST_BYTES`: the smallest cap that fits a request of ids and counters. -/
def smallRequestBytes : Nat := 128

namespace Descriptors

/-! ## Kinds -/

/-- `COUNT64`: a `uint64` counter, omitted when it is 0. -/
def count64 : Kind := .varint 1 u64Max

/-- `COUNT32`: a `uint32` counter, omitted when it is 0. -/
def count32 : Kind := .varint 1 u32Max

/-- `TIMESTAMP`: a millisecond timestamp. -/
def timestamp : Kind := .varint 1 maxTimestampMs

/-- `FLAG`: a `bool`, only ever written as 1. -/
def flag : Kind := .varint 1 1

/-- `EVENT`: a `SignedEvent` with a nesting budget of its own. -/
def event : Kind := .detached Descriptor.signedEvent

/-- A field that may repeat, its entries not necessarily distinct. -/
def repeated (number : Nat) (name : String) (min max : Nat) (kind : Kind) : Field :=
  ⟨number, name, .repeated min max false, kind⟩

/-! ## Requests -/

def headReq : MessageDescriptor where
  name := "HeadReq"
  maxBytes := smallRequestBytes
  fields := [required 1 "ledger" Kinds.id]
  oneof := none
  check := none

def getReq : MessageDescriptor where
  name := "GetReq"
  maxBytes := smallRequestBytes
  fields := [required 1 "ledger" Kinds.id, optional 2 "since" count64, optional 3 "limit" count32]
  oneof := none
  check := none

def pushReq : MessageDescriptor where
  name := "PushReq"
  maxBytes := maxPushBytes
  fields := [required 1 "ledger" Kinds.id, repeated 2 "events" 1 maxPushEvents event]
  oneof := none
  check := none

def listReq : MessageDescriptor where
  name := "ListReq"
  maxBytes := smallRequestBytes
  fields := [optional 1 "offset" count32, optional 2 "limit" count32]
  oneof := none
  check := none

/-- An absent `ledger` means every ledger. -/
def forksReq : MessageDescriptor where
  name := "ForksReq"
  maxBytes := smallRequestBytes
  fields := [optional 1 "ledger" Kinds.id, optional 2 "offset" count32, optional 3 "limit" count32]
  oneof := none
  check := none

/-- The frame a client sends. -/
def request : MessageDescriptor where
  name := "Request"
  maxBytes := maxFrameBytes
  fields := [variant 1 "head" headReq, variant 2 "get" getReq, variant 3 "push" pushReq,
    variant 4 "list" listReq, variant 5 "forks" forksReq]
  oneof := some ⟨"kind", 1⟩
  check := none

/-! ## Responses -/

def headResp : MessageDescriptor where
  name := "HeadResp"
  maxBytes := smallRequestBytes
  fields := [optional 1 "head_seq" count64, required 2 "head_event" Kinds.id,
    optional 3 "updated_ms" timestamp]
  oneof := none
  check := none

def eventsResp : MessageDescriptor where
  name := "EventsResp"
  maxBytes := maxFrameBytes
  fields := [repeated 1 "events" 0 maxGetLimit event, optional 2 "head_seq" count64,
    optional 3 "more" flag]
  oneof := none
  check := none

def acceptedResp : MessageDescriptor where
  name := "AcceptedResp"
  maxBytes := smallRequestBytes
  fields := [optional 1 "head_seq" count64, optional 2 "stored" count32]
  oneof := none
  check := none

/-- One entry of a listing, whose `declared_kind` carries every value of the enum. -/
def ledgerSummary : MessageDescriptor where
  name := "LedgerSummary"
  maxBytes := smallRequestBytes
  fields := [required 1 "ledger" Kinds.id, required 2 "declared_kind" Kinds.declaredKind,
    optional 3 "head_seq" count64, required 4 "head_event" Kinds.id,
    optional 5 "event_count" count64, optional 6 "first_seen_ms" timestamp,
    optional 7 "updated_ms" timestamp, optional 8 "fork_count" count32,
    optional 9 "forks_truncated" flag]
  oneof := none
  check := none

def ledgersResp : MessageDescriptor where
  name := "LedgersResp"
  maxBytes := maxFrameBytes
  fields := [repeated 1 "entries" 0 maxListLimit (.message ledgerSummary),
    optional 2 "more" flag]
  oneof := none
  check := none

/-- A fork at seq 0 cannot exist: two seq-0 events are two ledgers. -/
def forkRecord : MessageDescriptor where
  name := "ForkRecord"
  maxBytes := 2 * maxEventBytes + smallRequestBytes
  fields := [required 1 "ledger" Kinds.id, required 2 "seq" count64, required 3 "kept" event,
    required 4 "conflicting" event, optional 5 "observed_ms" timestamp,
    optional 6 "source_endpoint" Kinds.id]
  oneof := none
  check := none

def forksResp : MessageDescriptor where
  name := "ForksResp"
  maxBytes := maxFrameBytes
  fields := [repeated 1 "entries" 0 maxForksLimit (.message forkRecord), optional 2 "more" flag]
  oneof := none
  check := none

def notFoundResp : MessageDescriptor where
  name := "NotFoundResp"
  maxBytes := 0
  fields := []
  oneof := none
  check := none

/-- `RejectedResp.code`, whose unspecified value is not an accepted one. -/
def rejectCode : Kind :=
  .enum [⟨1, "MALFORMED"⟩, ⟨2, "TOO_LARGE"⟩, ⟨3, "INVALID"⟩, ⟨4, "FORK"⟩, ⟨5, "UNSUPPORTED"⟩,
    ⟨6, "NOT_ADMITTED"⟩, ⟨7, "BUSY"⟩]

def rejectedResp : MessageDescriptor where
  name := "RejectedResp"
  maxBytes := smallRequestBytes + maxRejectMsgBytes
  fields := [required 1 "code" rejectCode, optional 2 "at_seq" count64,
    optional 3 "msg" (.string maxRejectMsgBytes .utf8)]
  oneof := none
  check := none

/-- The frame a server sends. -/
def response : MessageDescriptor where
  name := "Response"
  maxBytes := maxFrameBytes
  fields := [variant 1 "head" headResp, variant 2 "events" eventsResp,
    variant 3 "accepted" acceptedResp, variant 4 "ledgers" ledgersResp,
    variant 5 "forks" forksResp, variant 6 "not_found" notFoundResp,
    variant 7 "rejected" rejectedResp]
  oneof := some ⟨"kind", 1⟩
  check := none

end Descriptors

end Mabel.Net
