import Mabel.Ledger.Link
import Mabel.Ledger.Validate.Text

/-!
# The loopback rules

The API has no authentication. What protects a daemon on loopback is that a page the user happens
to have open cannot reach it: the host blocks rebinding, the origin blocks drive-by form posts and
the content type blocks what a form can post by itself. An operator may allow hosts beyond
loopback.
-/

namespace Mabel.Api

open Validate

/-! ## Requests -/

/-- The method of a request. -/
inductive Method where
  | get
  | head
  | options
  | post
  | put
  | patch
  | delete
  | connect
  | trace
  | extension (name : String)
  deriving DecidableEq, Repr

/-- The headers the rules read, as text. -/
structure HeaderMap where
  host : Option String
  origin : Option String
  contentType : Option String
  deriving DecidableEq, Repr

/-- A request turned away, with code 2 and no layer prefix. -/
structure ServiceError where
  reason : String
  message : String
  status : Nat
  details : List (String × String)
  deriving DecidableEq, Repr

namespace ServiceError

/-- `StatusCode::FORBIDDEN`. -/
def forbidden : Nat := 403

/-- `StatusCode::UNSUPPORTED_MEDIA_TYPE`. -/
def unsupportedMediaType : Nat := 415

/-- An error with one key more beside its reason. -/
def withDetail (error : ServiceError) (key value : String) : ServiceError :=
  { error with details := error.details ++ [(key, value)] }

end ServiceError

/-! ## Texts -/

/-- A text with its ASCII letters in lowercase. -/
def lowered (text : String) : String := String.ofList (toAsciiLowercase text.toList)

/-- A host as the rules compare it: trimmed and lowercased. -/
def normalized (host : String) : String := lowered (trim host)

/-- The accepted values as a sentence names them: `a`, `a or b`, `a, b or c`. -/
def listed (values : List String) : String :=
  match values.getLast? with
  | none => ""
  | some last =>
    if values.length = 1 then last
    else ", ".intercalate values.dropLast ++ " or " ++ last

/-- Whether a content type names JSON, whatever its parameters. -/
def isJson (contentType : String) : Bool :=
  let mediaType := String.ofList (contentType.toList.takeWhile (· ≠ ';'))
  lowered (trim mediaType) = "application/json"

/-! ## Rules -/

/-- The rules for a port, and the hosts an operator allowed beyond loopback. -/
structure LoopbackRules where
  port : UInt16
  allowedHosts : List String
  deriving DecidableEq, Repr

namespace LoopbackRules

/-- Rules that accept loopback alone. -/
def new (port : UInt16) : LoopbackRules := ⟨port, []⟩

/-- Every accepted host, the two loopback spellings first. -/
def hosts (rules : LoopbackRules) : List String :=
  [s!"127.0.0.1:{rules.port.toNat}", s!"localhost:{rules.port.toNat}"] ++ rules.allowedHosts

/-- Every accepted origin. An allowed host contributes both schemes. -/
def origins (rules : LoopbackRules) : List String :=
  [s!"http://127.0.0.1:{rules.port.toNat}", s!"http://localhost:{rules.port.toNat}"] ++
    rules.allowedHosts.flatMap fun host => [s!"http://{host}", s!"https://{host}"]

/-- Rules with one host more, unless it is empty or accepted already. -/
def allow (rules : LoopbackRules) (host : String) : LoopbackRules :=
  let host := normalized host
  if host.isEmpty || rules.hosts.contains host then rules
  else { rules with allowedHosts := rules.allowedHosts ++ [host] }

/-- Rules that also accept these hosts and the origins that match them. -/
def withAllowedHosts (rules : LoopbackRules) (hosts : List String) : LoopbackRules :=
  hosts.foldl allow rules

/-- Whether a method may change state. -/
def isMutating : Method → Bool
  | .get | .head | .options => false
  | _ => true

/-- Whether a host is accepted. The default port needs no spelling. -/
def acceptsHost (rules : LoopbackRules) (host : String) : Bool :=
  let host := normalized host
  rules.hosts.contains host || (rules.port = 80 && (host = "127.0.0.1" || host = "localhost"))

/-- A request the rules turn away. -/
def rejected (reason message : String) (status : Nat) : ServiceError :=
  ⟨reason, message, status, []⟩

/-- Apply the three rules to one request. -/
def check (rules : LoopbackRules) (method : Method) (headers : HeaderMap) :
    Except ServiceError Unit := do
  let hostMessage := s!"request rejected: Host header must be {listed rules.hosts}"
  match headers.host with
  | none => .error (rejected "host_missing" hostMessage ServiceError.forbidden)
  | some host =>
    if !rules.acceptsHost host then
      .error ((rejected "host_not_loopback" hostMessage ServiceError.forbidden).withDetail
        "host" host)
  if !isMutating method then return
  let originMessage :=
    s!"request rejected: Origin must be {listed rules.origins} on a mutating route"
  match headers.origin with
  | none => .error (rejected "origin_missing" originMessage ServiceError.forbidden)
  | some origin =>
    if !rules.origins.contains (lowered origin) then
      .error ((rejected "origin_mismatch" originMessage ServiceError.forbidden).withDetail
        "origin" origin)
  let typeMessage := "request rejected: mutating routes require content-type: application/json"
  match headers.contentType with
  | none =>
    .error (rejected "content_type_missing" typeMessage ServiceError.unsupportedMediaType)
  | some contentType =>
    if !isJson contentType then
      .error ((rejected "content_type_not_json" typeMessage
        ServiceError.unsupportedMediaType).withDetail "content_type" contentType)

end LoopbackRules

end Mabel.Api
