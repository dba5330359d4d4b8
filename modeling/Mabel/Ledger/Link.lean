import Mabel.Ledger.Ids

/-!
# The `mabel://` link

One shareable string for an identity and up to four machines that answer for it. The parser reads
characters and never decodes anything, refuses the whole string on any broken rule and names the
rule; it takes either case and rendering is lowercase. A link carries the two rules on its
endpoints, so one that breaks them cannot be built.
-/

namespace Mabel

open Wire

variable {C : Crypto}

/-! ## Refusals -/

/-- The rule a string breaks that is not a link. -/
inductive InvalidLink where
  | whitespace
  | notAscii
  | percent
  | fragment
  | scheme
  | userinfo
  | port
  | authority
  | path
  | emptyQuery
  | queryKey
  | repeatedKey
  | noEndpoint
  | emptyEndpoint
  | tooManyEndpoints
  | duplicateEndpoint
  | endpointCodec
  | endpointPoint
  deriving DecidableEq, Repr

/-- The clause naming the rule. -/
def InvalidLink.clause : InvalidLink → String
  | .whitespace => "it holds whitespace"
  | .notAscii => "it holds a character outside ASCII"
  | .percent => "it holds percent-encoding"
  | .fragment => "it holds a fragment"
  | .scheme => "it does not begin with mabel://"
  | .userinfo => "the authority holds userinfo"
  | .port => "the authority holds a port"
  | .authority => "the authority is not one identity id"
  | .path => "it holds a path segment"
  | .emptyQuery => "the query is empty"
  | .queryKey => "the query holds a key other than endpoints"
  | .repeatedKey => "the query holds endpoints more than once"
  | .noEndpoint => "endpoints names nothing"
  | .emptyEndpoint => "endpoints holds an empty element"
  | .tooManyEndpoints => "endpoints names more than 4 endpoints, the link cap"
  | .duplicateEndpoint => "endpoints names one endpoint twice"
  | .endpointCodec => "an endpoint is not 52 base32 characters under the id codec"
  | .endpointPoint => "an endpoint does not decompress to an ed25519 point"

/-! ## Characters -/

/-- `char::is_whitespace`, the Unicode property. -/
def isWhitespace (c : Char) : Bool :=
  (9 ≤ c.toNat && c.toNat ≤ 13) || (0x2000 ≤ c.toNat && c.toNat ≤ 0x200a) ||
    [0x20, 0x85, 0xa0, 0x1680, 0x2028, 0x2029, 0x202f, 0x205f, 0x3000].contains c.toNat

/-- Whether a character is one byte of ASCII. -/
def isAscii (c : Char) : Bool := c.toNat < 128

/-- Text with its ASCII letters in lowercase. -/
def toAsciiLowercase (text : List Char) : List Char := text.map Char.toLower

/-- Equality without regard to ASCII case. -/
def eqIgnoreAsciiCase (text other : List Char) : Bool :=
  toAsciiLowercase text = toAsciiLowercase other

/-- An ASCII text without what it begins with, matched without regard to case. -/
def stripIgnoreCase (input start : List Char) : Option (List Char) :=
  if start.length ≤ input.length ∧ eqIgnoreAsciiCase (input.take start.length) start then
    some (input.drop start.length)
  else none

/-- The text before the first separator and the text behind it. -/
def splitOnce (separator : Char) (text : List Char) : Option (List Char × List Char) :=
  match text.dropWhile (· ≠ separator) with
  | [] => none
  | _ :: value => some (text.takeWhile (· ≠ separator), value)

/-! ## Links -/

/-- `LINK_PREFIX`: the scheme and its separator. -/
def linkScheme : List Char := "mabel://".toList

/-- `LINK_ENDPOINTS_KEY`: the one query key a link may carry. -/
def linkEndpointsKey : List Char := "endpoints".toList

/-- `MAX_LINK_ENDPOINTS`: most endpoints one link may name. -/
def maxLinkEndpoints : Nat := 4

/-- At most four distinct endpoints. -/
abbrev LinkEndpoints (C : Crypto) :=
  { endpoints : List (EndpointId C) // endpoints.length ≤ maxLinkEndpoints ∧ endpoints.Nodup }

namespace LinkEndpoints

/-- No endpoint. -/
def none : LinkEndpoints C := ⟨[], by simp⟩

/-- One more endpoint, unless it is named already or four are. -/
def push (endpoints : LinkEndpoints C) (endpoint : EndpointId C) :
    Outcome InvalidLink (LinkEndpoints C) :=
  if hnew : endpoint ∈ endpoints.1 then Outcome.reject .duplicateEndpoint
  else if hroom : endpoints.1.length = maxLinkEndpoints then Outcome.reject .tooManyEndpoints
  else .ok ⟨endpoints.1 ++ [endpoint], by
    have hlength := endpoints.2.1
    simp only [List.length_append, List.length_singleton]
    omega, List.nodup_append.mpr ⟨endpoints.2.2, by simp, by
      intro a ha b hb
      rw [List.mem_singleton.mp hb]
      exact ne_of_mem_of_not_mem ha hnew⟩⟩

end LinkEndpoints

/-- One identity and the machines a link says answer for it. -/
structure MabelLink (C : Crypto) where
  identity : IdentityId
  endpoints : LinkEndpoints C
  deriving DecidableEq

/-- Whether an endpoint stands among those before it. -/
def repeatsEndpoint (endpoints : List (EndpointId C)) : Bool :=
  endpoints.zipIdx.any fun (endpoint, index) => (endpoints.take index).contains endpoint

/-- The check for repetitions finds none exactly in distinct endpoints. -/
theorem repeatsEndpoint_eq_false {endpoints : List (EndpointId C)} :
    repeatsEndpoint endpoints = false ↔ endpoints.Nodup := by
  rw [repeatsEndpoint, List.any_eq_false, List.nodup_iff_getElem?_ne_getElem?]
  constructor
  · intro h i j hij hj hsame
    obtain ⟨endpoint, hendpoint⟩ : ∃ e, endpoints[j]? = some e :=
      ⟨_, List.getElem?_eq_getElem hj⟩
    have := h (endpoint, j) (List.mk_mem_zipIdx_iff_getElem?.mpr hendpoint)
    simp only [List.contains_eq_mem, decide_eq_true_eq] at this
    refine this (List.mem_iff_getElem?.mpr ⟨i, ?_⟩)
    rw [List.getElem?_take_of_lt hij, hsame, hendpoint]
  · rintro h ⟨endpoint, j⟩ hmem hrepeat
    have hj := List.mk_mem_zipIdx_iff_getElem?.mp hmem
    simp only [List.contains_eq_mem, decide_eq_true_eq] at hrepeat
    obtain ⟨i, hi⟩ := List.mem_iff_getElem?.mp hrepeat
    have hij : i < j := by
      have := (List.getElem?_eq_some_iff.mp hi).1
      simp only [List.length_take] at this
      omega
    rw [List.getElem?_take_of_lt hij] at hi
    exact h i j hij (List.getElem?_eq_some_iff.mp hj).1 (hi.trans hj.symm)

/-- The 32 bytes of a 52-character base32 id, either case. -/
def decodeId (text : List Char) : Option (Block idBytes) :=
  if (String.ofList text).utf8ByteSize ≠ 52 then none
  else (Base32.decode (String.ofList text).toUpper).bind (Block.ofBytes? idBytes)

/-- 32 bytes as lowercase base32. -/
def renderId (bytes : Block idBytes) : String := (Base32.encode bytes.bytes).toLower

/-- One endpoint id under the id codec, checked to be a curve point. -/
def parseEndpoint (C : Crypto) (text : List Char) : Outcome InvalidLink (EndpointId C) := do
  let bytes ← Outcome.orReject .endpointCodec (decodeId text)
  Outcome.orReject .endpointPoint (PublicKey.fromBytes C bytes)

/-- One more element of the `endpoints` value. -/
def parseElement (endpoints : LinkEndpoints C) (element : List Char) :
    Outcome InvalidLink (LinkEndpoints C) := do
  Outcome.rejectIf (element = []) .emptyEndpoint
  let endpoint ← parseEndpoint C element
  endpoints.push endpoint

/-- The one to four endpoint ids of the `endpoints` value. -/
def parseEndpoints (C : Crypto) (value : List Char) : Outcome InvalidLink (LinkEndpoints C) := do
  Outcome.rejectIf (value = []) .noEndpoint
  (value.splitOn ',').foldlM parseElement LinkEndpoints.none

/-- One more pair of the query. -/
def parsePair (endpoints : Option (LinkEndpoints C)) (pair : List Char) :
    Outcome InvalidLink (Option (LinkEndpoints C)) := do
  let (key, value) ← Outcome.orReject .queryKey (splitOnce '=' pair)
  Outcome.rejectIf (eqIgnoreAsciiCase key linkEndpointsKey = false) .queryKey
  Outcome.rejectIf (endpoints.isSome = true) .repeatedKey
  let endpoints ← parseEndpoints C value
  .ok (some endpoints)

/-- The query: the path before it is empty or a single slash. -/
def parsePath (tail : List Char) : Outcome InvalidLink (Option (List Char)) :=
  match (if tail.head? = some '/' then tail.tail else tail) with
  | [] => .ok none
  | c :: query => if c = '?' then .ok (some query) else Outcome.reject .path

/-- The endpoints of the query, none without one. -/
def parseQuery (C : Crypto) : Option (List Char) → Outcome InvalidLink (LinkEndpoints C)
  | none => .ok LinkEndpoints.none
  | some [] => Outcome.reject .emptyQuery
  | some query => do
    let endpoints ← (query.splitOn '&').foldlM parsePair none
    .ok (endpoints.getD LinkEndpoints.none)

namespace MabelLink

/-- Build a link from an identity and at most four distinct endpoints. -/
def new (identity : IdentityId) (endpoints : List (EndpointId C)) :
    Outcome InvalidLink (MabelLink C) :=
  if hmany : endpoints.length > maxLinkEndpoints then Outcome.reject .tooManyEndpoints
  else if hrepeat : repeatsEndpoint endpoints = true then Outcome.reject .duplicateEndpoint
  else .ok ⟨identity, endpoints, not_lt.mp hmany,
    repeatsEndpoint_eq_false.mp (Bool.not_eq_true _ ▸ hrepeat)⟩

/-- Read a link, refusing the whole string on any broken rule. -/
def parse (C : Crypto) (input : String) : Outcome InvalidLink (MabelLink C) := do
  let text := input.toList
  Outcome.rejectIf (text.any isWhitespace = true) .whitespace
  Outcome.rejectIf (text.all isAscii = false) .notAscii
  Outcome.rejectIf ('%' ∈ text) .percent
  Outcome.rejectIf ('#' ∈ text) .fragment
  let rest ← Outcome.orReject .scheme (stripIgnoreCase text linkScheme)
  let authority := rest.takeWhile fun c => decide (c ≠ '/' ∧ c ≠ '?')
  let tail := rest.dropWhile fun c => decide (c ≠ '/' ∧ c ≠ '?')
  Outcome.rejectIf ('@' ∈ authority) .userinfo
  Outcome.rejectIf (':' ∈ authority) .port
  let identity ← Outcome.orReject .authority (IdentityId.parse (String.ofList authority))
  let query ← parsePath tail
  let endpoints ← parseQuery C query
  .ok ⟨identity, endpoints⟩

/-- Write one more endpoint, with what stands before it at its index. -/
def writeEndpoint (text : String) (entry : EndpointId C × Nat) : String :=
  text ++ (if entry.2 = 0 then "?endpoints=" else ",") ++ renderId entry.1.raw

/-- The text of a link: lowercase, with no path and no query when it names no endpoint. -/
def display (link : MabelLink C) : String :=
  link.endpoints.1.zipIdx.foldl writeEndpoint ("mabel://" ++ link.identity.display)

end MabelLink

end Mabel
