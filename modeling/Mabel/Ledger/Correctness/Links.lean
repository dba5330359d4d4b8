import Mabel.Core.Text.Ascii
import Mabel.Ledger.Link

/-!
# Links parse and print as inverses

Each reader of a link accepts exactly the spellings, in either case, of what it answers. Read
together they say that the accepted strings are those whose lowercase is a scheme, an id, an
optional slash and an optional list of one to four distinct endpoint ids, and that printing what
was read gives that lowercase back without the slash.
-/

namespace Mabel

open Wire Outcome Ascii

variable {C : Crypto}

/-! ## Ids in either case -/

/-- The characters of an id in lowercase. -/
def IdChar (c : Char) : Prop := (97 ≤ c.toNat ∧ c.toNat ≤ 122) ∨ (50 ≤ c.toNat ∧ c.toNat ≤ 55)

instance : DecidablePred IdChar := fun c =>
  inferInstanceAs (Decidable ((97 ≤ c.toNat ∧ c.toNat ≤ 122) ∨ (50 ≤ c.toNat ∧ c.toNat ≤ 55)))

/-- Base32 symbols are upper case. -/
theorem toUpper_symbol {digit : Nat} (h : digit < 32) :
    (Base32.symbol digit).toUpper = Base32.symbol digit := by
  have hall : ∀ d : Fin 32, (Base32.symbol d).toUpper = Base32.symbol d := by decide
  exact hall ⟨digit, h⟩

/-- A lower-cased Base32 symbol is a character of an id. -/
theorem idChar_symbol {digit : Nat} (h : digit < 32) : IdChar (Base32.symbol digit).toLower := by
  have hall : ∀ d : Fin 32, (97 ≤ (Base32.symbol d).toLower.toNat ∧
      (Base32.symbol d).toLower.toNat ≤ 122) ∨ (50 ≤ (Base32.symbol d).toLower.toNat ∧
      (Base32.symbol d).toLower.toNat ≤ 55) := by decide
  exact hall ⟨digit, h⟩

theorem toList_renderId (raw : Block idBytes) :
    (renderId raw).toList = ((Base32.digitsOf raw.bytes).map Base32.symbol).map Char.toLower := by
  rw [renderId, toList_toLower, Base32.toList_encode]

/-- A rendered id has the characters of an id only. -/
theorem idChar_renderId {raw : Block idBytes} {c : Char} (h : c ∈ (renderId raw).toList) :
    IdChar c := by
  rw [toList_renderId] at h
  obtain ⟨symbol, hsymbol, rfl⟩ := List.mem_map.mp h
  obtain ⟨digit, hdigit, rfl⟩ := List.mem_map.mp hsymbol
  exact idChar_symbol (Base32.digitsOf_lt _ digit hdigit)

@[simp] theorem length_renderId (raw : Block idBytes) : (renderId raw).toList.length = 52 := by
  rw [renderId, toList_toLower, List.length_map, Base32.length_encode,
    raw.length_eq]
  rfl

/-- A rendered id in upper case is its Base32 text. -/
theorem map_toUpper_renderId (raw : Block idBytes) :
    (renderId raw).toList.map Char.toUpper = (Base32.encode raw.bytes).toList := by
  rw [toList_renderId, Base32.toList_encode, List.map_map, List.map_map]
  refine List.map_congr_left fun digit hdigit => ?_
  simp [toUpper_symbol (Base32.digitsOf_lt _ digit hdigit)]

theorem decode_renderId (raw : Block idBytes) :
    Base32.decode (String.ofList ((renderId raw).toList.map Char.toUpper)) = some raw.bytes := by
  rw [map_toUpper_renderId, String.ofList_toList, Base32.decode_encode]

/-- An id is known by how it is rendered. -/
theorem renderId_injective : Function.Injective renderId := by
  intro raw other h
  have hdecode := decode_renderId raw
  rw [h, decode_renderId] at hdecode
  exact Block.ext (Option.some.inj hdecode).symm

/-- A text decodes to an id exactly when it spells the id in some case. -/
theorem decodeId_eq_some {text : List Char} {raw : Block idBytes} :
    decodeId text = some raw ↔ toAsciiLowercase text = (renderId raw).toList := by
  have htext : (String.ofList text).toUpper.toList = text.map Char.toUpper := by
    rw [String.toUpper, String.toList_map, String.toList_ofList]
  constructor
  · intro h
    rw [decodeId] at h
    split_ifs at h
    obtain ⟨bytes, hdecode, hraw⟩ := Option.bind_eq_some_iff.mp h
    obtain rfl := Block.ofBytes?_eq_some.mp hraw
    have hencode := Base32.encode_of_decode hdecode
    rw [renderId, toList_toLower, hencode, htext, List.map_map]
    exact List.map_congr_left fun c _ => (toLower_toUpper c).symm
  · intro h
    have hascii : ∀ c ∈ text, c.toNat < 128 := by
      intro c hc
      have hmem : c.toLower ∈ toAsciiLowercase text := List.mem_map_of_mem hc
      have hid : IdChar c.toLower := idChar_renderId (h ▸ hmem)
      have hnat := toNat_toLower c
      unfold IdChar at hid
      split_ifs at hnat <;> omega
    have hlength : text.length = 52 := by
      rw [← length_renderId raw, ← h, toAsciiLowercase, List.length_map]
    have hupper : (String.ofList text).toUpper = Base32.encode raw.bytes := by
      apply String.ext
      rw [htext, ← map_toUpper_renderId, ← h, toAsciiLowercase, List.map_map]
      exact List.map_congr_left fun c _ => (toUpper_toLower c).symm
    rw [decodeId, if_neg (by simp [utf8ByteSize_ofList hascii, hlength]), hupper,
      Base32.decode_encode]
    exact Block.ofBytes?_bytes raw

/-- A rendered id is read back. -/
theorem decodeId_renderId (raw : Block idBytes) :
    decodeId (renderId raw).toList = some raw := by
  rw [decodeId_eq_some, toAsciiLowercase, toList_renderId, List.map_map]
  exact List.map_congr_left fun c _ => toLower_toLower c

theorem IdentityId.display_injective : Function.Injective IdentityId.display :=
  fun _ _ h => IdentityId.ext (renderId_injective h)

/-- An identity is parsed from exactly its displays, in any case. -/
theorem parse_identity_eq_some {text : List Char} {id : IdentityId} :
    IdentityId.parse (String.ofList text) = some id ↔
      toAsciiLowercase text = id.display.toList := by
  have hparse : IdentityId.parse (String.ofList text) = (decodeId text).map IdentityId.mk := by
    rw [IdentityId.parse, decodeId]
    split_ifs
    · rfl
    · cases Base32.decode (String.ofList text).toUpper <;> rfl
  change _ ↔ toAsciiLowercase text = (renderId id.raw).toList
  rw [hparse, ← decodeId_eq_some, Option.map_eq_some_iff]
  constructor
  · rintro ⟨raw, hraw, rfl⟩
    exact hraw
  · intro h
    exact ⟨id.raw, h, rfl⟩

/-- An endpoint is parsed from exactly its renderings, in any case. -/
theorem parseEndpoint_eq_ok {text : List Char} {key : EndpointId C} :
    parseEndpoint C text = .ok key ↔ toAsciiLowercase text = (renderId key.raw).toList := by
  simp only [parseEndpoint, bind_eq_ok, orReject_eq_ok, decodeId_eq_some,
    PublicKey.fromBytes_eq_some]
  constructor
  · rintro ⟨raw, htext, rfl⟩
    exact htext
  · intro h
    exact ⟨key.raw, h, rfl⟩

/-! ## The pieces of a link -/

/-- Stripping takes exactly a head that differs in case only. -/
theorem stripIgnoreCase_eq_some {input start rest : List Char} :
    stripIgnoreCase input start = some rest ↔
      ∃ head, input = head ++ rest ∧ toAsciiLowercase head = toAsciiLowercase start := by
  unfold stripIgnoreCase eqIgnoreAsciiCase
  constructor
  · intro h
    split_ifs at h with hstart
    obtain rfl := Option.some.inj h
    exact ⟨input.take start.length, (List.take_append_drop _ _).symm,
      of_decide_eq_true hstart.2⟩
  · rintro ⟨head, rfl, hhead⟩
    have hlength : head.length = start.length := by
      simpa [toAsciiLowercase] using congrArg List.length hhead
    rw [if_pos, ← hlength, List.drop_left]
    rw [← hlength, List.take_left]
    exact ⟨by simp, decide_eq_true hhead⟩

/-- Splitting once cuts at the first separator. -/
theorem splitOnce_eq_some {separator : Char} {text key value : List Char} :
    splitOnce separator text = some (key, value) ↔
      text = key ++ separator :: value ∧ separator ∉ key := by
  unfold splitOnce
  constructor
  · intro h
    have hsplit := List.takeWhile_append_dropWhile (p := fun c => decide (c ≠ separator)) (l := text)
    cases hdrop : text.dropWhile (fun c => decide (c ≠ separator)) with
    | nil =>
      rw [hdrop] at h
      cases h
    | cons c rest =>
      rw [hdrop] at h hsplit
      obtain ⟨rfl, rfl⟩ := Prod.mk.inj (Option.some.inj h)
      have hc : c = separator := by
        have := List.head?_dropWhile_not (fun c => decide (c ≠ separator)) text
        rw [hdrop] at this
        simpa using this
      refine ⟨hc ▸ hsplit.symm, fun hmem => ?_⟩
      simpa using List.all_eq_true.mp List.all_takeWhile separator hmem
  · rintro ⟨rfl, hkey⟩
    have hall : ∀ c ∈ key, decide (c ≠ separator) = true := by
      intro c hc
      exact decide_eq_true fun heq => hkey (heq ▸ hc)
    rw [List.dropWhile_append_of_pos hall, List.takeWhile_append_of_pos hall]
    simp

/-- The path after the id is empty or one slash, and a query may follow. -/
theorem parsePath_eq_ok {tail : List Char} {query : Option (List Char)} :
    parsePath tail = .ok query ↔ ∃ slash, (slash = [] ∨ slash = ['/']) ∧
      tail = slash ++ query.elim [] ('?' :: ·) := by
  have hrest : parsePath tail = .ok query ↔
      (if tail.head? = some '/' then tail.tail else tail) = query.elim [] ('?' :: ·) := by
    unfold parsePath
    generalize (if tail.head? = some '/' then tail.tail else tail) = rest
    cases rest with
    | nil => cases query <;> simp
    | cons c rest => by_cases hc : c = '?' <;> cases query <;> simp [hc]
  refine hrest.trans ?_
  constructor
  · intro h
    by_cases hslash : tail.head? = some '/'
    · rw [if_pos hslash] at h
      refine ⟨['/'], .inr rfl, ?_⟩
      rw [← h]
      exact (List.cons_head?_tail hslash).symm
    · rw [if_neg hslash] at h
      exact ⟨[], .inl rfl, h⟩
  · rintro ⟨slash, rfl | rfl, rfl⟩
    · rw [if_neg]
      · rfl
      · cases query <;> simp
    · rfl

/-! ## Lists of endpoints -/

/-- A pushed endpoint goes to the end. -/
theorem push_eq_ok {endpoints pushed : LinkEndpoints C} {endpoint : EndpointId C} :
    endpoints.push endpoint = .ok pushed ↔ pushed.1 = endpoints.1 ++ [endpoint] := by
  unfold LinkEndpoints.push
  constructor
  · intro h
    split_ifs at h
    · exact absurd h reject_ne_ok
    · exact absurd h reject_ne_ok
    · rw [← Except.ok.inj h]
  · intro h
    have hdistinct := h ▸ pushed.2.2
    have hlength := pushed.2.1
    rw [h, List.length_append, List.length_singleton] at hlength
    rw [dif_neg, dif_neg (by omega)]
    · exact congrArg Except.ok (Subtype.ext h.symm)
    · intro hmem
      exact (List.nodup_append.mp hdistinct).2.2 endpoint hmem endpoint (by simp) rfl

/-- The elements of the value spell, in order, the endpoints they add. -/
theorem foldlM_parseElement {elements : List (List Char)} {endpoints pushed : LinkEndpoints C} :
    elements.foldlM parseElement endpoints = .ok pushed ↔ ∃ added,
      pushed.1 = endpoints.1 ++ added ∧
      elements.map toAsciiLowercase = added.map fun e => (renderId e.raw).toList := by
  have helement : ∀ {endpoints pushed : LinkEndpoints C} {element : List Char},
      parseElement endpoints element = .ok pushed ↔ ∃ endpoint,
        toAsciiLowercase element = (renderId endpoint.raw).toList ∧
        pushed.1 = endpoints.1 ++ [endpoint] := by
    intro endpoints pushed element
    simp only [parseElement, bind_eq_ok, rejectIf_eq_ok, parseEndpoint_eq_ok, push_eq_ok,
      exists_const]
    constructor
    · rintro ⟨-, h⟩
      exact h
    · rintro ⟨endpoint, htext, hpushed⟩
      refine ⟨?_, endpoint, htext, hpushed⟩
      rintro rfl
      have := congrArg List.length htext
      simp [toAsciiLowercase] at this
  induction elements generalizing endpoints with
  | nil =>
    rw [List.foldlM_nil]
    constructor
    · intro h
      obtain rfl : endpoints = pushed := Except.ok.inj h
      exact ⟨[], by simp, rfl⟩
    · rintro ⟨added, hpushed, hnil⟩
      obtain rfl : added = [] := by simpa using hnil.symm
      rw [List.append_nil] at hpushed
      exact congrArg Except.ok (Subtype.ext hpushed.symm)
  | cons element elements ih =>
    rw [List.foldlM_cons, bind_eq_ok]
    simp only [helement, ih]
    constructor
    · rintro ⟨next, ⟨endpoint, htext, hnext⟩, added, hpushed, hmap⟩
      refine ⟨endpoint :: added, ?_, ?_⟩
      · rw [hpushed, hnext, List.append_assoc, List.singleton_append]
      · rw [List.map_cons, List.map_cons, htext, hmap]
    · rintro ⟨added, hpushed, hmap⟩
      cases added with
      | nil => simp at hmap
      | cons endpoint added =>
        rw [List.map_cons, List.map_cons, List.cons.injEq] at hmap
        have hpushed' : pushed.1 = (endpoints.1 ++ [endpoint]) ++ added := by
          rw [hpushed, List.append_assoc, List.singleton_append]
        -- What the endpoints before the rest keep to follows from the whole list.
        have hbounds : (endpoints.1 ++ [endpoint]).length ≤ maxLinkEndpoints ∧
            (endpoints.1 ++ [endpoint]).Nodup := by
          have hlength := pushed.2.1
          have hdistinct := pushed.2.2
          rw [hpushed'] at hlength hdistinct
          refine ⟨?_, (List.nodup_append.mp hdistinct).1⟩
          simp only [List.length_append] at hlength ⊢
          omega
        exact ⟨⟨endpoints.1 ++ [endpoint], hbounds⟩, ⟨endpoint, hmap.1, rfl⟩, added, hpushed',
          hmap.2⟩

/-- The ids of a list of endpoints. -/
def endpointTexts (endpoints : List (EndpointId C)) : List (List Char) :=
  endpoints.map fun e => (renderId e.raw).toList

/-- No endpoint's text holds a separator. -/
theorem not_mem_endpointTexts {endpoints : List (EndpointId C)} {separator : Char}
    (h : ¬ IdChar separator) : ∀ text ∈ endpointTexts endpoints, separator ∉ text := by
  intro text htext hmem
  obtain ⟨endpoint, -, rfl⟩ := List.mem_map.mp htext
  exact h (idChar_renderId hmem)

/-- The parts of a value spell endpoints exactly if the value spells their list. -/
theorem splitOn_eq_endpointTexts {value : List Char} {endpoints : List (EndpointId C)} :
    (value.splitOn ',').map toAsciiLowercase = endpointTexts endpoints ↔ endpoints ≠ [] ∧
      toAsciiLowercase value = [','].intercalate (endpointTexts endpoints) := by
  have hsplit : (toAsciiLowercase value).splitOn ',' =
      (value.splitOn ',').map toAsciiLowercase :=
    splitOn_map (fun c => toLower_eq_iff (by decide) (by decide)) value
  rw [← hsplit]
  constructor
  · intro hparts
    constructor
    · rintro rfl
      exact List.splitOn_ne_nil _ _ hparts
    · rw [← hparts, List.intercalate_splitOn]
  · rintro ⟨hne, hvalue⟩
    rw [hvalue]
    refine List.splitOn_intercalate _ (not_mem_endpointTexts (by decide)) ?_
    simpa [endpointTexts] using hne

/-- The empty value spells no list of endpoints. -/
theorem splitOn_nil_ne_endpointTexts {endpoints : List (EndpointId C)} :
    (([] : List Char).splitOn ',').map toAsciiLowercase ≠ endpointTexts endpoints := by
  intro hparts
  -- The empty value splits into one empty part, and an id is not empty.
  have hempty : [] ∈ endpointTexts endpoints := by rw [← hparts]; simp [toAsciiLowercase]
  obtain ⟨endpoint, -, hid⟩ := List.mem_map.mp hempty
  have := congrArg List.length hid
  simp at this

/-- The endpoints are parsed from exactly their comma-separated texts, in any case. -/
theorem parseEndpoints_eq_ok {value : List Char} {endpoints : LinkEndpoints C} :
    parseEndpoints C value = .ok endpoints ↔ endpoints.1 ≠ [] ∧
      toAsciiLowercase value = [','].intercalate (endpointTexts endpoints.1) := by
  simp only [parseEndpoints, bind_eq_ok, rejectIf_eq_ok, exists_const, foldlM_parseElement]
  rw [← splitOn_eq_endpointTexts]
  constructor
  · rintro ⟨-, added, hendpoints, hmap⟩
    have hadded : endpoints.1 = added := hendpoints
    rw [hmap, ← hadded]
    rfl
  · intro hparts
    refine ⟨?_, endpoints.1, rfl, hparts⟩
    rintro rfl
    exact splitOn_nil_ne_endpointTexts hparts

/-! ## The query -/

/-- What a link with these endpoints ends in. -/
def queryText (endpoints : List (EndpointId C)) : List Char :=
  if endpoints = [] then []
  else "?endpoints=".toList ++ [','].intercalate (endpointTexts endpoints)

/-- The value is read once. -/
theorem parsePair_some {endpoints : LinkEndpoints C} {pair : List Char}
    {found : Option (LinkEndpoints C)} : parsePair (some endpoints) pair ≠ .ok found := by
  simp [parsePair, bind_eq_ok]

/-- The query's pairs are parsed exactly when there is one. -/
theorem foldlM_parsePair {pairs : List (List Char)} (hne : pairs ≠ [])
    {found : Option (LinkEndpoints C)} : pairs.foldlM parsePair none = .ok found ↔
      ∃ pair, pairs = [pair] ∧ parsePair none pair = .ok found := by
  obtain ⟨pair, rest, rfl⟩ := List.exists_cons_of_ne_nil hne
  rw [List.foldlM_cons, bind_eq_ok]
  cases rest with
  | nil => simp [List.foldlM_nil, pure, Except.pure]
  | cons second rest =>
    constructor
    · rintro ⟨first, hfirst, hrest⟩
      rw [List.foldlM_cons, bind_eq_ok] at hrest
      obtain ⟨found', hsecond, -⟩ := hrest
      have hsome : ∃ endpoints, first = some endpoints := by
        simp only [parsePair, bind_eq_ok] at hfirst
        obtain ⟨-, -, -, -, -, -, endpoints, -, hfirst⟩ := hfirst
        exact ⟨endpoints, (Except.ok.inj hfirst).symm⟩
      obtain ⟨endpoints, rfl⟩ := hsome
      exact absurd hsecond parsePair_some
    · rintro ⟨single, hsingle, -⟩
      simp at hsingle

/-- A first pair is parsed exactly as the endpoints key with its value. -/
theorem parsePair_none {pair : List Char} {found : Option (LinkEndpoints C)} :
    parsePair none pair = .ok found ↔ ∃ key value endpoints, pair = key ++ '=' :: value ∧
      '=' ∉ key ∧ toAsciiLowercase key = linkEndpointsKey ∧
      parseEndpoints C value = .ok endpoints ∧ found = some endpoints := by
  have hkey : toAsciiLowercase linkEndpointsKey = linkEndpointsKey := by decide
  simp only [parsePair, bind_eq_ok, orReject_eq_ok, rejectIf_eq_ok, exists_const, Prod.exists,
    splitOnce_eq_some, eqIgnoreAsciiCase, hkey, Bool.not_eq_false, decide_eq_true_eq,
    Option.isSome_none, Bool.false_eq_true, not_false_eq_true, true_and, Except.ok.injEq]
  constructor
  · rintro ⟨key, value, ⟨hpair, hnot⟩, hlower, endpoints, hvalue, rfl⟩
    exact ⟨key, value, endpoints, hpair, hnot, hlower, hvalue, rfl⟩
  · rintro ⟨key, value, endpoints, hpair, hnot, hlower, hvalue, rfl⟩
    exact ⟨key, value, ⟨hpair, hnot⟩, hlower, endpoints, hvalue, rfl⟩

/-- Everything a link is spelled with. -/
def LinkChar (c : Char) : Prop :=
  IdChar c ∨ c = ':' ∨ c = '/' ∨ c = '?' ∨ c = '=' ∨ c = ','

instance : DecidablePred LinkChar := fun c =>
  inferInstanceAs (Decidable (IdChar c ∨ c = ':' ∨ c = '/' ∨ c = '?' ∨ c = '=' ∨ c = ','))

/-- Joining texts of id characters gives link characters. -/
theorem linkChar_intercalate {texts : List (List Char)}
    (h : ∀ text ∈ texts, ∀ c ∈ text, IdChar c) : ∀ c ∈ [','].intercalate texts, LinkChar c := by
  induction texts with
  | nil => simp
  | cons text texts ih =>
    intro c hc
    have hrest := ih fun t ht => h t (List.mem_cons_of_mem _ ht)
    cases texts with
    | nil =>
      rw [List.intercalate_singleton] at hc
      exact .inl (h text (by simp) c hc)
    | cons second texts =>
      rw [List.intercalate_cons_cons, List.mem_append, List.mem_append, List.mem_singleton] at hc
      rcases hc with (hc | rfl) | hc
      · exact .inl (h text (by simp) c hc)
      · decide
      · exact hrest c hc

/-- The endpoints' value has link characters only. -/
theorem linkChar_value (endpoints : List (EndpointId C)) :
    ∀ c ∈ [','].intercalate (endpointTexts endpoints), LinkChar c := by
  refine linkChar_intercalate fun text htext c hc => ?_
  obtain ⟨endpoint, -, rfl⟩ := List.mem_map.mp htext
  exact idChar_renderId hc

/-- The printed query has link characters only. -/
theorem linkChar_queryText (endpoints : List (EndpointId C)) :
    ∀ c ∈ queryText endpoints, LinkChar c := by
  intro c hc
  rw [queryText] at hc
  split_ifs at hc
  · simp at hc
  · rcases List.mem_append.mp hc with hc | hc
    · have hall : ("?endpoints=".toList.all fun c => LinkChar c) = true := by decide
      simpa using List.all_eq_true.mp hall c hc
    · exact linkChar_value endpoints c hc

/-- The query printed for some endpoints. -/
theorem queryText_of_ne {endpoints : List (EndpointId C)} (h : endpoints ≠ []) :
    queryText endpoints =
      '?' :: (linkEndpointsKey ++ '=' :: [','].intercalate (endpointTexts endpoints)) := by
  rw [queryText, if_neg h]
  rfl

/-- A character that no link is spelled with is in no spelling of one. -/
theorem not_mem_of_linkChar {text spelled : List Char} (h : toAsciiLowercase text = spelled)
    (hspelled : ∀ c ∈ spelled, LinkChar c) {c : Char} (hc : c.toLower = c) (hnot : ¬ LinkChar c) :
    c ∉ text := by
  intro hmem
  have hlower : c.toLower ∈ toAsciiLowercase text := List.mem_map_of_mem hmem
  rw [hc, h] at hlower
  exact hnot (hspelled c hlower)

/-- A query is parsed exactly when it is printed from its endpoints, in any case. -/
theorem parseQuery_eq_ok {query : Option (List Char)} {endpoints : LinkEndpoints C} :
    parseQuery C query = .ok endpoints ↔
      toAsciiLowercase (query.elim [] ('?' :: ·)) = queryText endpoints.1 := by
  match query with
  | none =>
    change Except.ok LinkEndpoints.none = Except.ok endpoints ↔ [] = queryText endpoints.1
    rw [Except.ok.injEq]
    constructor
    · rintro rfl
      rfl
    · intro h
      by_cases hnil : endpoints.1 = []
      · exact Subtype.ext hnil.symm
      · rw [queryText_of_ne hnil] at h
        simp at h
  | some [] =>
    change Outcome.reject InvalidLink.emptyQuery = Except.ok endpoints ↔
      toAsciiLowercase ['?'] = queryText endpoints.1
    constructor
    · intro h
      exact absurd h reject_ne_ok
    · intro h
      exfalso
      by_cases hnil : endpoints.1 = []
      · simp [queryText, hnil, toAsciiLowercase] at h
      · have hrest := (List.cons.inj (h.trans (queryText_of_ne hnil))).2
        simp at hrest
  | some (first :: rest) =>
    change (((first :: rest).splitOn '&').foldlM parsePair none >>= fun found =>
      Except.ok (found.getD LinkEndpoints.none)) = _ ↔
      toAsciiLowercase ('?' :: first :: rest) = _
    generalize first :: rest = text
    rw [bind_eq_ok]
    simp only [foldlM_parsePair (List.splitOn_ne_nil _ _), parsePair_none]
    constructor
    · rintro ⟨found, ⟨pair, hpairs, key, value, read, rfl, hnot, hkey, hvalue, rfl⟩, hread⟩
      obtain rfl : read = endpoints := Except.ok.inj hread
      obtain ⟨hne, hlower⟩ := parseEndpoints_eq_ok.mp hvalue
      have htext : text = key ++ '=' :: value := by
        have hjoined : ['&'].intercalate (text.splitOn '&') = text := List.intercalate_splitOn '&'
        rw [← hjoined, hpairs, List.intercalate_singleton]
      have hlowerText : toAsciiLowercase ('?' :: text) =
          '?' :: (toAsciiLowercase key ++ '=' :: toAsciiLowercase value) := by
        rw [htext]
        simp only [toAsciiLowercase, List.map_cons, List.map_append]
        rfl
      rw [queryText_of_ne hne, hlowerText, hkey, hlower]
    · intro h
      have hne : endpoints.1 ≠ [] := by
        intro hnil
        simp [queryText, hnil, toAsciiLowercase] at h
      have hmem := not_mem_of_linkChar h (linkChar_queryText endpoints.1)
        (c := '&') (by decide) (by decide)
      rw [queryText_of_ne hne, toAsciiLowercase, List.map_cons, List.cons.injEq] at h
      obtain ⟨key, tail, rfl, hkey, htail⟩ := List.map_eq_append_iff.mp h.2
      obtain ⟨separator, value, rfl, hseparator, hvalue⟩ := List.map_eq_cons_iff.mp htail
      obtain rfl : separator = '=' := (toLower_eq_iff (by decide) (by decide)).mp hseparator
      refine ⟨some endpoints, ⟨_, List.splitOn_eq_singleton (List.not_mem_of_not_mem_cons hmem),
        key, value, endpoints, rfl, ?_, hkey, parseEndpoints_eq_ok.mpr ⟨hne, hvalue⟩, rfl⟩, rfl⟩
      intro heq
      have hlower : ('=' : Char).toLower ∈ key.map Char.toLower := List.mem_map_of_mem heq
      rw [hkey] at hlower
      exact absurd hlower (by decide)

/-! ## The whole link -/

/-- The text of a link, with the slash a path may be. -/
def linkText (identity : IdentityId) (slash : List Char) (endpoints : List (EndpointId C)) :
    List Char :=
  linkScheme ++ (identity.display.toList ++ (slash ++ queryText endpoints))

theorem idChar_display {identity : IdentityId} {c : Char} (h : c ∈ identity.display.toList) :
    IdChar c := idChar_renderId h

/-- A printed link has link characters only. -/
theorem linkChar_linkText (identity : IdentityId) (endpoints : List (EndpointId C))
    {slash : List Char} (hslash : slash = [] ∨ slash = ['/']) :
    ∀ c ∈ linkText identity slash endpoints, LinkChar c := by
  intro c hc
  simp only [linkText, List.mem_append] at hc
  rcases hc with hc | hc | hc | hc
  · have hall : (linkScheme.all fun c => LinkChar c) = true := by decide
    simpa using List.all_eq_true.mp hall c hc
  · exact .inl (idChar_display hc)
  · rcases hslash with rfl | rfl
    · simp at hc
    · rw [List.mem_singleton.mp hc]
      decide
  · exact linkChar_queryText endpoints c hc

/-- A character whose lowercase a link is spelled with is printable ASCII. -/
theorem plain_of_linkChar {c : Char} (h : LinkChar c.toLower) :
    isWhitespace c = false ∧ isAscii c = true := by
  have hbounds : 44 ≤ c.toLower.toNat ∧ c.toLower.toNat ≤ 122 := by
    rcases h with h | h | h | h | h | h
    · unfold IdChar at h
      omega
    all_goals rw [h]; decide
  have hnat := toNat_toLower c
  have hc : 44 ≤ c.toNat ∧ c.toNat ≤ 122 := by
    split_ifs at hnat <;> omega
  constructor
  · simp only [isWhitespace, List.contains_eq_mem, List.mem_cons, List.not_mem_nil, or_false,
      Bool.or_eq_false_iff, Bool.and_eq_false_iff, decide_eq_false_iff_not]
    omega
  · simp only [isAscii, decide_eq_true_eq]
    omega

/-- The path and the query of a spelling begin where the authority ends. -/
theorem tail_of_lower {slash path query : List Char} {endpoints : List (EndpointId C)}
    (hslash : slash = [] ∨ slash = ['/']) (hpath : toAsciiLowercase path = slash)
    (hquery : toAsciiLowercase query = queryText endpoints) :
    path = slash ∧ (∃ read : Option (List Char), query = read.elim [] ('?' :: ·)) ∧
      ∀ c, (path ++ query).head? = some c → c = '/' ∨ c = '?' := by
  have hpath : path = slash := by
    rcases hslash with rfl | rfl
    · exact List.map_eq_nil_iff.mp hpath
    · obtain ⟨c, rest, rfl, hc, hrest⟩ := List.map_eq_cons_iff.mp hpath
      obtain rfl := (toLower_eq_iff (by decide) (by decide)).mp hc
      rw [List.map_eq_nil_iff.mp hrest]
  have hread : ∃ read : Option (List Char), query = read.elim [] ('?' :: ·) := by
    by_cases hnil : endpoints = []
    · rw [queryText, if_pos hnil] at hquery
      exact ⟨none, List.map_eq_nil_iff.mp hquery⟩
    · rw [queryText_of_ne hnil] at hquery
      obtain ⟨c, rest, rfl, hc, -⟩ := List.map_eq_cons_iff.mp hquery
      obtain rfl := (toLower_eq_iff (by decide) (by decide)).mp hc
      exact ⟨some rest, rfl⟩
  refine ⟨hpath, hread, ?_⟩
  intro c hc
  obtain ⟨read, rfl⟩ := hread
  rcases hslash with rfl | rfl
  · subst hpath
    cases read with
    | none => simp at hc
    | some rest => exact .inr (by simpa using hc.symm)
  · subst hpath
    exact .inl (by simpa using hc.symm)

/-- A string is read as a link exactly when, in lowercase, it is the text of the link, or that
with a slash for its path. -/
theorem parse_link_eq_ok {input : String} {link : MabelLink C} :
    MabelLink.parse C input = .ok link ↔ ∃ slash, (slash = [] ∨ slash = ['/']) ∧
      toAsciiLowercase input.toList = linkText link.identity slash link.endpoints.1 := by
  have hscheme : toAsciiLowercase linkScheme = linkScheme := by decide
  simp only [MabelLink.parse, bind_eq_ok, rejectIf_eq_ok, orReject_eq_ok, exists_const,
    stripIgnoreCase_eq_some, parse_identity_eq_some, parsePath_eq_ok, parseQuery_eq_ok, hscheme]
  constructor
  · rintro ⟨-, -, -, -, rest, ⟨head, hinput, hhead⟩, -, -, identity, hidentity, query,
      ⟨slash, hslash, htail⟩, endpoints, hquery, hlink⟩
    obtain rfl := Except.ok.inj hlink
    refine ⟨slash, hslash, ?_⟩
    have hrest := List.takeWhile_append_dropWhile
      (p := fun c => decide (c ≠ '/' ∧ c ≠ '?')) (l := rest)
    have hlowerSlash : toAsciiLowercase slash = slash := by
      rcases hslash with rfl | rfl <;> decide
    have htext : input.toList = head ++ (rest.takeWhile (fun c => decide (c ≠ '/' ∧ c ≠ '?')) ++
        (slash ++ query.elim [] ('?' :: ·))) := by
      rw [← htail, hrest, hinput]
    rw [htext]
    change List.map Char.toLower _ = linkScheme ++ (identity.display.toList ++
      (slash ++ queryText endpoints.1))
    rw [List.map_append, List.map_append, List.map_append]
    exact congrArg₂ _ hhead (congrArg₂ _ hidentity (congrArg₂ _ hlowerSlash hquery))
  · rintro ⟨slash, hslash, htext⟩
    have hspelled := linkChar_linkText link.identity link.endpoints.1 hslash
    have hplain : ∀ c ∈ input.toList, isWhitespace c = false ∧ isAscii c = true := by
      intro c hc
      have hlower : c.toLower ∈ toAsciiLowercase input.toList := List.mem_map_of_mem hc
      exact plain_of_linkChar (hspelled _ (htext ▸ hlower))
    have hnot : ∀ {c : Char}, c.toLower = c → ¬ LinkChar c → c ∉ input.toList :=
      not_mem_of_linkChar htext hspelled
    obtain ⟨head, rest, hinput, hhead, hrest⟩ := List.map_eq_append_iff.mp htext
    obtain ⟨authority, tail, rfl, hauthority, htail⟩ := List.map_eq_append_iff.mp hrest
    obtain ⟨path, query, rfl, hpath, hquery⟩ := List.map_eq_append_iff.mp htail
    have hid : ∀ c ∈ authority, IdChar c.toLower := by
      intro c hc
      have hlower : c.toLower ∈ authority.map Char.toLower := List.mem_map_of_mem hc
      exact idChar_display (hauthority ▸ hlower)
    obtain ⟨rfl, ⟨read, rfl⟩, hstop⟩ := tail_of_lower hslash hpath hquery
    have hauthorityChars : ∀ c ∈ authority, decide (c ≠ '/' ∧ c ≠ '?') = true := by
      intro c hc
      refine decide_eq_true ⟨?_, ?_⟩
      · rintro rfl
        exact absurd (hid _ hc) (by decide)
      · rintro rfl
        exact absurd (hid _ hc) (by decide)
    have hsplit : (path ++ read.elim [] ('?' :: ·)).takeWhile
          (fun c => decide (c ≠ '/' ∧ c ≠ '?')) = [] ∧
        (path ++ read.elim [] ('?' :: ·)).dropWhile (fun c => decide (c ≠ '/' ∧ c ≠ '?')) =
          path ++ read.elim [] ('?' :: ·) := by
      generalize path ++ read.elim [] ('?' :: ·) = tail at hstop
      cases tail with
      | nil => simp
      | cons c tail => rcases hstop c rfl with rfl | rfl <;> simp
    refine ⟨?_, ?_, hnot (by decide) (by decide), hnot (by decide) (by decide), _,
      ⟨head, hinput, hhead⟩, ?_, ?_, link.identity, ?_, read, ⟨path, hslash, ?_⟩,
      link.endpoints, hquery, rfl⟩
    · rw [Bool.not_eq_true, List.any_eq_false]
      exact fun c hc => by simp [(hplain c hc).1]
    · rw [Bool.not_eq_false, List.all_eq_true]
      exact fun c hc => (hplain c hc).2
    · rw [List.takeWhile_append_of_pos hauthorityChars, hsplit.1, List.append_nil]
      exact fun hmem => absurd (hid _ hmem) (by decide)
    · rw [List.takeWhile_append_of_pos hauthorityChars, hsplit.1, List.append_nil]
      exact fun hmem => absurd (hid _ hmem) (by decide)
    · rw [List.takeWhile_append_of_pos hauthorityChars, hsplit.1, List.append_nil]
      exact hauthority
    · rw [List.dropWhile_append_of_pos hauthorityChars, hsplit.2]

/-- A joined list starts with its first entry and a separator stands before every other. -/
theorem intercalate_cons_eq (separator : Char) (first : List Char) (rest : List (List Char)) :
    [separator].intercalate (first :: rest) = first ++ rest.flatMap (separator :: ·) := by
  induction rest generalizing first with
  | nil => simp
  | cons second rest ih =>
    rw [List.intercalate_cons_cons, ih, List.flatMap_cons]
    simp

/-- A link prints as its text without a slash. -/
theorem toList_display (link : MabelLink C) :
    link.display.toList = linkText link.identity [] link.endpoints.1 := by
  have hlater : ∀ (endpoints : List (EndpointId C)) (index : Nat) (text : String), 0 < index →
      ((endpoints.zipIdx index).foldl MabelLink.writeEndpoint text).toList =
        text.toList ++ (endpointTexts endpoints).flatMap (',' :: ·) := by
    intro endpoints
    induction endpoints with
    | nil => simp [endpointTexts]
    | cons endpoint endpoints ih =>
      intro index text hindex
      rw [List.zipIdx_cons, List.foldl_cons, ih (index + 1) _ (by omega)]
      simp [endpointTexts, MabelLink.writeEndpoint, hindex.ne']
  have hscheme : ("mabel://" ++ link.identity.display).toList =
      linkScheme ++ link.identity.display.toList := String.toList_append
  unfold MabelLink.display linkText
  generalize link.endpoints.1 = endpoints
  cases endpoints with
  | nil =>
    rw [List.zipIdx_nil, List.foldl_nil, hscheme, queryText, if_pos rfl, List.append_nil,
      List.append_nil]
  | cons endpoint endpoints =>
    have htexts : endpointTexts (endpoint :: endpoints) =
        (renderId endpoint.raw).toList :: endpointTexts endpoints := rfl
    have hfirst : (MabelLink.writeEndpoint ("mabel://" ++ link.identity.display)
        (endpoint, 0)).toList = linkScheme ++ (link.identity.display.toList ++
          ("?endpoints=".toList ++ (renderId endpoint.raw).toList)) := by
      rw [MabelLink.writeEndpoint, if_pos rfl, String.toList_append, String.toList_append, hscheme]
      simp only [List.append_assoc]
    rw [List.zipIdx_cons, List.foldl_cons, hlater endpoints _ _ (by omega), hfirst, queryText,
      if_neg (List.cons_ne_nil _ _), htexts, intercalate_cons_eq]
    simp only [List.append_assoc, List.nil_append]

/-! ## The grammar -/

/-- A canonical id: 52 lowercase base32 characters, the last with its four unused bits zero. -/
def CanonicalId (text : List Char) : Prop :=
  text.length = 52 ∧ (∀ c ∈ text, ('a' ≤ c ∧ c ≤ 'z') ∨ ('2' ≤ c ∧ c ≤ '7')) ∧
    (text.getLast? = some 'a' ∨ text.getLast? = some 'q')

/-- The id of an ed25519 point. -/
def PointId (C : Crypto) (text : List Char) : Prop :=
  CanonicalId text ∧ ∃ raw : Block idBytes,
    Base32.decode (String.ofList (text.map Char.toUpper)) = some raw.bytes ∧ C.isPoint raw = true

/-- The query of a link: none, or one to four distinct endpoint ids. -/
def LinkQuery (C : Crypto) (query : List Char) : Prop :=
  query = [] ∨ ∃ ids : List (List Char), 1 ≤ ids.length ∧ ids.length ≤ 4 ∧ ids.Nodup ∧
    (∀ id ∈ ids, PointId C id) ∧ query = "?endpoints=".toList ++ [','].intercalate ids

/-- A text of the grammar, and the same text without the optional slash. -/
def LinkText (C : Crypto) (text bare : List Char) : Prop :=
  ∃ id slash query, CanonicalId id ∧ (slash = [] ∨ slash = ['/']) ∧ LinkQuery C query ∧
    text = linkScheme ++ (id ++ (slash ++ query)) ∧ bare = linkScheme ++ (id ++ query)

/-- The characters of an id are in lower case. -/
theorem toLower_of_idChar {c : Char} (h : IdChar c) : c.toLower = c := by
  apply eq_of_toNat
  unfold IdChar at h
  rw [toNat_toLower, if_neg (by omega)]

/-- The last digit of an id has its four low bits zero. -/
theorem digitsOf_last (raw : Block idBytes) :
    (Base32.digitsOf raw.bytes).getLast? = some 0 ∨
      (Base32.digitsOf raw.bytes).getLast? = some 16 := by
  have hdigits : Base32.digitsOf raw.bytes =
      Base32.toDigits 32 52 (Base32.ofDigits 256 (raw.bytes.map UInt8.toNat) * 2 ^ 4) := by
    simp [Base32.digitsOf, raw.length_eq, idBytes, Nat.shiftLeft_eq]
  rw [hdigits, Base32.toDigits, List.getLast?_append]
  simp only [List.getLast?_singleton, Option.some_or, Option.some.injEq]
  omega

/-- Characters of ids have digits. -/
theorem exists_digits {text : List Char} (h : ∀ c ∈ text, IdChar c) :
    ∃ digits, (text.map Char.toUpper).mapM Base32.digit? = some digits := by
  induction text with
  | nil => exact ⟨[], rfl⟩
  | cons c text ih =>
    obtain ⟨digits, hdigits⟩ := ih fun d hd => h d (List.mem_cons_of_mem _ hd)
    have hdigit : ∃ digit, Base32.digit? c.toUpper = some digit := by
      have hc := h c (by simp)
      have hupper := toNat_toUpper c
      unfold IdChar at hc
      unfold Base32.digit?
      by_cases hletter : 97 ≤ c.toNat ∧ c.toNat ≤ 122
      · rw [if_pos hletter] at hupper
        refine ⟨c.toUpper.toNat - 65, if_pos ⟨?_, ?_⟩⟩
        · change 65 ≤ c.toUpper.toNat
          omega
        · change c.toUpper.toNat ≤ 90
          omega
      · rw [if_neg hletter] at hupper
        have hlow : '2' ≤ c.toUpper := by
          change 50 ≤ c.toUpper.toNat
          omega
        have hhigh : c.toUpper ≤ '7' := by
          change c.toUpper.toNat ≤ 55
          omega
        have hnotLetter : ¬ ('A' ≤ c.toUpper ∧ c.toUpper ≤ 'Z') := by
          rintro ⟨hA, -⟩
          have : 65 ≤ c.toUpper.toNat := hA
          omega
        exact ⟨c.toUpper.toNat - 50 + 26, (if_neg hnotLetter).trans (if_pos ⟨hlow, hhigh⟩)⟩
    obtain ⟨digit, hdigit⟩ := hdigit
    refine ⟨digit :: digits, ?_⟩
    rw [List.map_cons, List.mapM_cons, hdigit, hdigits]
    rfl

/-- A canonical id decodes to 32 bytes. -/
theorem decode_of_canonical {text : List Char} (h : CanonicalId text) :
    ∃ raw : Block idBytes,
      Base32.decode (String.ofList (text.map Char.toUpper)) = some raw.bytes := by
  obtain ⟨hlength, hchars, hlast⟩ := h
  obtain ⟨digits, hdigits⟩ := exists_digits hchars
  obtain ⟨hlt, hsymbols⟩ := Base32.mapM_digit?_eq_some hdigits
  have hcount : digits.length = 52 := by
    simpa [hlength] using congrArg List.length hsymbols
  have htrailing : Base32.ofDigits 32 digits % 2 ^ 4 = 0 := by
    obtain ⟨front, last, rfl⟩ : ∃ front last, digits = front ++ [last] :=
      ⟨_, _, (List.dropLast_append_getLast (List.ne_nil_of_length_pos (by omega))).symm⟩
    have hsymbol : Base32.symbol last = 'A' ∨ Base32.symbol last = 'Q' := by
      have hends := congrArg List.getLast? hsymbols
      rw [List.map_append, List.getLast?_append] at hends
      simp only [List.getLast?_map] at hends
      rcases hlast with hlast | hlast
      · rw [hlast] at hends
        exact .inl (by simpa using hends)
      · rw [hlast] at hends
        exact .inr (by simpa using hends)
    have hdigit := Base32.digit?_symbol (hlt last (by simp))
    have hvalue : last = 0 ∨ last = 16 := by
      rcases hsymbol with hsymbol | hsymbol
      · rw [hsymbol] at hdigit
        exact .inl (Option.some.inj hdigit).symm
      · rw [hsymbol] at hdigit
        exact .inr (Option.some.inj hdigit).symm
    rw [Base32.ofDigits_append]
    omega
  refine ⟨⟨(Base32.toDigits 256 32 (Base32.ofDigits 32 digits >>> 4)).map UInt8.ofNat, by
    simp [idBytes]⟩, ?_⟩
  rw [Base32.decode, String.toList_ofList, hdigits]
  simp only [Option.bind_eq_bind, Option.bind_some, hcount]
  exact if_neg (not_or.mpr ⟨by decide, not_not.mpr htrailing⟩)

/-- The canonical ids are the renderings of 32 bytes. -/
theorem canonicalId_iff {text : List Char} :
    CanonicalId text ↔ ∃ raw, text = (renderId raw).toList := by
  constructor
  · intro h
    obtain ⟨raw, hdecode⟩ := decode_of_canonical h
    refine ⟨raw, ?_⟩
    rw [renderId, Base32.encode_of_decode hdecode, toList_toLower,
      String.toList_ofList, List.map_map]
    refine Eq.trans (List.map_id text).symm (List.map_congr_left fun c hc => ?_)
    rw [Function.comp_apply, toLower_toUpper, toLower_of_idChar (h.2.1 c hc)]
    rfl
  · rintro ⟨raw, rfl⟩
    refine ⟨length_renderId raw, fun c hc => idChar_renderId hc, ?_⟩
    rw [toList_renderId, List.getLast?_map, List.getLast?_map]
    rcases digitsOf_last raw with h | h
    · exact .inl (by rw [h]; decide)
    · exact .inr (by rw [h]; decide)

/-- The ids of points are the renderings of keys. -/
theorem pointId_iff {text : List Char} :
    PointId C text ↔ ∃ key : EndpointId C, text = (renderId key.raw).toList := by
  constructor
  · rintro ⟨hcanonical, raw, hraw, hpoint⟩
    obtain ⟨other, rfl⟩ := canonicalId_iff.mp hcanonical
    rw [decode_renderId] at hraw
    obtain rfl := Block.ext (Option.some.inj hraw)
    exact ⟨⟨other, hpoint⟩, rfl⟩
  · rintro ⟨key, rfl⟩
    exact ⟨canonicalId_iff.mpr ⟨key.raw, rfl⟩, key.raw, decode_renderId key.raw, key.point⟩

/-- The queries of the grammar are those of links. -/
theorem linkQuery_iff {query : List Char} :
    LinkQuery C query ↔ ∃ endpoints : LinkEndpoints C, query = queryText endpoints.1 := by
  constructor
  · rintro (rfl | ⟨ids, hfew, hmany, hdistinct, hpoints, rfl⟩)
    · exact ⟨LinkEndpoints.none, rfl⟩
    · obtain ⟨keys, rfl⟩ : ∃ keys : List (EndpointId C), ids = endpointTexts keys := by
        clear hfew hmany hdistinct
        induction ids with
        | nil => exact ⟨[], rfl⟩
        | cons id ids ih =>
          obtain ⟨key, rfl⟩ := pointId_iff.mp (hpoints id (by simp))
          obtain ⟨keys, rfl⟩ := ih fun t ht => hpoints t (List.mem_cons_of_mem _ ht)
          exact ⟨key :: keys, rfl⟩
      rw [endpointTexts, List.length_map] at hfew hmany
      refine ⟨⟨keys, hmany, List.Nodup.of_map _ hdistinct⟩, ?_⟩
      rw [queryText, if_neg (List.ne_nil_of_length_pos hfew)]
  · rintro ⟨endpoints, rfl⟩
    by_cases hnil : endpoints.1 = []
    · exact .inl (by rw [queryText, if_pos hnil])
    · refine .inr ⟨endpointTexts endpoints.1, ?_, ?_, ?_, ?_, ?_⟩
      · rw [endpointTexts, List.length_map]
        exact List.length_pos_iff.mpr hnil
      · rw [endpointTexts, List.length_map]
        exact endpoints.2.1
      · refine endpoints.2.2.map fun key other h => ?_
        exact PublicKey.ext (renderId_injective (String.ext h))
      · intro id hid
        obtain ⟨key, -, rfl⟩ := List.mem_map.mp hid
        exact pointId_iff.mpr ⟨key, rfl⟩
      · rw [queryText, if_neg hnil]

/-- The texts of the grammar are those of links. -/
theorem linkText_iff {text bare : List Char} : LinkText C text bare ↔
    ∃ (link : MabelLink C) (slash : List Char), (slash = [] ∨ slash = ['/']) ∧
      text = linkText link.identity slash link.endpoints.1 ∧ bare = link.display.toList := by
  constructor
  · rintro ⟨id, slash, query, hid, hslash, hquery, rfl, rfl⟩
    obtain ⟨raw, rfl⟩ := canonicalId_iff.mp hid
    obtain ⟨endpoints, rfl⟩ := linkQuery_iff.mp hquery
    refine ⟨⟨⟨raw⟩, endpoints⟩, slash, hslash, rfl, ?_⟩
    rw [toList_display, linkText, List.nil_append]
    rfl
  · rintro ⟨link, slash, hslash, rfl, rfl⟩
    refine ⟨link.identity.display.toList, slash, queryText link.endpoints.1,
      canonicalId_iff.mpr ⟨link.identity.raw, rfl⟩, hslash, linkQuery_iff.mpr ⟨link.endpoints, rfl⟩,
      rfl, ?_⟩
    rw [toList_display, linkText, List.nil_append]

/-- A link that was built reads back as itself. A string is read as some link exactly when its
lowercase is in the grammar, and what it is read as prints as that lowercase without the optional
slash. -/
theorem links_inverse (C : Crypto) :
    (∀ (identity : IdentityId) (endpoints : List (EndpointId C)) (link : MabelLink C),
      MabelLink.new identity endpoints = .ok link → MabelLink.parse C link.display = .ok link) ∧
    (∀ input : String, (∃ link, MabelLink.parse C input = .ok link) ↔
      ∃ bare, LinkText C (toAsciiLowercase input.toList) bare) ∧
    (∀ (input : String) (link : MabelLink C) (bare : List Char),
      MabelLink.parse C input = .ok link → LinkText C (toAsciiLowercase input.toList) bare →
      link.display.toList = bare) := by
  have hlower : ∀ link : MabelLink C, toAsciiLowercase (linkText link.identity []
      link.endpoints.1) = linkText link.identity [] link.endpoints.1 := by
    intro link
    refine Eq.trans (List.map_congr_left fun c hc => ?_) (List.map_id _)
    rcases linkChar_linkText link.identity link.endpoints.1 (.inl rfl) c hc with
      hid | rfl | rfl | rfl | rfl | rfl
    · exact toLower_of_idChar hid
    all_goals decide
  refine ⟨?_, ?_, ?_⟩
  · intro identity endpoints link _
    refine parse_link_eq_ok.mpr ⟨[], .inl rfl, ?_⟩
    rw [toList_display, hlower link]
  · intro input
    constructor
    · rintro ⟨link, hparse⟩
      obtain ⟨slash, hslash, htext⟩ := parse_link_eq_ok.mp hparse
      exact ⟨link.display.toList, linkText_iff.mpr ⟨link, slash, hslash, htext, rfl⟩⟩
    · rintro ⟨bare, hgrammar⟩
      obtain ⟨link, slash, hslash, htext, -⟩ := linkText_iff.mp hgrammar
      exact ⟨link, parse_link_eq_ok.mpr ⟨slash, hslash, htext⟩⟩
  · intro input link bare hparse hgrammar
    obtain ⟨other, slash, hslash, htext, rfl⟩ := linkText_iff.mp hgrammar
    have hother : MabelLink.parse C input = .ok other :=
      parse_link_eq_ok.mpr ⟨slash, hslash, htext⟩
    rw [hparse] at hother
    rw [Except.ok.inj hother]

end Mabel
