import Mabel.Api.Loopback
import Mabel.Core.Text.Ascii

/-!
# What the loopback rules let through

Hosts and origins are accepted by two lists built from one port and one set of names, and each
origin is a host behind a scheme. The other way round a host may be accepted with no origin that
matches it: on the default port a host needs no port, and its origin still does.
-/

namespace Mabel.Api

open Validate

/-! ## Texts -/

theorem lowered_append (text other : String) :
    lowered (text ++ other) = lowered text ++ lowered other := by
  simp [lowered, toAsciiLowercase]

@[simp] theorem lowered_normalized (host : String) :
    lowered (normalized host) = normalized host := by
  have htwice : Char.toLower ∘ Char.toLower = Char.toLower := by
    ext c
    exact congrArg Char.toNat (Ascii.toLower_toLower c)
  simp [lowered, normalized, toAsciiLowercase, htwice]

/-- A text with a colon is none without. -/
theorem append_colon_ne {text bare : String} (rest : String) (htext : ':' ∈ text.toList)
    (hbare : ':' ∉ bare.toList) : bare ≠ text ++ rest := by
  rintro rfl
  apply hbare
  rw [String.toList_append]
  exact List.mem_append_left _ htext

/-! ## Hosts -/

variable {port : UInt16} {names : List String} {rules : LoopbackRules} {host : String}

namespace LoopbackRules

/-- The hosts are the loopback names with the port and those allowed. -/
theorem mem_hosts : host ∈ rules.hosts ↔
    host = "127.0.0.1:" ++ toString rules.port.toNat ∨
      host = "localhost:" ++ toString rules.port.toNat ∨ host ∈ rules.allowedHosts := by
  rw [hosts, List.mem_append, List.mem_pair, or_assoc]
  rfl

/-- Allowing a name leaves the port. -/
theorem port_allow (rules : LoopbackRules) (name : String) :
    (rules.allow name).port = rules.port := by
  unfold allow
  dsimp only
  split_ifs <;> rfl

theorem withAllowedHosts_cons (rules : LoopbackRules) (name : String) (names : List String) :
    rules.withAllowedHosts (name :: names) = (rules.allow name).withAllowedHosts names :=
  List.foldl_cons ..

/-- One name more is one host more, in its normal form. -/
theorem mem_hosts_allow (name : String) : host ∈ (rules.allow name).hosts ↔
    host ∈ rules.hosts ∨ host ≠ "" ∧ normalized name = host := by
  unfold allow
  by_cases hknown : normalized name = "" ∨ normalized name ∈ rules.hosts
  · rw [if_pos (by simpa [String.isEmpty_iff] using hknown)]
    constructor
    · exact .inl
    · rintro (hhost | ⟨hne, rfl⟩)
      · exact hhost
      · exact hknown.resolve_left hne
  · rw [if_neg (by simpa [String.isEmpty_iff] using hknown)]
    rw [mem_hosts, mem_hosts]
    simp only [List.mem_append, List.mem_singleton]
    push Not at hknown
    constructor
    · rintro (h | h | h | rfl)
      · exact .inl (.inl h)
      · exact .inl (.inr (.inl h))
      · exact .inl (.inr (.inr h))
      · exact .inr ⟨hknown.1, rfl⟩
    · rintro ((h | h | h) | ⟨-, rfl⟩)
      · exact .inl h
      · exact .inr (.inl h)
      · exact .inr (.inr (.inl h))
      · exact .inr (.inr (.inr rfl))

/-- Allowing names leaves the port. -/
theorem port_withAllowedHosts (rules : LoopbackRules) (names : List String) :
    (rules.withAllowedHosts names).port = rules.port := by
  induction names generalizing rules with
  | nil => rfl
  | cons name names ih => rw [withAllowedHosts_cons, ih, port_allow]

/-- The names an operator allows are the hosts accepted beyond loopback. -/
theorem mem_hosts_withAllowedHosts (names : List String) :
    host ∈ (rules.withAllowedHosts names).hosts ↔
      host ∈ rules.hosts ∨ host ≠ "" ∧ ∃ name ∈ names, normalized name = host := by
  induction names generalizing rules with
  | nil => simp [withAllowedHosts]
  | cons name names ih =>
    rw [withAllowedHosts_cons, ih, mem_hosts_allow]
    simp only [List.mem_cons, exists_eq_or_imp]
    rw [or_assoc, ← and_or_left]

/-- A host is accepted when it is listed, or is a bare loopback name on port 80. -/
theorem acceptsHost_iff : rules.acceptsHost host = true ↔
    normalized host ∈ rules.hosts ∨
      rules.port = 80 ∧ (normalized host = "127.0.0.1" ∨ normalized host = "localhost") := by
  simp [acceptsHost]

/-! ## Origins -/

/-- The origins are those of the hosts. -/
theorem mem_origins {origin : String} : origin ∈ rules.origins ↔
    origin = "http://" ++ ("127.0.0.1:" ++ toString rules.port.toNat) ∨
      origin = "http://" ++ ("localhost:" ++ toString rules.port.toNat) ∨
      ∃ host ∈ rules.allowedHosts, origin = "http://" ++ host ∨ origin = "https://" ++ host := by
  have haddress : ("http://127.0.0.1:" : String) = "http://" ++ "127.0.0.1:" := by decide
  have hlocalhost : ("http://localhost:" : String) = "http://" ++ "localhost:" := by decide
  rw [← String.append_assoc, ← String.append_assoc, ← haddress, ← hlocalhost, origins,
    List.mem_append, List.mem_pair, List.mem_flatMap, or_assoc]
  simp only [List.mem_pair]
  rfl

/-- Behind its scheme every accepted origin names an accepted host. -/
theorem exists_host_of_mem_origins {origin : String} (h : origin ∈ rules.origins) :
    ∃ scheme host, (scheme = "http" ∨ scheme = "https") ∧ origin = scheme ++ "://" ++ host ∧
      host ∈ rules.hosts := by
  have hhttp : ("http" : String) ++ "://" = "http://" := by decide
  have hhttps : ("https" : String) ++ "://" = "https://" := by decide
  rcases mem_origins.mp h with rfl | rfl | ⟨host, hhost, rfl | rfl⟩
  · exact ⟨"http", _, .inl rfl, by rw [hhttp], mem_hosts.mpr (.inl rfl)⟩
  · exact ⟨"http", _, .inl rfl, by rw [hhttp], mem_hosts.mpr (.inr (.inl rfl))⟩
  · exact ⟨"http", host, .inl rfl, by rw [hhttp], mem_hosts.mpr (.inr (.inr hhost))⟩
  · exact ⟨"https", host, .inr rfl, by rw [hhttps], mem_hosts.mpr (.inr (.inr hhost))⟩

/-- The plain origin of a host is accepted exactly when the host is listed. -/
theorem http_mem_origins : "http://" ++ host ∈ rules.origins ↔ host ∈ rules.hosts := by
  have hschemes : ∀ other : String, "http://" ++ host ≠ "https://" ++ other := by
    intro other heq
    have hchars := congrArg String.toList heq
    simp at hchars
  rw [mem_origins, mem_hosts]
  simp only [String.append_right_inj, hschemes, or_false, exists_eq_right']

end LoopbackRules

/-- A request passes exactly when each rule that applies to it does. -/
theorem check_eq_ok {method : Method} {headers : HeaderMap} :
    rules.check method headers = .ok () ↔
      (∃ host, headers.host = some host ∧ rules.acceptsHost host = true) ∧
      (LoopbackRules.isMutating method = true →
        (∃ origin, headers.origin = some origin ∧ lowered origin ∈ rules.origins) ∧
        ∃ contentType, headers.contentType = some contentType ∧ isJson contentType = true) := by
  obtain ⟨hostHeader, origin, contentType⟩ := headers
  unfold LoopbackRules.check
  cases hostHeader with
  | none => simp
  | some host =>
    by_cases hhost : rules.acceptsHost host = true
    · cases hmutating : LoopbackRules.isMutating method with
      | false =>
        simp [hhost]
        rfl
      | true =>
        cases origin with
        | none => simp [hhost]
        | some origin =>
          by_cases horigin : lowered origin ∈ rules.origins
          · cases contentType with
            | none => simp [hhost, horigin]
            | some contentType =>
              by_cases hjson : isJson contentType = true
              · simp [hhost, horigin, hjson]
                rfl
              · simp [hhost, horigin, hjson]
          · simp [hhost, horigin]
    · simp [hhost]

/-! ## What passes -/

/-- A host that a port accepts when an operator allowed these names, in its normal form. -/
inductive Accepted (port : UInt16) (names : List String) : String → Prop
  | address : Accepted port names ("127.0.0.1:" ++ toString port.toNat)
  | localhost : Accepted port names ("localhost:" ++ toString port.toNat)
  | allowed {name : String} (hname : name ∈ names) (hne : normalized name ≠ "") :
    Accepted port names (normalized name)
  | bareAddress (hport : port = 80) : Accepted port names "127.0.0.1"
  | bareLocalhost (hport : port = 80) : Accepted port names "localhost"

/-- The rules of a port with these names allowed. -/
def rulesOf (port : UInt16) (names : List String) : LoopbackRules :=
  (LoopbackRules.new port).withAllowedHosts names

theorem port_rulesOf : (rulesOf port names).port = port :=
  LoopbackRules.port_withAllowedHosts _ _

/-- The hosts of rules made from a port and names. -/
theorem mem_hosts_rulesOf : host ∈ (rulesOf port names).hosts ↔
    host = "127.0.0.1:" ++ toString port.toNat ∨ host = "localhost:" ++ toString port.toNat ∨
      host ≠ "" ∧ ∃ name ∈ names, normalized name = host := by
  rw [rulesOf, LoopbackRules.mem_hosts_withAllowedHosts, LoopbackRules.mem_hosts, or_assoc]
  simp only [LoopbackRules.new, List.not_mem_nil, or_false]

/-- A listed host is one the property names. -/
theorem accepted_of_mem_hosts (h : host ∈ (rulesOf port names).hosts) :
    Accepted port names host := by
  rcases mem_hosts_rulesOf.mp h with rfl | rfl | ⟨hne, name, hname, rfl⟩
  · exact .address
  · exact .localhost
  · exact .allowed hname hne

/-- An accepted host is one the property names. -/
theorem acceptsHost_rulesOf (h : (rulesOf port names).acceptsHost host = true) :
    Accepted port names (normalized host) := by
  rcases LoopbackRules.acceptsHost_iff.mp h with hlisted | ⟨hport, hbare | hbare⟩
  · exact accepted_of_mem_hosts hlisted
  · rw [hbare]
    exact .bareAddress (port_rulesOf.symm.trans hport)
  · rw [hbare]
    exact .bareLocalhost (port_rulesOf.symm.trans hport)

/-- A host that is accepted is listed, unless it leaves out the default port and no name allows it
as it stands. -/
theorem mem_hosts_iff (h : (rulesOf port names).acceptsHost host = true) :
    normalized host ∈ (rulesOf port names).hosts ↔
      port ≠ 80 ∨ normalized host ≠ "127.0.0.1" ∧ normalized host ≠ "localhost" ∨
        ∃ name ∈ names, normalized name = normalized host := by
  have haccepts := LoopbackRules.acceptsHost_iff.mp h
  rw [port_rulesOf] at haccepts
  constructor
  · intro hlisted
    rcases mem_hosts_rulesOf.mp hlisted with haddress | hlocalhost | ⟨-, hname⟩
    · refine .inr (.inl ?_)
      rw [haddress]
      exact ⟨(append_colon_ne _ (by decide) (by decide)).symm,
        (append_colon_ne _ (by decide) (by decide)).symm⟩
    · refine .inr (.inl ?_)
      rw [hlocalhost]
      exact ⟨(append_colon_ne _ (by decide) (by decide)).symm,
        (append_colon_ne _ (by decide) (by decide)).symm⟩
    · exact .inr (.inr hname)
  · rintro (hport | ⟨haddress, hlocalhost⟩ | hname)
    · exact haccepts.resolve_right fun hbare => hport hbare.1
    · exact haccepts.resolve_right fun hbare => hbare.2.elim haddress hlocalhost
    · rcases haccepts with hlisted | ⟨-, hbare⟩
      · exact hlisted
      · refine mem_hosts_rulesOf.mpr (.inr (.inr ⟨?_, hname⟩))
        rcases hbare with hbare | hbare <;> rw [hbare] <;> decide

/-- A mutating request passes only with an accepted host, an origin whose host is accepted and a
content type of JSON. The other way round a page served under a host that reads accept can write
from its own origin exactly when the host is spelled with its port, the port is not the default
one, or an operator allowed the host as it stands. -/
theorem loopback_open_iff (port : UInt16) (names : List String) :
    (∀ method headers, LoopbackRules.isMutating method = true →
      (rulesOf port names).check method headers = .ok () →
      (∃ host, headers.host = some host ∧ Accepted port names (normalized host)) ∧
      (∃ origin scheme host, headers.origin = some origin ∧
        (scheme = "http" ∨ scheme = "https") ∧ lowered origin = scheme ++ "://" ++ host ∧
        Accepted port names host) ∧
      ∃ contentType, headers.contentType = some contentType ∧ isJson contentType = true) ∧
    ∀ host, (rulesOf port names).check .get ⟨some host, none, none⟩ = .ok () →
      ∀ method contentType, LoopbackRules.isMutating method = true → isJson contentType = true →
        ((rulesOf port names).check method
            ⟨some host, some ("http://" ++ normalized host), some contentType⟩ = .ok () ↔
          port ≠ 80 ∨ normalized host ≠ "127.0.0.1" ∧ normalized host ≠ "localhost" ∨
            ∃ name ∈ names, normalized name = normalized host) := by
  constructor
  · intro method headers hmutating hcheck
    obtain ⟨⟨host, hhost, haccepts⟩, hrest⟩ := check_eq_ok.mp hcheck
    obtain ⟨⟨origin, horigin, hlisted⟩, hjson⟩ := hrest hmutating
    obtain ⟨scheme, named, hscheme, hsplit, hnamed⟩ :=
      LoopbackRules.exists_host_of_mem_origins hlisted
    exact ⟨⟨host, hhost, acceptsHost_rulesOf haccepts⟩,
      ⟨origin, scheme, named, horigin, hscheme, hsplit, accepted_of_mem_hosts hnamed⟩, hjson⟩
  · intro host hget method contentType hmutating hjson
    obtain ⟨⟨same, hsame, haccepts⟩, -⟩ := check_eq_ok.mp hget
    obtain rfl : host = same := Option.some.inj hsame
    have hplain : lowered ("http://" ++ normalized host) = "http://" ++ normalized host := by
      rw [lowered_append, lowered_normalized]
      rfl
    rw [← mem_hosts_iff haccepts, ← LoopbackRules.http_mem_origins, check_eq_ok]
    simp [haccepts, hmutating, hjson, hplain]

/-- On the default port the page that a browser names without a port can be read and cannot
write. -/
theorem loopback_locks_out_default_port :
    (rulesOf 80 []).check .get ⟨some "localhost", none, none⟩ = .ok () ∧
      (rulesOf 80 []).check .post
        ⟨some "localhost", some ("http://" ++ normalized "localhost"), some "application/json"⟩ ≠
          .ok () := by
  decide +kernel

end Mabel.Api
