import Mabel.Ledger.Validate.Scan
import Mabel.Verification.Contacts
import Mabel.Verification.Verify

/-!
# The duplicated text rules agree

The hostname check copies the validator's hostname rule and the contact check its codepoint rule,
each with a length limit of its own beside it. Both copies accept what the originals accept, and a
hostname is accepted exactly if it is a short dotted name of letters, digits and hyphens.
-/

namespace Mabel.Verification

open Wire Validate

/-! ## Contact text -/

/-- A contact's characters pass exactly if the codepoint policy of published text passes. -/
theorem checkCharacters_eq_ok (field : String) (text : String) :
    checkCharacters field text.toList = .ok () ↔ checkCodepoints text = .ok () := by
  have hreason : contactDetail = codepointReason := rfl
  unfold checkCodepoints
  generalize text.toList = characters
  induction characters with
  | nil => simp [checkCharacters]
  | cons character characters ih =>
    rw [checkCharacters, List.findSome?_cons, hreason]
    cases codepointReason character with
    | none => exact ih
    | some detail => simp

/-- The contact check passes a value that is short, of allowed codepoints and trimmed. -/
theorem checkText_eq_ok {field value : String} {cap : Nat} : checkText field value cap = .ok () ↔
    value.utf8ByteSize ≤ cap ∧ checkCodepoints value = .ok () ∧ trim value = value := by
  unfold checkText
  rw [← checkCharacters_eq_ok field value]
  by_cases hlen : value.utf8ByteSize > cap
  · simp [hlen]
  · rw [if_neg hlen]
    cases checkCharacters field value.toList with
    | error error => simp
    | ok u =>
      by_cases htrim : trim value = value
      · simp [htrim, not_lt.mp hlen]
      · simp [htrim]

/-- What is kept of a field passes its check and is not empty, and it would be kept as it is. -/
theorem normalize_some {field kept : String} {value : Option String} {cap : Nat}
    (h : normalize field value cap = .ok (some kept)) :
    checkText field kept cap = .ok () ∧ kept ≠ "" ∧
      normalize field (some kept) cap = .ok (some kept) := by
  obtain ⟨hcheck, hne⟩ : checkText field kept cap = .ok () ∧ kept.isEmpty = false := by
    rw [normalize] at h
    cases hvalue : (value.map trim).filter fun value => !value.isEmpty with
    | none => simp [hvalue] at h
    | some trimmed =>
      rw [hvalue] at h
      dsimp only at h
      cases hcheck : checkText field trimmed cap with
      | error error => simp [hcheck] at h
      | ok u =>
        rw [hcheck] at h
        obtain rfl := Option.some.inj (Except.ok.inj h)
        exact ⟨hcheck, by simpa using (Option.filter_eq_some_iff.mp hvalue).2⟩
  have htrim := (checkText_eq_ok.mp hcheck).2.2
  refine ⟨hcheck, by simpa using hne, ?_⟩
  rw [normalize, Option.map_some, htrim, Option.filter_some, if_pos (by simpa using hne)]
  dsimp only
  rw [hcheck]
  rfl

/-! ## Dotted names -/

/-- A lowercase letter or a digit. -/
def LetterOrDigit (c : Char) : Prop := ('a' ≤ c ∧ c ≤ 'z') ∨ ('0' ≤ c ∧ c ≤ '9')

/-- One to 63 letters, digits and hyphens, with a letter or digit at both edges. -/
structure LdhLabel (label : List Char) : Prop where
  length : 1 ≤ label.length ∧ label.length ≤ 63
  chars : ∀ c ∈ label, LetterOrDigit c ∨ c = '-'
  first : ∀ c, label.head? = some c → LetterOrDigit c
  last : ∀ c, label.getLast? = some c → LetterOrDigit c

/-- At least two labels with dots between them. -/
def LdhName (text : String) : Prop :=
  ∃ labels : List (List Char), 2 ≤ labels.length ∧ (∀ label ∈ labels, LdhLabel label) ∧
    text.toList = ['.'].intercalate labels

/-- A character of a joined list is the separator or a part's. -/
theorem mem_intercalate {α : Type} {x c : α} {parts : List (List α)}
    (h : c ∈ [x].intercalate parts) : c = x ∨ ∃ part ∈ parts, c ∈ part := by
  induction parts with
  | nil => simp at h
  | cons part parts ih =>
    cases parts with
    | nil => exact .inr ⟨part, by simp, by simpa using h⟩
    | cons next parts =>
      rw [List.intercalate_cons_cons, List.append_assoc, List.mem_append, List.mem_append,
        List.mem_singleton] at h
      rcases h with h | h | h
      · exact .inr ⟨part, by simp, h⟩
      · exact .inl h
      · exact (ih h).imp_right fun ⟨p, hp, hc⟩ => ⟨p, List.mem_cons_of_mem _ hp, hc⟩

/-- Every character of a part is one of the joined list. -/
theorem mem_intercalate_of_mem {α : Type} {x c : α} {part : List α} {parts : List (List α)}
    (hpart : part ∈ parts) (hc : c ∈ part) : c ∈ [x].intercalate parts := by
  induction parts with
  | nil => simp at hpart
  | cons first parts ih =>
    cases parts with
    | nil =>
      obtain rfl := List.mem_singleton.mp hpart
      simpa using hc
    | cons next parts =>
      rw [List.intercalate_cons_cons, List.append_assoc, List.mem_append, List.mem_append]
      rcases List.mem_cons.mp hpart with rfl | hpart
      · exact .inl hc
      · exact .inr (.inr (ih hpart))

/-! ## The validator's rule -/

/-- Lower-cased letters and digits are those of a hostname. -/
theorem isAsciiAlphanumeric_iff {c : Char} (h : ¬ ('A' ≤ c ∧ c ≤ 'Z')) :
    isAsciiAlphanumeric c = true ↔ LetterOrDigit c := by
  simp only [isAsciiAlphanumeric, Bool.or_eq_true, Bool.and_eq_true, decide_eq_true_eq,
    LetterOrDigit]
  tauto

/-- A lower-cased label passes when it is one of letters, digits and inner hyphens. -/
theorem checkLabel_eq_ok {label : List Char} (h : ∀ c ∈ label, ¬ ('A' ≤ c ∧ c ≤ 'Z')) :
    checkLabel label = .ok () ↔ LdhLabel label := by
  cases hfirst : label.head? with
  | none =>
    obtain rfl := List.head?_eq_none_iff.mp hfirst
    simp only [checkLabel, List.head?_nil, reduceCtorEq, false_iff]
    exact fun hlabel => absurd hlabel.length.1 (by simp)
  | some first =>
    have hne : label ≠ [] := by
      rintro rfl
      simp at hfirst
    obtain ⟨last, hlast⟩ : ∃ last, label.getLast? = some last :=
      ⟨_, List.getLast?_eq_some_getLast hne⟩
    have hcase := fun c hc => isAsciiAlphanumeric_iff (h c hc)
    have hfirst' := hcase first (List.mem_of_head? hfirst)
    have hlast' := hcase last (List.mem_of_getLast? hlast)
    have hall : (label.all fun c => isAsciiAlphanumeric c || c == '-') = true ↔
        ∀ c ∈ label, LetterOrDigit c ∨ c = '-' := by
      simp only [List.all_eq_true, Bool.or_eq_true, beq_iff_eq]
      exact forall₂_congr fun c hc => or_congr_left (hcase c hc)
    simp only [checkLabel, hfirst, hlast, gt_iff_lt, Bool.not_eq_true', Bool.or_eq_true]
    constructor
    · intro hok
      split_ifs at hok with hlen hedge hchars
      simp only [not_or, Bool.not_eq_false] at hedge hchars
      refine ⟨⟨List.length_pos_iff.mpr hne, not_lt.mp hlen⟩, hall.mp hchars, ?_, ?_⟩
      · intro c hc
        obtain rfl := Option.some.inj (hfirst.symm.trans hc)
        exact hfirst'.mp hedge.1
      · intro c hc
        obtain rfl := Option.some.inj (hlast.symm.trans hc)
        exact hlast'.mp hedge.2
    · intro hlabel
      rw [if_neg (show ¬ maxHostnameLabelBytes < label.length from not_lt.mpr hlabel.length.2), if_neg,
        if_neg]
      · simpa only [Bool.not_eq_false] using hall.mpr hlabel.chars
      · simp only [not_or, Bool.not_eq_false]
        exact ⟨hfirst'.mpr (hlabel.first first hfirst), hlast'.mpr (hlabel.last last hlast)⟩

/-- A letter or digit of a hostname is a lower-cased ASCII character and no dot. -/
theorem LetterOrDigit.bounds {c : Char} (h : LetterOrDigit c) :
    c.toNat < 128 ∧ ¬ ('A' ≤ c ∧ c ≤ 'Z') ∧ c ≠ '.' := by
  have hnat : (97 ≤ c.toNat ∧ c.toNat ≤ 122) ∨ (48 ≤ c.toNat ∧ c.toNat ≤ 57) := h
  refine ⟨by omega, fun hupper => ?_, ?_⟩
  · have hlow : 65 ≤ c.toNat := hupper.1
    have hhigh : c.toNat ≤ 90 := hupper.2
    omega
  · rintro rfl
    simp at hnat

/-- What a dotted name is made of. -/
theorem LdhLabel.bounds {label : List Char} (h : LdhLabel label) :
    ∀ c ∈ label, c.toNat < 128 ∧ ¬ ('A' ≤ c ∧ c ≤ 'Z') ∧ c ≠ '.' := by
  intro c hc
  rcases h.chars c hc with hc | rfl
  · exact hc.bounds
  · decide

/-- The validator's hostname rule accepts exactly the dotted names. -/
theorem validate_checkHostname_eq_ok {text : String} :
    Validate.checkHostname text = .ok () ↔ LdhName text := by
  unfold Validate.checkHostname LdhName
  generalize text.toList = chars
  simp only [Bool.not_eq_true', List.all_eq_false, List.any_eq_true, decide_eq_true_eq]
  constructor
  · intro h
    split_ifs at h with hascii hupper hend hdot
    have hlower : ∀ c ∈ chars, ¬ ('A' ≤ c ∧ c ≤ 'Z') := by simpa using hupper
    have hlabels : ∀ label ∈ chars.splitOn '.', LdhLabel label := by
      intro label hlabel
      refine (checkLabel_eq_ok fun c hc => hlower c ?_).mp (Outcome.forM_eq_ok.mp h label hlabel)
      have hjoin : ['.'].intercalate (chars.splitOn '.') = chars := List.intercalate_splitOn '.'
      rw [← hjoin]
      exact mem_intercalate_of_mem hlabel hc
    obtain ⟨front, rest, rfl⟩ := List.append_of_mem hdot
    refine ⟨_, ?_, hlabels, (List.intercalate_splitOn '.').symm⟩
    rw [List.splitOn_append_cons_self, List.length_append]
    have hfront := List.length_pos_iff.mpr (List.splitOn_ne_nil '.' front)
    have hrest := List.length_pos_iff.mpr (List.splitOn_ne_nil '.' rest)
    omega
  · rintro ⟨labels, htwo, hlabels, rfl⟩
    have hne : labels ≠ [] := List.ne_nil_of_length_pos (by omega)
    have hsplit : (['.'].intercalate labels).splitOn '.' = labels :=
      List.splitOn_intercalate '.' (fun label hlabel hdot =>
        ((hlabels label hlabel).bounds '.' hdot).2.2 rfl) hne
    have hchars : ∀ c ∈ ['.'].intercalate labels, c.toNat < 128 ∧ ¬ ('A' ≤ c ∧ c ≤ 'Z') := by
      intro c hc
      rcases mem_intercalate hc with rfl | ⟨label, hlabel, hc⟩
      · decide
      · exact ⟨((hlabels label hlabel).bounds c hc).1, ((hlabels label hlabel).bounds c hc).2.1⟩
    rw [if_neg, if_neg, if_neg, if_neg, hsplit]
    · refine Outcome.forM_eq_ok.mpr fun label hlabel => ?_
      exact (checkLabel_eq_ok fun c hc => ((hlabels label hlabel).bounds c hc).2.1).mpr
        (hlabels label hlabel)
    · -- Without a dot there would be one label only.
      intro hdot
      rw [List.splitOn_eq_singleton hdot] at hsplit
      rw [← hsplit] at htwo
      simp at htwo
    · -- A dot at the end would leave an empty label behind it.
      intro hend
      obtain ⟨front, hfront⟩ := List.getLast?_eq_some_iff.mp hend
      rw [hfront, List.splitOn_append_cons_self, List.splitOn_nil] at hsplit
      have hempty : [] ∈ labels := by rw [← hsplit]; simp
      exact absurd (hlabels [] hempty).length.1 (by simp)
    · rintro ⟨c, hc, hupper⟩
      exact (hchars c hc).2 (by simpa using hupper)
    · rintro ⟨c, hc, hascii⟩
      exact hascii (hchars c hc).1

/-- The copy answers as the original does on a text the copy's own limits pass. -/
theorem checkHostname_eq {text : String} (hne : text ≠ "")
    (hlen : text.utf8ByteSize ≤ maxHostnameBytes) :
    checkHostname text = Validate.checkHostname text := by
  have hlabel : checkHostnameLabel = checkLabel := by
    have halnum : Char.isAlphanum = isAsciiAlphanumeric := by
      ext c
      change ((decide ('A' ≤ c ∧ c ≤ 'Z') || ('a' ≤ c && c ≤ 'z')) || ('0' ≤ c && c ≤ '9')) = _
      rw [Bool.decide_and, Bool.or_comm (decide ('A' ≤ c) && _)]
      rfl
    funext label
    unfold checkHostnameLabel checkLabel
    cases label.head? <;> cases label.getLast? <;> simp only [halnum]
  unfold checkHostname Validate.checkHostname
  rw [if_neg (by simpa using hne), if_neg (not_lt.mpr hlen), hlabel]
  have hupper : Char.isUpper = fun c => decide ('A' ≤ c ∧ c ≤ 'Z') := rfl
  simp [isAscii, hupper]

/-! ## Agreement -/

/-- The contact check of a hostname is the schema's with its bounds. -/
theorem checkHostname_eq_ok {text : String} : checkHostname text = .ok () ↔
    text ≠ "" ∧ text.utf8ByteSize ≤ maxHostnameBytes ∧ Validate.checkHostname text = .ok () := by
  by_cases hne : text = ""
  · subst hne
    simp [checkHostname]
  · by_cases hlen : text.utf8ByteSize ≤ maxHostnameBytes
    · simp [checkHostname_eq hne hlen, hne, hlen]
    · have hrefused : checkHostname text = .error "it is over 246 bytes" := by
        unfold checkHostname
        rw [if_neg (by simpa using hne), if_pos (not_le.mp hlen)]
      simp [hrefused, hlen]

/-- The row of a profile's hostname. -/
def hostnameField : Field := Validate.optional 2 "hostname" (.string maxHostnameBytes .hostname)

/-- The schema's row of a hostname is the same rule on its bytes. -/
theorem checkBytes_hostname {validate : Validator} {text : String} {depth : Nat} :
    checkBytes validate hostnameField Descriptor.profileUpdate.name (utf8 text) depth = .ok () ↔
      text ≠ "" ∧ text.utf8ByteSize ≤ maxHostnameBytes ∧
        Validate.checkHostname text = .ok () := by
  have hsize : (utf8 text).length = text.utf8ByteSize := rfl
  have hreason : ∀ {wrap : String → WireError} {x : Except String Unit},
      ofReason wrap x = .ok () ↔ x = .ok () := by
    intro wrap x
    cases x <;> simp [ofReason]
  simp only [checkBytes, hostnameField, Validate.optional, checkSize, checkRule,
    Outcome.bind_eq_ok, Outcome.rejectIf_eq_ok, Outcome.orReject_eq_ok, fromUtf8_utf8,
    Option.some.injEq, exists_const, exists_eq_left', hreason, utf8_eq_nil, hsize, gt_iff_lt,
    not_lt, and_assoc]

/-- The hostname check accepts what the profile's hostname field accepts, which are the dotted
names of at most 246 bytes, and the contact check accepts what fits its cap and passes the
validator's codepoint policy and trim clause. -/
theorem text_rules_agree :
    hostnameField ∈ Descriptor.profileUpdate.fields ∧
    (∀ (validate : Validator) (depth : Nat) (text : String), checkHostname text = .ok () ↔
      checkBytes validate hostnameField Descriptor.profileUpdate.name (utf8 text) depth =
        .ok ()) ∧
    (∀ text : String, checkHostname text = .ok () ↔ LdhName text ∧ text.utf8ByteSize ≤ 246) ∧
    (∀ (field value : String) (cap : Nat), checkText field value cap = .ok () ↔
      value.utf8ByteSize ≤ cap ∧ checkCodepoints value = .ok () ∧ trim value = value) := by
  refine ⟨by simp [hostnameField, Descriptor.profileUpdate], fun validate depth text => ?_,
    fun text => ?_, fun field value cap => checkText_eq_ok⟩
  · rw [checkHostname_eq_ok, checkBytes_hostname]
  · rw [checkHostname_eq_ok, validate_checkHostname_eq_ok]
    constructor
    · rintro ⟨-, hlen, hname⟩
      exact ⟨hname, hlen⟩
    · rintro ⟨hname, hlen⟩
      refine ⟨?_, hlen, hname⟩
      rintro rfl
      obtain ⟨labels, htwo, hlabels, htext⟩ := hname
      cases labels with
      | nil => simp at htwo
      | cons label labels =>
        obtain ⟨c, hc⟩ := List.exists_mem_of_length_pos (hlabels label (by simp)).length.1
        have hmem := mem_intercalate_of_mem (x := '.') (List.mem_cons_self (l := labels)) hc
        rw [← htext] at hmem
        simp at hmem

end Mabel.Verification
