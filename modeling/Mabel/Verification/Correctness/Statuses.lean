import Mabel.Verification.Correctness.Endpoints

/-!
# The statuses of a hostname check are exact

A check walks from name to name while a name has no TXT record and is an alias of a new one. Where
the walk ends decides the status, and a walk has at most five names, so the check ends. An answer
that is missing, a loop and a walk that is too long are all unreachable.
-/

namespace Mabel.Verification

open Wire

/-! ## Walks -/

/-- A name without TXT records that is an alias of the next one. -/
def Alias (resolver : Resolver) (name next : String) : Prop :=
  resolver.lookupTxt name = .ok [] ∧
    ∃ target, resolver.lookupCname name = .ok (some target) ∧ next = absolute target

/-- Following aliases from the label of a hostname over at most four links, through no name twice,
leads to a name. -/
def Leads (resolver : Resolver) (hostname name : String) : Prop :=
  ∃ names : List String, names.head? = some (queryName hostname) ∧ names.getLast? = some name ∧
    names.Nodup ∧ names.length ≤ 5 ∧ names.IsChain (Alias resolver)

/-- A `mabel=` record, whatever follows. -/
def IsClaim (record : TxtRecord) : Prop :=
  ∃ head rest, record.value = head ++ rest ∧ head.map asciiLower = utf8 "mabel="

/-- The walks a check has left after the names it visited. -/
def LeadsFrom (resolver : Resolver) : (links : Nat) → (visited : List String) →
    (name last : String) → Prop
  | 0, _, name, last => name = last
  | links + 1, visited, name, last => name = last ∨ ∃ next, Alias resolver name next ∧
      next ∉ visited ∧ LeadsFrom resolver links (visited ++ [next]) next last

/-- A chain of names leads on exactly when its links are aliases within the bound. -/
theorem leadsFrom_iff {resolver : Resolver} {last : String} : ∀ {links : Nat}
    {visited : List String} {name : String}, LeadsFrom resolver links visited name last ↔
      ∃ names : List String, (name :: names).getLast? = some last ∧ names.length ≤ links ∧
        names.Nodup ∧ (∀ next ∈ names, next ∉ visited) ∧
        (name :: names).IsChain (Alias resolver) := by
  intro links
  induction links with
  | zero =>
    intro visited name
    constructor
    · rintro rfl
      exact ⟨[], rfl, le_rfl, by simp, by simp, by simp⟩
    · rintro ⟨names, hlast, hlen, -⟩
      obtain rfl : names = [] := List.eq_nil_of_length_eq_zero (by omega)
      simpa [LeadsFrom] using hlast
  | succ links ih =>
    intro visited name
    rw [LeadsFrom]
    simp only [ih]
    constructor
    · rintro (rfl | ⟨next, halias, hnew, names, hlast, hlen, hnodup, hvisited, hchain⟩)
      · exact ⟨[], rfl, Nat.zero_le _, by simp, by simp, by simp⟩
      · refine ⟨next :: names, ?_, Nat.succ_le_succ hlen, ?_, ?_, ?_⟩
        · rw [List.getLast?_cons_cons, hlast]
        · exact List.nodup_cons.mpr ⟨fun h => hvisited next h (by simp), hnodup⟩
        · refine List.forall_mem_cons.mpr ⟨hnew, fun n hn hmem => ?_⟩
          exact hvisited n hn (List.mem_append_left _ hmem)
        · exact List.isChain_cons_cons.mpr ⟨halias, hchain⟩
    · rintro ⟨names, hlast, hlen, hnodup, hvisited, hchain⟩
      cases names with
      | nil => exact .inl (by simpa using hlast)
      | cons next names =>
        obtain ⟨halias, hchain⟩ := List.isChain_cons_cons.mp hchain
        obtain ⟨hnext, hnodup⟩ := List.nodup_cons.mp hnodup
        obtain ⟨hnew, hvisited⟩ := List.forall_mem_cons.mp hvisited
        refine .inr ⟨next, halias, hnew, names, ?_, Nat.le_of_succ_le_succ hlen, hnodup, ?_, hchain⟩
        · rwa [List.getLast?_cons_cons] at hlast
        · intro n hn hmem
          rcases List.mem_append.mp hmem with hmem | hmem
          · exact hvisited n hn hmem
          · exact hnext (List.mem_singleton.mp hmem ▸ hn)

/-- A hostname leads on from its query name. -/
theorem leads_iff {resolver : Resolver} {hostname name : String} :
    Leads resolver hostname name ↔ LeadsFrom resolver maxCnameLinks [queryName hostname]
      (queryName hostname) name := by
  rw [leadsFrom_iff, Leads]
  constructor
  · rintro ⟨names, hhead, hlast, hnodup, hlen, hchain⟩
    cases names with
    | nil => simp at hhead
    | cons first names =>
      obtain rfl : first = queryName hostname := by simpa using hhead
      obtain ⟨hfirst, hnodup⟩ := List.nodup_cons.mp hnodup
      refine ⟨names, hlast, Nat.le_of_succ_le_succ hlen, hnodup, ?_, hchain⟩
      intro next hnext hmem
      exact hfirst (List.mem_singleton.mp hmem ▸ hnext)
  · rintro ⟨names, hlast, hlen, hnodup, hvisited, hchain⟩
    refine ⟨queryName hostname :: names, rfl, hlast, ?_, Nat.succ_le_succ hlen, hchain⟩
    exact List.nodup_cons.mpr ⟨fun hmem => hvisited _ hmem (by simp), hnodup⟩

/-! ## Where a walk ends -/

/-- What the end of a walk decides. -/
def EndsAt (resolver : Resolver) (identity : IdentityId) (status : VerificationStatus)
    (name : String) : Prop :=
  match status with
  | .verified => ∃ records, resolver.lookupTxt name = .ok records ∧
      ∃ record ∈ records, Claims record identity
  | .mismatched => ∃ records, resolver.lookupTxt name = .ok records ∧
      (∃ record ∈ records, IsClaim record) ∧ ∀ record ∈ records, ¬ Claims record identity
  | .unverified => (∃ records, resolver.lookupTxt name = .ok records ∧ records ≠ [] ∧
      ∀ record ∈ records, ¬ IsClaim record) ∨
      (resolver.lookupTxt name = .ok [] ∧ resolver.lookupCname name = .ok none)
  | _ => False

/-- A record parses as a claim when it is one. -/
theorem mabelClaim_isSome {record : TxtRecord} :
    (mabelClaim record.value).isSome = true ↔ IsClaim record := by
  have hlower : (utf8 txtPrefix).map asciiLower = utf8 txtPrefix := by decide
  unfold mabelClaim claimBehind IsClaim
  generalize record.value = value
  simp only [hlower]
  constructor
  · intro h
    split_ifs at h with hlen hstart
    · simp at h
    · simp at h
    · exact ⟨_, _, (List.take_append_drop (utf8 txtPrefix).length value).symm,
        not_not.mp hstart⟩
  · rintro ⟨head, rest, rfl, hhead⟩
    have hlen : head.length = (utf8 txtPrefix).length := by
      have hlength := congrArg List.length hhead
      rw [List.length_map] at hlength
      exact hlength
    rw [if_neg (by simp [hlen]), ← hlen, List.take_left, if_neg]
    · rfl
    · exact not_not.mpr hhead

/-- A record that claims an identity is a claim. -/
theorem Claims.isClaim {record : TxtRecord} {identity : IdentityId} (h : Claims record identity) :
    IsClaim record := by
  obtain ⟨text, ⟨head, hvalue, hhead⟩, -⟩ := h
  exact ⟨head, _, hvalue, hhead⟩

/-- The scan stops at the first record that names the identity and counts the claims otherwise. -/
theorem scanClaims_eq {identity : IdentityId} : ∀ {records : List TxtRecord} {claims : Nat},
    (scanClaims identity claims records = none ↔ ∃ record ∈ records, Claims record identity) ∧
    ∀ n, scanClaims identity claims records = some n →
      claims ≤ n ∧ (n = claims ↔ ∀ record ∈ records, ¬ IsClaim record) := by
  intro records
  induction records with
  | nil => simp [scanClaims]
  | cons record records ih =>
    intro claims
    have hclaim := @mabelClaim_isSome record
    have hnames := @mabelClaim_names record identity
    rw [scanClaims]
    cases hread : mabelClaim record.value with
    | none =>
      rw [hread] at hclaim hnames
      simp only [Option.isSome_none, Bool.false_eq_true, false_iff, Option.any_none] at hclaim hnames
      simp only [List.mem_cons, exists_eq_or_imp, forall_eq_or_imp, hnames, false_or, hclaim,
        not_false_eq_true, true_and]
      exact ih
    | some claimed =>
      rw [hread] at hclaim hnames
      simp only [Option.isSome_some, true_iff, Option.any_some] at hclaim hnames
      by_cases hsame : namesIdentity identity claimed = true
      · simp only [if_pos hsame, true_iff, reduceCtorEq, false_implies, implies_true, and_true]
        exact ⟨record, by simp, hnames.mp hsame⟩
      · simp only [if_neg hsame, List.mem_cons, exists_eq_or_imp, forall_eq_or_imp,
          hnames.not.mp hsame, false_or, hclaim, not_true_eq_false, false_and, iff_false]
        have hrest := @ih (claims + 1)
        refine ⟨hrest.1, fun n hn => ?_⟩
        have := (hrest.2 n hn).1
        omega

/-- The records that were found decide the status. -/
theorem classify_status {resolver : Resolver} {hostname name : String} {identity : IdentityId}
    {records : List TxtRecord} (htxt : resolver.lookupTxt name = .ok records)
    (hne : records ≠ []) : EndsAt resolver identity
      (classify hostname name records identity).status name := by
  obtain ⟨hnone, hsome⟩ := @scanClaims_eq identity records 0
  unfold classify
  cases hscan : scanClaims identity 0 records with
  | none => exact ⟨records, htxt, hnone.mp hscan⟩
  | some n =>
    have hclaims : ∀ record ∈ records, ¬ Claims record identity := fun record hrecord hclaim =>
      absurd (hnone.mpr ⟨record, hrecord, hclaim⟩) (by simp [hscan])
    obtain ⟨-, hzero⟩ := hsome n hscan
    have hmismatched : n ≠ 0 → EndsAt resolver identity .mismatched name := by
      intro hn
      refine ⟨records, htxt, ?_, hclaims⟩
      by_contra hall
      exact hn (hzero.mpr fun record hrecord hclaim => hall ⟨record, hrecord, hclaim⟩)
    match n, hzero, hmismatched with
    | 0, hzero, _ => exact .inl ⟨records, htxt, hne, hzero.mp rfl⟩
    | 1, _, hmismatched => exact hmismatched (by omega)
    | n + 2, _, hmismatched => exact hmismatched (by omega)

section EndsAt

variable {resolver : Resolver} {identity : IdentityId} {name : String}
  {status other : VerificationStatus}

/-- A walk's end decides one status only. -/
theorem EndsAt.unique (h : EndsAt resolver identity status name)
    (h' : EndsAt resolver identity other name) : status = other := by
  have hverified : EndsAt resolver identity .verified name →
      ¬ EndsAt resolver identity .mismatched name := by
    rintro ⟨records, htxt, record, hrecord, hclaim⟩ ⟨records', htxt', -, hnone⟩
    obtain rfl := Except.ok.inj (htxt.symm.trans htxt')
    exact hnone record hrecord hclaim
  have hclaimed : (∃ records, resolver.lookupTxt name = .ok records ∧
      ∃ record ∈ records, IsClaim record) → ¬ EndsAt resolver identity .unverified name := by
    rintro ⟨records, htxt, record, hrecord, hclaim⟩ (⟨records', htxt', -, hnone⟩ | ⟨htxt', -⟩)
    · obtain rfl := Except.ok.inj (htxt.symm.trans htxt')
      exact hnone record hrecord hclaim
    · obtain rfl := Except.ok.inj (htxt.symm.trans htxt')
      simp at hrecord
  have hmatch : EndsAt resolver identity .verified name →
      ¬ EndsAt resolver identity .unverified name := fun ⟨records, htxt, record, hrecord, hclaim⟩ =>
    hclaimed ⟨records, htxt, record, hrecord, hclaim.isClaim⟩
  have hother : EndsAt resolver identity .mismatched name →
      ¬ EndsAt resolver identity .unverified name := fun ⟨records, htxt, hclaim, _⟩ =>
    hclaimed ⟨records, htxt, hclaim⟩
  cases status with
  | verified =>
    cases other with
    | verified => rfl
    | mismatched => exact absurd h' (hverified h)
    | unverified => exact absurd h' (hmatch h)
    | _ => exact h'.elim
  | mismatched =>
    cases other with
    | verified => exact absurd h (hverified h')
    | mismatched => rfl
    | unverified => exact absurd h' (hother h)
    | _ => exact h'.elim
  | unverified =>
    cases other with
    | verified => exact absurd h (hmatch h')
    | mismatched => exact absurd h (hother h')
    | unverified => rfl
    | _ => exact h'.elim
  | _ => exact h.elim

/-- A name where a walk ends is no alias. -/
theorem EndsAt.not_alias (h : EndsAt resolver identity status name) {next : String} :
    ¬ Alias resolver name next := by
  rintro ⟨htxt, target, hcname, -⟩
  cases status with
  | verified =>
    obtain ⟨records, hrecords, record, hrecord, -⟩ := h
    obtain rfl := Except.ok.inj (htxt.symm.trans hrecords)
    simp at hrecord
  | mismatched =>
    obtain ⟨records, hrecords, ⟨record, hrecord, -⟩, -⟩ := h
    obtain rfl := Except.ok.inj (htxt.symm.trans hrecords)
    simp at hrecord
  | unverified =>
    rcases h with ⟨records, hrecords, hne, -⟩ | ⟨-, hnone⟩
    · exact hne (Except.ok.inj (htxt.symm.trans hrecords)).symm
    · rw [hcname] at hnone
      simp at hnone
  | _ => exact h

/-- A walk ends at one name only. -/
theorem LeadsFrom.unique {a b : String} {links : Nat} {visited : List String}
    (ha : LeadsFrom resolver links visited name a) (hb : LeadsFrom resolver links visited name b)
    (h : EndsAt resolver identity status a) (h' : EndsAt resolver identity other b) : a = b := by
  induction links generalizing visited name with
  | zero =>
    obtain rfl : name = a := ha
    exact hb
  | succ links ih =>
    rcases ha with rfl | ⟨next, halias, -, ha⟩
    · rcases hb with rfl | ⟨next, halias, -, -⟩
      · rfl
      · exact absurd halias h.not_alias
    · rcases hb with rfl | ⟨next', halias', -, hb⟩
      · exact absurd halias h'.not_alias
      · obtain ⟨-, target, hcname, rfl⟩ := halias
        obtain ⟨-, target', hcname', rfl⟩ := halias'
        obtain rfl : target = target' := by
          simpa using hcname.symm.trans hcname'
        exact ih ha hb

end EndsAt

/-! ## The check -/

section Check

variable {resolver : Resolver} {hostname start : String} {identity : IdentityId}

/-- A check goes on with what it was answered and what it has asked. -/
theorem asking_bind {α β : Type} (asking : Asking α) (f : α → Asking β) (queries : List Query) :
    (asking >>= f) queries = f (asking queries).1 (asking queries).2 := rfl

/-- A check that is done asks nothing more. -/
theorem asking_pure {α : Type} (a : α) (queries : List Query) :
    (pure a : Asking α) queries = (a, queries) := rfl

/-- A name whose TXT records answer or fail ends the walk. -/
theorem verifyFrom_of_txt {links : Nat} {visited : List String} {name : String}
    (h : resolver.lookupTxt name ≠ .ok []) : ∃ outcome : VerificationOutcome,
    (∀ queries, verifyFrom resolver hostname start identity links visited name queries =
      (outcome, queries ++ [.txt name])) ∧
    (outcome.status = .unreachable ∧ (∀ status, ¬ EndsAt resolver identity status name) ∨
      EndsAt resolver identity outcome.status name) := by
  cases htxt : resolver.lookupTxt name with
  | error error =>
    refine ⟨⟨hostname, .unreachable, error.display⟩, fun queries => ?_, .inl ⟨rfl, ?_⟩⟩
    · unfold verifyFrom
      simp [askTxt, asking_bind, htxt, asking_pure]
    · intro status hends
      cases status <;> simp [EndsAt, htxt] at hends
  | ok records =>
    have hne : records ≠ [] := fun hnil => h (hnil ▸ htxt)
    refine ⟨classify hostname name records identity, fun queries => ?_, .inr ?_⟩
    · unfold verifyFrom
      simp [askTxt, asking_bind, htxt, hne, asking_pure]
    · exact classify_status htxt hne

/-- A name without TXT records that is no alias ends the walk. -/
theorem verifyFrom_of_cname {links : Nat} {visited : List String} {name : String}
    (htxt : resolver.lookupTxt name = .ok [])
    (h : ∀ target, resolver.lookupCname name ≠ .ok (some target)) :
    ∃ outcome : VerificationOutcome,
    (∀ queries, verifyFrom resolver hostname start identity links visited name queries =
      (outcome, queries ++ [.txt name, .cname name])) ∧
    (outcome.status = .unreachable ∧ (∀ status, ¬ EndsAt resolver identity status name) ∨
      EndsAt resolver identity outcome.status name) := by
  cases hcname : resolver.lookupCname name with
  | error error =>
    refine ⟨⟨hostname, .unreachable, error.display⟩, fun queries => ?_, .inl ⟨rfl, ?_⟩⟩
    · unfold verifyFrom
      simp [askTxt, askCname, asking_bind, htxt, hcname, asking_pure]
    · intro status hends
      cases status <;> simp [EndsAt, htxt, hcname] at hends
  | ok target =>
    cases target with
    | some target => exact absurd hcname (h target)
    | none =>
      refine ⟨⟨hostname, .unverified, s!"{name} holds no {txtPrefix} TXT record"⟩,
        fun queries => ?_, .inr (.inr ⟨htxt, hcname⟩)⟩
      unfold verifyFrom
      simp [askTxt, askCname, asking_bind, htxt, hcname, asking_pure]

/-- An alias that the walk does not follow is unreachable. -/
theorem verifyFrom_of_stopped {links : Nat} {visited : List String} {name next : String}
    (h : Alias resolver name next) (hstop : links = 0 ∨ next ∈ visited) :
    ∃ outcome : VerificationOutcome,
    (∀ queries, verifyFrom resolver hostname start identity links visited name queries =
      (outcome, queries ++ [.txt name, .cname name])) ∧ outcome.status = .unreachable := by
  obtain ⟨htxt, target, hcname, rfl⟩ := h
  cases links with
  | zero =>
    refine ⟨⟨hostname, .unreachable,
      s!"the CNAME chain from {start} runs past {maxCnameLinks} links"⟩, fun queries => ?_, rfl⟩
    unfold verifyFrom
    simp [askTxt, askCname, asking_bind, htxt, hcname, asking_pure]
  | succ links =>
    have hvisited : absolute target ∈ visited := hstop.resolve_left (Nat.succ_ne_zero links)
    refine ⟨⟨hostname, .unreachable,
      s!"the CNAME chain from {start} returns to {absolute target}"⟩, fun queries => ?_, rfl⟩
    unfold verifyFrom
    simp [askTxt, askCname, asking_bind, htxt, hcname, hvisited, asking_pure]

/-- An alias of a new name is followed. -/
theorem verifyFrom_of_alias {links : Nat} {visited : List String} {name next : String}
    {queries : List Query} (h : Alias resolver name next) (hnew : next ∉ visited) :
    verifyFrom resolver hostname start identity (links + 1) visited name queries =
      verifyFrom resolver hostname start identity links (visited ++ [next]) next
        (queries ++ [.txt name, .cname name]) := by
  obtain ⟨htxt, target, hcname, rfl⟩ := h
  rw [verifyFrom]
  simp [askTxt, askCname, asking_bind, htxt, hcname, hnew]

/-- A query for TXT records. -/
def Query.isTxt : Query → Bool
  | .txt _ => true
  | .cname _ => false

@[simp] theorem Query.isTxt_txt (name : String) : (Query.txt name).isTxt = true := rfl

@[simp] theorem Query.isTxt_cname (name : String) : (Query.cname name).isTxt = false := rfl

/-- What a walk answers: the status its end decides, or none could be reached. -/
def Answers (resolver : Resolver) (identity : IdentityId) (links : Nat) (visited : List String)
    (name : String) (status : VerificationStatus) : Prop :=
  (status = .unreachable ∧ ∀ other last,
      LeadsFrom resolver links visited name last → ¬ EndsAt resolver identity other last) ∨
    ∃ last, LeadsFrom resolver links visited name last ∧ EndsAt resolver identity status last

/-- A name leads to itself. -/
theorem LeadsFrom.refl {links : Nat} {visited : List String} {name : String} :
    LeadsFrom resolver links visited name name := by
  cases links with
  | zero => rfl
  | succ links => exact .inl rfl

/-- A name that is no followed alias is the only one its walk leads to. -/
theorem LeadsFrom.eq_of_stopped {links : Nat} {visited : List String} {name last : String}
    (h : LeadsFrom resolver links visited name last)
    (hstop : ∀ next, Alias resolver name next → links = 0 ∨ next ∈ visited) : name = last := by
  cases links with
  | zero => exact h
  | succ links =>
    rcases h with rfl | ⟨next, halias, hnew, -⟩
    · rfl
    · exact absurd ((hstop next halias).resolve_left (Nat.succ_ne_zero links)) hnew

/-- Where no alias leads on, the name itself is answered. -/
theorem Answers.of_stopped {links : Nat} {visited : List String} {name : String}
    {status : VerificationStatus}
    (hstop : ∀ next, Alias resolver name next → links = 0 ∨ next ∈ visited)
    (h : status = .unreachable ∧ (∀ other, ¬ EndsAt resolver identity other name) ∨
      EndsAt resolver identity status name) :
    Answers resolver identity links visited name status := by
  rcases h with ⟨rfl, hnone⟩ | hends
  · refine .inl ⟨rfl, fun other last hleads => ?_⟩
    obtain rfl := hleads.eq_of_stopped hstop
    exact hnone other
  · exact .inr ⟨name, .refl, hends⟩

/-- How a walk of a check ends, and what it asks. -/
theorem verifyFrom_spec : ∀ {links : Nat} {visited : List String} {name : String},
    ∃ (outcome : VerificationOutcome) (asked : List Query),
      (∀ queries, verifyFrom resolver hostname start identity links visited name queries =
        (outcome, queries ++ asked)) ∧
      asked.countP Query.isTxt ≤ links + 1 ∧ asked.countP (fun query => !query.isTxt) ≤ links + 1 ∧
      Answers resolver identity links visited name outcome.status := by
  intro links
  induction links using Nat.strong_induction_on with
  | _ links ih =>
    intro visited name
    by_cases htxt : resolver.lookupTxt name = .ok []
    · by_cases hcname : ∃ target, resolver.lookupCname name = .ok (some target)
      · obtain ⟨target, hcname⟩ := hcname
        have halias : Alias resolver name (absolute target) := ⟨htxt, target, hcname, rfl⟩
        have honly : ∀ next, Alias resolver name next → next = absolute target := by
          rintro next ⟨-, other, hother, rfl⟩
          obtain rfl : target = other := by simpa using hcname.symm.trans hother
          rfl
        by_cases hstop : links = 0 ∨ absolute target ∈ visited
        · obtain ⟨outcome, hrun, hstatus⟩ := verifyFrom_of_stopped halias hstop
          refine ⟨outcome, [.txt name, .cname name], hrun, by simp [List.countP_cons], by simp, ?_⟩
          refine .of_stopped (fun next hnext => honly next hnext ▸ hstop) (.inl ⟨hstatus, ?_⟩)
          exact fun other hends => hends.not_alias halias
        · obtain ⟨hlinks, hnew⟩ := not_or.mp hstop
          obtain ⟨links, rfl⟩ := Nat.exists_eq_succ_of_ne_zero hlinks
          obtain ⟨outcome, asked, hrun, htxts, hcnames, hanswers⟩ :=
            @ih links (Nat.lt_succ_self links) (visited ++ [absolute target]) (absolute target)
          refine ⟨outcome, .txt name :: .cname name :: asked, fun queries => ?_, ?_, ?_, ?_⟩
          · rw [verifyFrom_of_alias halias hnew, hrun, List.append_assoc]
            rfl
          · simpa [List.countP_cons] using htxts
          · simpa [List.countP_cons] using hcnames
          · rcases hanswers with ⟨hstatus, hnone⟩ | ⟨last, hleads, hends⟩
            · refine .inl ⟨hstatus, fun other last hleads hends => ?_⟩
              rcases hleads with rfl | ⟨next, hnext, -, hleads⟩
              · exact hends.not_alias halias
              · obtain rfl := honly next hnext
                exact hnone other last hleads hends
            · exact .inr ⟨last, .inr ⟨_, halias, hnew, hleads⟩, hends⟩
      · have hnone : ∀ target, resolver.lookupCname name ≠ .ok (some target) :=
          fun target h => hcname ⟨target, h⟩
        obtain ⟨outcome, hrun, hends⟩ := verifyFrom_of_cname htxt hnone
        refine ⟨outcome, [.txt name, .cname name], hrun, by simp [List.countP_cons], by simp,
          .of_stopped (fun next hnext => ?_) hends⟩
        obtain ⟨-, target, htarget, -⟩ := hnext
        exact absurd htarget (hnone target)
    · obtain ⟨outcome, hrun, hends⟩ := verifyFrom_of_txt htxt
      refine ⟨outcome, [.txt name], hrun, by simp [List.countP_cons], by simp,
        .of_stopped (fun next hnext => absurd hnext.1 htxt) hends⟩

end Check

/-- A check of a hostname: what it asks, and that its status is the one its walk's end decides. -/
theorem verifyHostname_spec (resolver : Resolver) (hostname : String) (identity : IdentityId) :
    ∃ (outcome : VerificationOutcome) (asked : List Query),
      verifyHostname resolver hostname identity [] = (outcome, asked) ∧
      asked.countP Query.isTxt ≤ 5 ∧ asked.countP (fun query => !query.isTxt) ≤ 5 ∧
      (checkHostname hostname ≠ .ok () → asked = [] ∧ outcome.status = .unreachable) ∧
      (checkHostname hostname = .ok () →
        (outcome.status = .unreachable ∧ ∀ status name, Leads resolver hostname name →
            ¬ EndsAt resolver identity status name) ∨
          ∃ name, Leads resolver hostname name ∧
            EndsAt resolver identity outcome.status name) := by
  unfold verifyHostname
  cases hcheck : checkHostname hostname with
  | error reason => exact ⟨_, [], rfl, by simp, by simp, by simp, by simp⟩
  | ok u =>
    obtain ⟨outcome, asked, hrun, htxts, hcnames, hanswers⟩ := @verifyFrom_spec resolver hostname
      (queryName hostname) identity maxCnameLinks [queryName hostname] (queryName hostname)
    refine ⟨outcome, asked, hrun [], htxts, hcnames, by simp, fun _ => ?_⟩
    simpa only [Answers, ← leads_iff] using hanswers

/-- The status is the one a walk's end decides, among the three a walk can decide. -/
theorem verifyHostname_status {resolver : Resolver} {hostname : String} {identity : IdentityId}
    {status : VerificationStatus} (hstatus : status ≠ .unreachable) :
    (verifyHostname resolver hostname identity []).1.status = status ↔
      checkHostname hostname = .ok () ∧ ∃ name, Leads resolver hostname name ∧
        EndsAt resolver identity status name := by
  obtain ⟨outcome, asked, hrun, -, -, hrefused, hchecked⟩ :=
    verifyHostname_spec resolver hostname identity
  rw [hrun]
  by_cases hcheck : checkHostname hostname = .ok ()
  · simp only [hcheck, true_and]
    rcases hchecked hcheck with ⟨hunreachable, hnone⟩ | ⟨name, hleads, hends⟩
    · constructor
      · exact fun h => absurd (h.symm.trans hunreachable) hstatus
      · rintro ⟨name, hleads, hends⟩
        exact absurd hends (hnone status name hleads)
    · constructor
      · rintro rfl
        exact ⟨name, hleads, hends⟩
      · rintro ⟨other, hleads', hends'⟩
        obtain rfl := (leads_iff.mp hleads).unique (leads_iff.mp hleads') hends hends'
        exact hends.unique hends'
  · simp only [hcheck, false_and, iff_false]
    exact fun h => hstatus (h.symm.trans (hrefused hcheck).2)

/-- Resolvers that answer alike up to the order of the records at each name. -/
structure SameRecords (resolver other : Resolver) : Prop where
  cname : resolver.lookupCname = other.lookupCname
  txt : ∀ name records, resolver.lookupTxt name = .ok records →
    ∃ records', other.lookupTxt name = .ok records' ∧ records.Perm records'
  failed : ∀ name error, resolver.lookupTxt name = .error error →
    ∃ error', other.lookupTxt name = .error error'

section SameRecords

variable {resolver other : Resolver} {identity : IdentityId}

/-- Resolvers with the same records have the same aliases. -/
theorem SameRecords.alias (h : SameRecords resolver other) {name next : String}
    (halias : Alias resolver name next) : Alias other name next := by
  obtain ⟨htxt, target, hcname, hnext⟩ := halias
  obtain ⟨records, htxt', hperm⟩ := h.txt name [] htxt
  rw [List.nil_perm.mp hperm] at htxt'
  exact ⟨htxt', target, h.cname ▸ hcname, hnext⟩

/-- Resolvers with the same records lead alike. -/
theorem SameRecords.leads (h : SameRecords resolver other) {hostname name : String}
    (hleads : Leads resolver hostname name) : Leads other hostname name := by
  obtain ⟨names, hhead, hlast, hnodup, hlen, hchain⟩ := hleads
  exact ⟨names, hhead, hlast, hnodup, hlen, hchain.imp fun _ _ => h.alias⟩

/-- Resolvers with the same records end alike. -/
theorem SameRecords.endsAt (h : SameRecords resolver other) {status : VerificationStatus}
    {name : String} (hends : EndsAt resolver identity status name) :
    EndsAt other identity status name := by
  cases status with
  | verified =>
    obtain ⟨records, htxt, record, hrecord, hclaim⟩ := hends
    obtain ⟨records', htxt', hperm⟩ := h.txt name records htxt
    exact ⟨records', htxt', record, hperm.mem_iff.mp hrecord, hclaim⟩
  | mismatched =>
    obtain ⟨records, htxt, ⟨record, hrecord, hclaim⟩, hnone⟩ := hends
    obtain ⟨records', htxt', hperm⟩ := h.txt name records htxt
    exact ⟨records', htxt', ⟨record, hperm.mem_iff.mp hrecord, hclaim⟩,
      fun r hr => hnone r (hperm.mem_iff.mpr hr)⟩
  | unverified =>
    rcases hends with ⟨records, htxt, hne, hnone⟩ | ⟨htxt, hcname⟩
    · obtain ⟨records', htxt', hperm⟩ := h.txt name records htxt
      refine .inl ⟨records', htxt', ?_, fun r hr => hnone r (hperm.mem_iff.mpr hr)⟩
      rintro rfl
      exact hne (List.perm_nil.mp hperm)
    · obtain ⟨records', htxt', hperm⟩ := h.txt name [] htxt
      rw [List.nil_perm.mp hperm] at htxt'
      exact .inr ⟨htxt', h.cname ▸ hcname⟩
  | _ => exact hends

/-- Having the same records goes both ways. -/
theorem SameRecords.symm (h : SameRecords resolver other) : SameRecords other resolver := by
  refine ⟨h.cname.symm, fun name records htxt => ?_, fun name error htxt => ?_⟩
  · cases hresolver : resolver.lookupTxt name with
    | error error =>
      obtain ⟨error', herror⟩ := h.failed name error hresolver
      rw [htxt] at herror
      simp at herror
    | ok records' =>
      obtain ⟨records'', htxt', hperm⟩ := h.txt name records' hresolver
      obtain rfl := Except.ok.inj (htxt.symm.trans htxt')
      exact ⟨records', rfl, hperm.symm⟩
  · cases hresolver : resolver.lookupTxt name with
    | error error' => exact ⟨error', rfl⟩
    | ok records =>
      obtain ⟨records', htxt', -⟩ := h.txt name records hresolver
      rw [htxt] at htxt'
      simp at htxt'

end SameRecords

/-- A check asks at most five names for TXT records and five for an alias, and nobody about a
hostname that is refused. It is verified, mismatched or unverified exactly if a walk of at most
four links ends at a name that decides so, unreachable in every other case, and the order of the
records at a name changes nothing. -/
theorem hostname_verdicts_exact (resolver : Resolver) (hostname : String) (identity : IdentityId) :
    ∃ (outcome : VerificationOutcome) (asked : List Query),
      verifyHostname resolver hostname identity [] = (outcome, asked) ∧
      asked.countP Query.isTxt ≤ 5 ∧ asked.countP (fun query => !query.isTxt) ≤ 5 ∧
      (checkHostname hostname ≠ .ok () → asked = []) ∧
      (outcome.status = .verified ↔ checkHostname hostname = .ok () ∧
        ∃ name, Leads resolver hostname name ∧ EndsAt resolver identity .verified name) ∧
      (outcome.status = .mismatched ↔ checkHostname hostname = .ok () ∧
        ∃ name, Leads resolver hostname name ∧ EndsAt resolver identity .mismatched name) ∧
      (outcome.status = .unverified ↔ checkHostname hostname = .ok () ∧
        ∃ name, Leads resolver hostname name ∧ EndsAt resolver identity .unverified name) ∧
      (outcome.status = .unreachable ↔ outcome.status ≠ .verified ∧
        outcome.status ≠ .mismatched ∧ outcome.status ≠ .unverified) ∧
      ∀ other, SameRecords resolver other →
        (verifyHostname other hostname identity []).1.status = outcome.status := by
  obtain ⟨outcome, asked, hrun, htxts, hcnames, hrefused, hchecked⟩ :=
    verifyHostname_spec resolver hostname identity
  have hstatus : ∀ {status : VerificationStatus}, status ≠ .unreachable →
      (outcome.status = status ↔ checkHostname hostname = .ok () ∧
        ∃ name, Leads resolver hostname name ∧ EndsAt resolver identity status name) := by
    intro status hne
    rw [← verifyHostname_status hne, hrun]
  have hdecided : outcome.status ≠ .unreachable → ∃ name, EndsAt resolver identity
      outcome.status name := by
    intro hne
    obtain ⟨-, name, -, hends⟩ := (hstatus hne).mp rfl
    exact ⟨name, hends⟩
  refine ⟨outcome, asked, hrun, htxts, hcnames, fun h => (hrefused h).1, hstatus (by decide),
    hstatus (by decide), hstatus (by decide), ?_, fun other hsame => ?_⟩
  · constructor
    · intro h
      rw [h]
      decide
    · rintro ⟨hverified, hmismatched, hunverified⟩
      by_contra hne
      obtain ⟨name, hends⟩ := hdecided hne
      cases hcase : outcome.status <;> simp_all [EndsAt]
  · have hother : ∀ {status : VerificationStatus}, status ≠ .unreachable →
        ((verifyHostname other hostname identity []).1.status = status ↔
          outcome.status = status) := by
      intro status hne
      rw [verifyHostname_status hne, hstatus hne]
      refine and_congr_right fun _ => ⟨?_, ?_⟩
      · rintro ⟨name, hleads, hends⟩
        exact ⟨name, hsame.symm.leads hleads, hsame.symm.endsAt hends⟩
      · rintro ⟨name, hleads, hends⟩
        exact ⟨name, hsame.leads hleads, hsame.endsAt hends⟩
    by_cases hne : outcome.status = .unreachable
    · by_contra hdiffers
      have hotherNe : (verifyHostname other hostname identity []).1.status ≠ .unreachable :=
        fun h => hdiffers (h.trans hne.symm)
      exact hdiffers ((hother hotherNe).mp rfl).symm
    · exact (hother hne).mpr rfl

end Mabel.Verification
