import Mabel.Graph.Correctness.Crawled
import Mabel.Graph.Correctness.Dialing
import Mabel.Graph.Correctness.Lookups
import Mabel.Graph.Sync

/-!
# From fetches to lookups

A sync reads every ledger with a fetch of one operation, turns what it saw into documents and
publishes them. A fetch ends with an outcome about the ledger it was asked for, so the fetches of
an operation answer a crawl; and the documents of a crawl are the files of a generation, so what a
lookup finds afterwards is what the last crawl saw.
-/

namespace Mabel.Graph

open Node Crawl Wire Program Discipline

variable {C : Crypto} {ε : Type}

/-! ## Planning never panics -/

section Planning

variable {K : (op : FetchOp C) → op.Reply → Prop} {callerHints : List (EndpointId C)}
  {ledger : LedgerId}

/-- Demanding a reply never panics. -/
theorem noPanic_demanded {α : Type} (x : Except String α) :
    (demanded x : OnOperation C String α).Ends K Outcome.NoPanic := by
  cases x with
  | ok a => exact .ok
  | error detail => exact .reject

/-- Resolving a witness never panics. -/
theorem noPanic_resolveWitness (witness : IdentityId) :
    (resolveWitness callerHints witness).Ends K Outcome.NoPanic := by
  apply Ends.noPanic_bind (p := Ask.peers) fun reply _ => noPanic_demanded reply
  intro peers now _ copy _
  apply Ends.noPanic_bind (p := Ask.config) fun reply _ => noPanic_demanded reply
  exact fun config => Outcome.NoPanic.ok

/-- Looking up a witness's endpoints never panics. -/
theorem noPanic_witnessEndpoints (witness : IdentityId) :
    (witnessEndpoints callerHints witness).Ends K Outcome.NoPanic := by
  intro standing _
  cases standing with
  | resolved endpoints => exact .ok
  | underway => exact .ok
  | started =>
    apply (noPanic_resolveWitness witness).conclude.bind
    · rintro _ ⟨resolved, heq, hresolved⟩ reply -
      rw [Except.ok.inj heq]
      exact hresolved
    · rintro e ⟨resolved, heq, -⟩
      cases heq

/-- Adding a source never panics. -/
theorem noPanic_pushAdmitted (planned : List (PlannedSource C)) (next : PlannedSource C) :
    (pushAdmitted planned next : OnOperation C ε _).Ends K Outcome.NoPanic := by
  rw [pushAdmitted]
  split_ifs
  · exact .ok
  · cases next.endpoint with
    | none => exact .ok
    | some endpoint =>
      intro admitted _
      cases admitted <;> exact .ok

/-- Adding sources never panics. -/
theorem noPanic_pushAll (rest : List (PlannedSource C)) : ∀ planned : List (PlannedSource C),
    (pushAll planned rest : OnOperation C ε _).Ends K Outcome.NoPanic := by
  induction rest with
  | nil => exact fun _ => .ok
  | cons next rest ih => exact fun planned => (noPanic_pushAdmitted planned next).noPanic_bind ih

/-- Planning the witnesses never panics. -/
theorem noPanic_planWitnesses (witnesses : List IdentityId) :
    ∀ planned : List (PlannedSource C),
    (planWitnesses callerHints planned witnesses).Ends K Outcome.NoPanic := by
  induction witnesses with
  | nil => exact fun _ => .ok
  | cons witness rest ih =>
    intro planned
    apply (noPanic_witnessEndpoints witness).noPanic_bind
    exact fun endpoints => (noPanic_pushAll _ planned).noPanic_bind ih

/-- Planning the sources never panics. -/
theorem noPanic_planSources (learned : List (EndpointId C)) :
    (planSources callerHints ledger learned).Ends K Outcome.NoPanic := by
  apply Ends.noPanic_bind (p := Ask.holds ledger) fun reply _ => noPanic_demanded reply
  intro held
  apply (noPanic_pushAll _ _).noPanic_bind
  intro planned
  apply Ends.noPanic_bind (p := Ask.peers) fun reply _ => noPanic_demanded reply
  intro peers now _
  apply (noPanic_pushAll _ _).noPanic_bind
  intro planned
  apply Ends.noPanic_bind (p := Ask.config) fun reply _ => noPanic_demanded reply
  exact fun config => noPanic_planWitnesses _ _

/-- Adding named sources never panics. -/
theorem noPanic_addNamed (planned : List (PlannedSource C)) (rest : List (PlannedSource C)) :
    ∀ extra : List (PlannedSource C),
    (addNamed planned extra rest : OnOperation C ε _).Ends K Outcome.NoPanic := by
  induction rest with
  | nil => exact fun _ => .ok
  | cons next rest ih =>
    intro extra
    rw [addNamed]
    split_ifs
    · exact ih extra
    · exact (noPanic_pushAdmitted extra next).noPanic_bind ih

/-- Adding named witnesses never panics. -/
theorem noPanic_addNamedWitnesses (planned : List (PlannedSource C)) (witnesses : List IdentityId) :
    ∀ extra : List (PlannedSource C),
    (addNamedWitnesses callerHints planned extra witnesses).Ends K Outcome.NoPanic := by
  induction witnesses with
  | nil => exact fun _ => .ok
  | cons witness rest ih =>
    intro extra
    apply (noPanic_witnessEndpoints witness).noPanic_bind
    exact fun endpoints => (noPanic_addNamed planned _ extra).noPanic_bind ih

/-- The sources a chain names are found without a panic. -/
theorem noPanic_chainNamedSources (planned : List (PlannedSource C)) (summary : LedgerSummary C) :
    (chainNamedSources callerHints planned summary).Ends K Outcome.NoPanic := by
  apply (noPanic_addNamed planned _ _).noPanic_bind
  intro extra
  apply (noPanic_addNamedWitnesses planned _ extra).noPanic_bind
  exact fun extra => noPanic_addNamed planned _ extra

end Planning

/-! ## A fetch answers for its ledger -/

/-- Replies that read a chain as that of the ledger it was asked for. -/
def FetchOp.ReadsOwn : (op : FetchOp C) → op.Reply → Prop
  | .load ledger, copy => ∀ loaded, copy = .ok loaded → loaded.ledger = ledger
  | .candidate _ ledger, served => ∀ loaded, served = .chain loaded → loaded.ledger = ledger
  | _, _ => True

/-- A world in which every chain is read as that of the ledger it was asked for. -/
structure World.ReadsOwn (world : World C) : Prop where
  load : ∀ looks ledger loaded, world.load looks ledger = .ok loaded → loaded.ledger = ledger
  candidate : ∀ looks endpoint ledger loaded,
    world.candidate looks endpoint ledger = .chain loaded → loaded.ledger = ledger

/-- Every reply of such a world reads its own chain. -/
theorem World.ReadsOwn.exec {world : World C} (h : world.ReadsOwn) (op : FetchOp C)
    (s : Operation C) : op.ReadsOwn (op.exec world s).1 := by
  cases op with
  | load ledger => exact h.load s.looks ledger
  | candidate endpoint ledger => exact h.candidate s.looks endpoint ledger
  | _ => trivial

/-- The copies a fetch has heard are of its ledger. -/
def Hearings.Own (answers : Hearings C) (ledger : LedgerId) : Prop :=
  ∀ copy ∈ answers.candidates, copy.2.ledger = ledger

section Reading

variable {callerHints : List (EndpointId C)} {ledger : LedgerId}

/-- A source answers with a chain of the ledger it was asked for. -/
theorem yields_read (next : PlannedSource C) :
    (read ledger next : OnOperation C ε _).Ends FetchOp.ReadsOwn
      (Outcome.Yields fun served => ∀ loaded, served = .chain loaded → loaded.ledger = ledger) := by
  rw [read]
  cases next.endpoint with
  | none =>
    refine fun copy hcopy => ⟨_, rfl, fun loaded hloaded => ?_⟩
    rcases copy with detail | copied
    · cases hloaded
    · rw [readCopy] at hloaded
      split_ifs at hloaded
      rw [← Served.chain.inj hloaded]
      exact hcopy copied rfl
  | some endpoint => exact fun served hserved => ⟨served, rfl, hserved⟩

/-- What is heard of the ledger's own chains is its own. -/
theorem Hearings.Own.hear {answers : Hearings C} (h : answers.Own ledger) (next : PlannedSource C)
    {served : Served C} (hserved : ∀ loaded, served = .chain loaded → loaded.ledger = ledger) :
    (answers.hear next served).Own ledger := by
  cases served with
  | chain loaded =>
    intro copy hcopy
    rcases List.mem_append.mp hcopy with hold | hnew
    · exact h copy hold
    · rw [List.mem_singleton.mp hnew]
      exact hserved loaded rfl
  | nothing => exact h
  | unverified detail => exact h

/-- Following an answer keeps the copies that were heard. -/
theorem yields_follow {planned : List (PlannedSource C)} {answers : Hearings C}
    (h : answers.Own ledger) (served : Served C) :
    (follow callerHints planned answers served).Ends FetchOp.ReadsOwn
      (Outcome.Yields fun followed => followed.2.Own ledger) := by
  cases served with
  | nothing => exact ⟨_, rfl, h⟩
  | unverified detail => exact ⟨_, rfl, h⟩
  | chain loaded =>
    apply (noPanic_chainNamedSources planned (.of loaded)).conclude.yields_bind
    intro named hnamed
    rcases named with (detail | site) | named
    · exact ⟨_, rfl, h⟩
    · exact absurd rfl (hnamed site)
    · exact ⟨_, rfl, h⟩

/-- The queue gathers copies of the ledger; the induction is on the rounds left. -/
theorem yields_gatherFrom (rounds : Nat) : ∀ (planned : List (PlannedSource C)) (index : Nat)
    {answers : Hearings C}, answers.Own ledger →
    (gatherFrom callerHints ledger rounds planned index answers).Ends FetchOp.ReadsOwn
      (Outcome.Yields fun r => ∀ gathered ∈ r, gathered.2.Own ledger) := by
  induction rounds with
  | zero => exact fun _ _ _ _ => ⟨none, rfl, by simp⟩
  | succ rounds ih =>
    intro planned index answers h
    rw [gatherFrom]
    cases planned[index]? with
    | none => exact ⟨_, rfl, by simpa using h⟩
    | some next =>
      intro expired _
      cases expired with
      | true => exact ⟨_, rfl, by simpa using h⟩
      | false =>
        apply (yields_read next).yields_bind
        intro served hserved
        apply (yields_follow (h.hear next hserved) served).yields_bind
        exact fun followed hfollowed => ih _ _ hfollowed

/-- The zone's endpoints are admitted or not. -/
theorem yields_admittedDns (hostname : String) (named : List (EndpointId C)) :
    (admittedDns hostname named : OnOperation C ε _).Ends FetchOp.ReadsOwn
      (Outcome.Yields fun _ => True) := by
  induction named with
  | nil => exact ⟨_, rfl, trivial⟩
  | cons endpoint rest ih =>
    exact fun admitted _ => ih.yields_bind fun planned _ => ⟨_, rfl, trivial⟩

/-- The zone names sources or none. -/
theorem yields_dnsSources (hasResolver : Bool) :
    (dnsSources hasResolver ledger : OnOperation C ε _).Ends FetchOp.ReadsOwn
      (Outcome.Yields fun _ => True) := by
  cases hasResolver with
  | false => exact ⟨_, rfl, trivial⟩
  | true =>
    have hclaimed : (claimedHostname ledger : OnOperation C ε _).Ends FetchOp.ReadsOwn
        (Outcome.Yields fun _ => True) := by
      refine .yields_bind (p := Ask.load ledger) (P := fun _ => True)
        (fun copy _ => ⟨copy, rfl, trivial⟩) fun copy _ => ?_
      split
      · exact ⟨_, rfl, trivial⟩
      · exact fun hostname _ => ⟨_, rfl, trivial⟩
    apply hclaimed.yields_bind
    rintro (_ | hostname) -
    · exact ⟨_, rfl, trivial⟩
    · rintro (_ | records) -
      · exact ⟨_, rfl, trivial⟩
      · exact yields_admittedDns hostname _

/-- Asking more sources keeps the copies to the ledger's. -/
theorem yields_askAll (planned : List (PlannedSource C)) : ∀ {answers : Hearings C},
    answers.Own ledger → (askAll ledger answers planned : OnOperation C ε _).Ends FetchOp.ReadsOwn
      (Outcome.Yields fun answers => answers.Own ledger) := by
  induction planned with
  | nil => exact fun h => ⟨_, rfl, h⟩
  | cons next rest ih =>
    intro answers h expired _
    cases expired with
    | true => exact ⟨_, rfl, h⟩
    | false => exact (yields_read next).yields_bind fun served hserved => ih (h.hear next hserved)

/-- Asking by name keeps the copies to the ledger's. -/
theorem yields_askDns (hasResolver : Bool) {answers : Hearings C} (h : answers.Own ledger) :
    (askDns hasResolver ledger answers : OnOperation C ε _).Ends FetchOp.ReadsOwn
      (Outcome.Yields fun answers => answers.Own ledger) := by
  rw [askDns]
  split_ifs
  · exact ⟨_, rfl, h⟩
  · intro expired _
    cases expired with
    | true => exact ⟨_, rfl, h⟩
    | false =>
      exact (yields_dnsSources hasResolver).yields_bind fun named _ => yields_askAll named h

/-- The kept copy is one of those compared. -/
theorem mem_compareCopies (first : Copy C) (copies : List (Copy C)) :
    ∀ (kept : Copy C) (equivocation : Option Equivocation),
    (compareCopies first kept equivocation copies).1 ∈ kept :: copies := by
  induction copies with
  | nil => exact fun kept _ => List.mem_singleton_self kept
  | cons copy copies ih =>
    intro kept equivocation
    have hskip : ∀ found, (compareCopies first kept found copies).1 ∈ kept :: copy :: copies := by
      intro found
      rcases List.mem_cons.mp (ih kept found) with heq | hmem
      · rw [heq]
        exact List.mem_cons_self
      · exact List.mem_cons_of_mem _ (List.mem_cons_of_mem _ hmem)
    rw [compareCopies]
    split
    · exact hskip _
    · split_ifs
      · exact List.mem_cons_of_mem _ (ih copy equivocation)
      · exact hskip _

/-- The decision on copies of a ledger is about that ledger. -/
theorem ledger_decide (now : Nat) (tried : List FetchSource) {candidates : List (Copy C)}
    (invalid : Option String) (h : ∀ copy ∈ candidates, copy.2.ledger = ledger) :
    (FetchOutcome.decide now ledger tried candidates invalid).ledger = ledger := by
  cases candidates with
  | nil =>
    rw [FetchOutcome.decide.eq_def]
    cases invalid <;> rfl
  | cons first rest =>
    rw [FetchOutcome.decide.eq_def]
    dsimp only
    have hkept := mem_compareCopies first rest first none
    generalize compareCopies first first none rest = found at hkept ⊢
    obtain ⟨kept, _ | equivocation⟩ := found
    · exact h kept hkept
    · exact h first List.mem_cons_self

/-- A fetch that ends with an outcome ends with one about its ledger. -/
theorem yields_fetch (callerHints : List (EndpointId C)) (hasResolver : Bool) (rounds : Nat)
    (learned : List (EndpointId C)) :
    (fetch callerHints hasResolver rounds ledger learned).Ends FetchOp.ReadsOwn
      (Outcome.Yields fun r => ∀ found ∈ r, found.outcome.ledger = ledger) := by
  rw [fetch]
  apply (noPanic_planSources learned).conclude.yields_bind
  intro planned hplanned
  rcases planned with (detail | site) | planned
  · exact fun now _ => ⟨_, rfl, by rintro _ ⟨⟩; rfl⟩
  · exact absurd rfl (hplanned site)
  · apply (yields_gatherFrom rounds planned 0 (by simp [Hearings.Own, Hearings.none])).yields_bind
    rintro (_ | ⟨planned, gathered⟩) hgathered
    · exact ⟨none, rfl, by simp⟩
    · apply (yields_askDns hasResolver (hgathered _ rfl)).yields_bind
      intro answers hanswers now _ _ _
      refine ⟨_, rfl, ?_⟩
      rintro _ ⟨⟩
      exact ledger_decide now _ _ hanswers

/-- Asked within the budget, a fetch ends with an outcome about its ledger. -/
theorem fetch_answers {world : World C} (hworld : world.ReadsOwn)
    (callerHints : List (EndpointId C)) (hasResolver : Bool) (ledger : LedgerId)
    (learned : List (EndpointId C)) {s : Operation C} (h : Within s) :
    ∃ found, (run (FetchOp.exec world)
        (fetch callerHints hasResolver (maxDials + 2) ledger learned) s).1 = .ok (some found) ∧
      found.outcome.ledger = ledger := by
  obtain ⟨r, hr, hledger⟩ := (@yields_fetch C ledger callerHints hasResolver
    (maxDials + 2) learned).final hworld.exec s
  have hmeets := @fetch_fetched C world callerHints ledger hasResolver 0 learned none
  have hmode : ([none] : List (Option IdentityId))[0]? = some none := rfl
  obtain ⟨m, -, hgives⟩ := hmeets.alone (N := fun _ => True) trivial (fun _ _ _ _ => trivial)
    (fun _ => rfl) (fun _ _ _ _ _ => trivial) hmode h h
  obtain ⟨found, rfl, -⟩ := hgives r hr
  exact ⟨found, hr, hledger found rfl⟩

end Reading

/-- The fetcher of an operation: every ledger is read by a fetch, in the state the operation is in
when its turn comes. -/
def fetcherOf (world : World C) (hworld : world.ReadsOwn) (callerHints : List (EndpointId C))
    (hasResolver : Bool) (turn : LedgerId → { s : Operation C // Within s }) : Fetcher C where
  fetchCandidate ledger learned :=
    match (run (FetchOp.exec world) (fetch callerHints hasResolver (maxDials + 2) ledger learned)
      (turn ledger).val).1 with
    | .ok (some found) => found.outcome
    | _ => .unreachable 0 ledger []
  own ledger learned := by
    obtain ⟨found, hrun, hledger⟩ := fetch_answers hworld callerHints hasResolver ledger
      learned (turn ledger).property
    rw [hrun]
    exact hledger

/-- What such a fetcher answers is what the fetch ended with. -/
theorem fetchCandidate_fetcherOf {world : World C} (hworld : world.ReadsOwn)
    (callerHints : List (EndpointId C)) (hasResolver : Bool)
    (turn : LedgerId → { s : Operation C // Within s }) (ledger : LedgerId)
    (learned : List (EndpointId C)) :
    ∃ found, (run (FetchOp.exec world)
        (fetch callerHints hasResolver (maxDials + 2) ledger learned) (turn ledger).val).1 =
          .ok (some found) ∧
      (fetcherOf world hworld callerHints hasResolver turn).fetchCandidate ledger learned =
        found.outcome := by
  obtain ⟨found, hrun, -⟩ := fetch_answers hworld callerHints hasResolver ledger
    learned (turn ledger).property
  refine ⟨found, hrun, ?_⟩
  simp only [fetcherOf, hrun]

/-! ## The documents of a crawl as files -/

/-- A crawl is known by its files. -/
theorem published_injective {generation other : Crawl.Generation} {hkeyed : generation.Keyed}
    {hother : other.Keyed} (h : published generation hkeyed = published other hother) :
    generation = other := by
  have hsummary := Document.summary.inj (congrArg (fun g => g.summary.details) h)
  have hnodes : generation.nodes = other.nodes := by
    apply SortedMap.ext
    intro identity
    have hfile := congrArg (fun g => g.nodes.val.get? identity) h
    simp only [published, SortedMap.get?_mapValues] at hfile
    refine Option.map_injective (fun node node' heq => ?_) hfile
    exact Document.node.inj (GraphNode.mk.inj heq).2
  obtain ⟨summary, nodes⟩ := generation
  obtain ⟨summary', nodes'⟩ := other
  rw [Crawl.Generation.mk.injEq]
  exact ⟨hsummary, hnodes⟩

/-! ## Minted names -/

/-- The characters of a generation name. -/
def NameChar (c : Char) : Prop := c.toNat < 128 ∧ (c.isLower || c.isDigit || c == '-') = true

instance (c : Char) : Decidable (NameChar c) := inferInstanceAs (Decidable (_ ∧ _))

/-- A digit is a character of a name. -/
theorem nameChar_of_isDigit {c : Char} (h : c.isDigit = true) : NameChar c := by
  refine ⟨?_, by simp [h]⟩
  have hle : c.val ≤ 57 := by
    rw [Char.isDigit, Bool.and_eq_true, decide_eq_true_eq, decide_eq_true_eq] at h
    exact h.2
  have hnat : c.toNat ≤ 57 := UInt32.le_iff_toNat_le.mp hle
  omega

/-- The symbols of a suffix are characters of a name. -/
theorem nameChar_symbol {digit : Nat} (h : digit < 32) :
    NameChar (Base32.symbol digit).toLower := by
  have hall : ∀ d : Fin 32, NameChar (Base32.symbol d).toLower := by decide
  exact hall ⟨digit, h⟩

/-- A minted name spells its timestamp, a hyphen and its suffix. -/
theorem toList_mintSyncId (startedAtMs : Nat) (suffix : Bytes) :
    (mintSyncId startedAtMs suffix).toList =
      List.replicate (13 - (toString startedAtMs).length) '0' ++ Nat.toDigits 10 startedAtMs ++
        '-' :: ((Base32.digitsOf suffix).map Base32.symbol).map Char.toLower := by
  have hdigits : (toString startedAtMs).toList = Nat.toDigits 10 startedAtMs := Nat.toList_repr
  rw [mintSyncId, String.toList_append, String.toList_append, String.toList_append,
    String.toList_ofList, hdigits, Ascii.toList_toLower, Base32.toList_encode,
    List.append_assoc]
  rfl

/-- A minted name is one a generation may have. -/
theorem checkSyncId_mintSyncId {startedAtMs : Nat} (hstarted : startedAtMs ≤ u64Max)
    {suffix : Bytes} (hsuffix : suffix.length = 5) :
    checkSyncId (mintSyncId startedAtMs suffix) = .ok () := by
  have hchars : ∀ c ∈ (mintSyncId startedAtMs suffix).toList, NameChar c := by
    intro c hc
    rw [toList_mintSyncId] at hc
    rcases List.mem_append.mp hc with hc | hc
    · rcases List.mem_append.mp hc with hc | hc
      · rw [List.eq_of_mem_replicate hc]
        decide
      · exact nameChar_of_isDigit (Nat.isDigit_of_mem_toDigits (by decide) (by decide) hc)
    · rcases List.mem_cons.mp hc with rfl | hc
      · decide
      · rw [List.map_map, List.mem_map] at hc
        obtain ⟨digit, hdigit, rfl⟩ := hc
        exact nameChar_symbol (Base32.digitsOf_lt suffix digit hdigit)
  have hlength : (mintSyncId startedAtMs suffix).toList.length ≤ 64 := by
    have hdigits : (Nat.toDigits 10 startedAtMs).length ≤ 20 :=
      (Nat.length_toDigits_le_iff (by decide) (by decide)).mpr (lt_of_le_of_lt hstarted (by decide))
    have hsymbols : ((Base32.digitsOf suffix).map Base32.symbol).length = 8 := by
      rw [← Base32.toList_encode, Base32.length_encode, hsuffix]
    rw [toList_mintSyncId]
    simp only [List.length_append, List.length_replicate, List.length_cons, List.length_map]
      at hsymbols ⊢
    omega
  refine Outcome.rejectIf_of_not (not_not.mpr ⟨?_, ?_, ?_⟩)
  · intro hempty
    have hlist := toList_mintSyncId startedAtMs suffix
    rw [hempty] at hlist
    simp at hlist
  · have hsize := Ascii.utf8ByteSize_ofList fun c hc => (hchars c hc).1
    rw [String.ofList_toList] at hsize
    exact hsize.trans_le hlength
  · exact List.all_eq_true.mpr fun c hc => (hchars c hc).2

/-! ## Syncs and lookups -/

/-- Syncs one after another, each whatever became of the last. -/
def syncAll : List (SyncCall C) →
    Program (GraphOp Document) GraphOp.Reply Empty (List (Outcome SyncError Unit))
  | [] => pure []
  | call :: rest => do
    let result ← (syncGraph call).conclude id
    let results ← syncAll rest
    pure (result :: results)

/-- A sync leaves what its publish leaves when there is an identity to crawl from. -/
theorem run_syncGraph (call : SyncCall C) (s : GraphFiles Document) :
    (run GraphOp.exec (syncGraph call) s).2 =
      if call.roots = [] then s
      else (run GraphOp.exec (GraphStore.publish call.listing call.documents) s).2 := by
  rw [syncGraph]
  split_ifs with hroots
  · rfl
  · rw [run_mapReject]

/-- Syncs leave what the publish calls of those leave that have an identity to crawl from. -/
theorem run_syncAll (calls : List (SyncCall C)) : ∀ s : GraphFiles Document,
    (run GraphOp.exec (syncAll calls) s).2 =
      (run GraphOp.exec
        (publishAll ((calls.filter (·.roots ≠ [])).map SyncCall.publishCall)) s).2 := by
  induction calls with
  | nil => exact fun _ => rfl
  | cons call calls ih =>
    intro s
    rw [syncAll, run_bind_of_ok (run_conclude _ _ _), run_bind_pure_snd, ih, run_syncGraph]
    by_cases hroots : call.roots = []
    · rw [if_pos hroots, List.filter_cons_of_neg (by simpa using hroots)]
    · rw [if_neg hroots, List.filter_cons_of_pos (by simpa using hroots), List.map_cons,
        SyncCall.publishCall, publishAll, run_bind_of_ok (run_conclude _ _ _), run_bind_pure_snd]

/-- After some syncs a lookup finds the files of the last one that had an identity to crawl from:
what its crawl saw, and nothing else. -/
theorem lookup_finds_last_sync (calls : List (SyncCall C)) (listing : GraphStore.Listing)
    (hdistinct : ((calls.filter (·.roots ≠ [])).map fun call => call.documents.syncId).Nodup) :
    (run GraphOp.exec (GraphStore.currentGeneration listing)
        (run GraphOp.exec (syncAll calls) .empty).2).1 =
      .ok ((calls.filter (·.roots ≠ [])).getLast?.map SyncCall.documents) := by
  rw [run_syncAll]
  generalize calls.filter (·.roots ≠ []) = calls at hdistinct ⊢
  have hnames : ((calls.map SyncCall.publishCall).map fun call => call.1.syncId).Nodup := by
    rw [List.map_map]
    exact hdistinct
  have hvalid : ∀ g ∈ (calls.map SyncCall.publishCall).map Prod.fst,
      (checkSyncId g.syncId).toBool = true := by
    simp only [List.map_map, List.forall_mem_map]
    intro call _
    have hname : call.documents.syncId = mintSyncId call.startedAtMs call.suffix.bytes := rfl
    change (checkSyncId call.documents.syncId).toBool = true
    rw [hname, checkSyncId_mintSyncId call.started call.suffix.length_eq]
    rfl
  rw [run_currentGeneration_stored listing (stored_publishAll _ hnames), lastPublished,
    List.filter_eq_self.mpr hvalid, List.map_map, List.getLast?_map]
  rfl

end Mabel.Graph
