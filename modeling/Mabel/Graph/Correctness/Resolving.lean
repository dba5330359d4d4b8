import Mabel.Graph.Correctness.Dialing

/-!
# A witness is resolved once

The fetches of one operation share the witnesses they have resolved and those they are resolving.
Which fetch is resolving which witness is read off the modes of the threads, so no two resolve
the same one, what a witness resolved to stays what it is, and the count of resolutions is that
of the witnesses resolved and being resolved.
-/

namespace Mabel.Graph

open Node Crawl Verification Program Discipline

variable {C : Crypto} {ε α β : Type}

/-! ## The discipline -/

/-- Nothing the home is configured with fails to read. -/
structure Readable (world : World C) (s : Operation C) : Prop where
  peers : ∃ peers, s.peers = .ok peers
  config : ∀ look, ∃ entries, world.config look = .ok entries

/-- Which witnesses are resolved and being resolved, by the modes of the fetches. -/
structure Resolutions (sure : Prop) (modes : List (Option IdentityId)) (s : Operation C) : Prop where
  one : ∀ witness, Exclusive (· = some witness) modes
  resolving : ∀ witness, s.resolving.get? witness = some () ↔ some witness ∈ modes
  fresh : ∀ witness, some witness ∈ modes → s.resolved.get? witness = none
  least : s.resolved.entries.length + s.resolving.entries.length ≤ s.resolutions
  count : sure → s.resolutions = s.resolved.entries.length + s.resolving.entries.length

/-- What a step may do to the witnesses. -/
inductive Resolves (sure : Prop) (s t : Operation C) :
    Option IdentityId → Option IdentityId → Prop where
  | keep {m : Option IdentityId} (resolved : t.resolved = s.resolved)
    (resolving : t.resolving = s.resolving) (resolutions : t.resolutions = s.resolutions) :
    Resolves sure s t m m
  | start {witness : IdentityId} (fresh : s.resolved.get? witness = none)
    (free : s.resolving.get? witness = none) (resolved : t.resolved = s.resolved)
    (resolving : t.resolving = s.resolving.insert witness ())
    (resolutions : t.resolutions = s.resolutions + 1) : Resolves sure s t none (some witness)
  | finish {witness : IdentityId} {endpoints : Option (List (EndpointId C))}
    (fresh : s.resolved.get? witness = none) (underway : s.resolving.get? witness = some ())
    (answered : sure → endpoints.isSome) (resolving : t.resolving = s.resolving.remove witness)
    (resolved : t.resolved = endpoints.elim s.resolved (s.resolved.insert witness))
    (resolutions : t.resolutions = s.resolutions) : Resolves sure s t (some witness) none

/-- A witness once resolved keeps its endpoints. -/
def Remembers (s t : Operation C) : Prop :=
  ∀ witness endpoints, s.resolved.get? witness = some endpoints →
    t.resolved.get? witness = some endpoints

/-- What a resolution does is remembered. -/
theorem Resolves.remembers {sure : Prop} {s t : Operation C} {m m' : Option IdentityId}
    (h : Resolves sure s t m m') : Remembers s t := by
  intro w e hw
  cases h with
  | keep resolved => rwa [resolved]
  | start _ _ resolved => rwa [resolved]
  | @finish witness endpoints fresh _ _ _ resolved =>
    rw [resolved]
    cases endpoints with
    | none => exact hw
    | some endpoints =>
      rw [Option.elim_some, SortedMap.get?_insert, if_neg]
      · exact hw
      · rintro rfl
        rw [hw] at fresh
        simp at fresh

variable {sure : Prop} {modes : List (Option IdentityId)} {i : Nat} {m m' : Option IdentityId}
  {s t : Operation C}

/-- A mode of the witnesses after one fetch moved on is its new one or one of before. -/
theorem some_mem_set {witness : IdentityId} (hi : modes[i]? = some m)
    (hone : Exclusive (· = some witness) modes) :
    some witness ∈ modes.set i m' ↔ m' = some witness ∨ (some witness ∈ modes ∧ m ≠ some witness) := by
  constructor
  · intro h
    rcases mem_set_cases h with h | h
    · exact .inl h.symm
    · refine .inr ⟨List.mem_of_mem_eraseIdx h, fun hm => ?_⟩
      exact hone.others hi hm _ h rfl
  · rintro (rfl | ⟨h, hm⟩)
    · exact List.mem_iff_getElem?.mpr ⟨i, by
        rw [List.getElem?_set_self (List.getElem?_eq_some_iff.mp hi).1]⟩
    · rcases mem_cases hi h with h | h
      · exact absurd h.symm hm
      · exact mem_set_of_mem_eraseIdx h m'

/-- The witnesses stay accounted for when a fetch takes a step. -/
theorem Resolutions.step (h : Resolutions sure modes s) (hi : modes[i]? = some m)
    (hstep : Resolves sure s t m m') : Resolutions sure (modes.set i m') t := by
  cases hstep with
  | keep resolved resolving resolutions =>
    obtain ⟨hlt, heq⟩ := List.getElem?_eq_some_iff.mp hi
    rw [← heq, List.set_getElem_self]
    refine ⟨h.one, fun w => ?_, fun w hw => ?_, ?_, fun hsure => ?_⟩
    · rw [resolving]
      exact h.resolving w
    · rw [resolved]
      exact h.fresh w hw
    · rw [resolved, resolving, resolutions]
      exact h.least
    · rw [resolved, resolving, resolutions]
      exact h.count hsure
  | @start witness fresh free resolved resolving resolutions =>
    have hfree : some witness ∉ modes := by
      intro hmem
      rw [(h.resolving witness).mpr hmem] at free
      simp at free
    have hlength := SortedMap.length_insert_of_none () free
    refine ⟨fun w => (h.one w).set fun hw other hother hsame => ?_, fun w => ?_, fun w hw => ?_, ?_,
      fun hsure => ?_⟩
    · rw [hw, ← hsame] at hfree
      exact hfree (List.mem_of_mem_eraseIdx hother)
    · rw [some_mem_set hi (h.one w), resolving, SortedMap.get?_insert]
      by_cases hsame : w = witness
      · simp [hsame]
      · rw [if_neg hsame, h.resolving]
        simp [Ne.symm hsame]
    · rw [resolved]
      rcases (some_mem_set hi (h.one w)).mp hw with hsame | ⟨hmem, -⟩
      · obtain rfl := Option.some.inj hsame
        exact fresh
      · exact h.fresh w hmem
    · have hleast := h.least
      rw [resolved, resolving, resolutions]
      omega
    · have hcount := h.count hsure
      rw [resolved, resolving, resolutions]
      omega
  | @finish witness endpoints fresh underway answered resolving resolved resolutions =>
    have hlength := SortedMap.length_remove_of_some underway
    refine ⟨fun w => (h.one w).set (by simp), fun w => ?_, fun w hw => ?_, ?_, fun hsure => ?_⟩
    · rw [some_mem_set hi (h.one w), resolving, SortedMap.get?_remove]
      by_cases hsame : w = witness
      · simp [hsame]
      · rw [if_neg hsame, h.resolving]
        simp [Ne.symm hsame]
    · obtain ⟨hmem, hother⟩ := ((some_mem_set hi (h.one w)).mp hw).resolve_left (by simp)
      rw [resolved]
      cases endpoints with
      | none => exact h.fresh w hmem
      | some endpoints =>
        rw [Option.elim_some, SortedMap.get?_insert, if_neg]
        · exact h.fresh w hmem
        · exact fun hsame => hother (congrArg some hsame.symm)
    · have hleast := h.least
      rw [resolved, resolving, resolutions]
      cases endpoints with
      | none =>
        rw [Option.elim_none]
        omega
      | some endpoints =>
        rw [Option.elim_some, SortedMap.length_insert_of_none endpoints fresh]
        omega
    · have hcount := h.count hsure
      obtain ⟨endpoints, rfl⟩ := Option.isSome_iff_exists.mp (answered hsure)
      rw [resolved, resolving, resolutions, Option.elim_some,
        SortedMap.length_insert_of_none endpoints fresh]
      omega

/-- A fetch finds the witness it is resolving marked, and not yet resolved. -/
structure Finds (sure : Prop) (world : World C) (m : Option IdentityId) (s : Operation C) :
    Prop where
  underway : ∀ witness, m = some witness → s.resolving.get? witness = some ()
  fresh : ∀ witness, m = some witness → s.resolved.get? witness = none
  readable : sure → Readable world s

/-- The discipline of the fetches of one operation where they resolve witnesses. -/
def resolveDiscipline (sure : Prop) (world : World C) : Discipline (operationSharing world) where
  apart _ _ _ _ := True
  rely _ _ _ := True
  guarantee m m' s t := Resolves sure s t m m' ∧ (sure → Readable world s → Readable world t)
  invariant modes s := Resolutions sure modes s ∧ (sure → Readable world s)
  finds m _ s := Finds sure world m s
  finds_of h hi _ _ := by
    have hmem := List.mem_of_getElem? hi
    exact ⟨fun w hw => (h.1.resolving w).mpr (hw ▸ hmem), fun w hw => h.1.fresh w (hw ▸ hmem), h.2⟩
  rely_of _ _ _ _ _ _ := trivial
  invariant_of h hi _ _ hstep := ⟨h.1.step hi hstep.1, fun hsure => hstep.2 hsure (h.2 hsure)⟩
  invariant_return h hi hstep := ⟨h.1.step hi hstep.1, h.2⟩
  guarantee_rest s := ⟨.keep rfl rfl rfl, fun _ => id⟩

/-! ## Programs -/

/-- A step that leaves the witnesses alone. -/
def FetchOp.Neutral : FetchOp C → Prop
  | .startResolving _ | .finishResolving .. => False
  | _ => True

section Programs

variable {sure : Prop} {world : World C} {p : OnOperation C ε α} {f : α → OnOperation C ε β}

/-- A neutral step resolves nothing and forgets nothing. -/
theorem neutral_step (sure : Prop) (world : World C) {op : FetchOp C} (h : op.Neutral) (m : Option IdentityId) (s : Operation C) :
    (resolveDiscipline sure world).guarantee m
      ((operationSharing world).turn m op ((operationSharing world).exec op s).1) s
      ((operationSharing world).exec op s).2 ∧
    (operationSharing world).turn m op ((operationSharing world).exec op s).1 = m := by
  cases op with
  | startResolving witness => exact h.elim
  | finishResolving witness endpoints => exact h.elim
  | updatePeers f =>
    have hexec : ((FetchOp.updatePeers f).exec world s).2.resolved = s.resolved ∧
        ((FetchOp.updatePeers f).exec world s).2.resolving = s.resolving ∧
        ((FetchOp.updatePeers f).exec world s).2.resolutions = s.resolutions ∧
        ((∃ peers, s.peers = .ok peers) →
          ∃ peers, ((FetchOp.updatePeers f).exec world s).2.peers = .ok peers) := by
      simp only [FetchOp.exec]
      cases hpeers : s.peers with
      | error detail => exact ⟨rfl, rfl, rfl, by simp⟩
      | ok peers => exact ⟨rfl, rfl, rfl, fun _ => ⟨_, rfl⟩⟩
    obtain ⟨hresolved, hresolving, hresolutions, hpeers⟩ := hexec
    exact ⟨⟨.keep hresolved hresolving hresolutions,
      fun _ hreadable => ⟨hpeers hreadable.peers, hreadable.config⟩⟩, rfl⟩
  | _ => exact ⟨⟨.keep rfl rfl rfl, fun _ hreadable => ⟨hreadable.peers, hreadable.config⟩⟩, rfl⟩

/-- A program of neutral steps stays in its mode. -/
theorem triple_neutral (h : p.Performs FetchOp.Neutral) (mode : Option IdentityId) :
    (resolveDiscipline sure world).Triple (fun m _ => m = mode) p fun _ m _ => m = mode := by
  have hp : ∀ m, m = mode → (resolveDiscipline sure world).Meets p m (fun _ => m = mode)
      fun _ m _ => m = mode := by
    induction p with
    | done result => exact fun m hm s _ => hm
    | perform op next ih =>
      intro m hm s _ _
      obtain ⟨hguarantee, hturn⟩ := neutral_step sure world h.1 m s
      refine ⟨hguarantee, _, fun _ _ _ => id, hturn.trans hm, ih _ (h.2 _) _ (hturn.trans hm)⟩
  exact fun m => Meets.assume (fun s hs => hs) (hp m)

/-- A program that starts and ends with no witness being resolved. -/
def Rests (sure : Prop) (world : World C) (p : OnOperation C ε α) : Prop :=
  (resolveDiscipline sure world).Triple (fun m _ => m = none) p fun _ m _ => m = none

theorem rests_neutral (h : p.Performs FetchOp.Neutral) : Rests sure world p :=
  triple_neutral h none

theorem rests_pure (a : α) : Rests sure world (pure a : OnOperation C ε α) :=
  rests_neutral trivial

theorem rests_bind (h : Rests sure world p) (hf : ∀ a, Rests sure world (f a)) :
    Rests sure world (p >>= f) := .bind h hf fun _ _ _ => id

theorem rests_ask_bind (op : FetchOp C) (h : op.Neutral) {f : op.Reply → OnOperation C ε β}
    (hf : ∀ reply, Rests sure world (f reply)) : Rests sure world (ask op >>= f) :=
  rests_bind (rests_neutral ⟨h, fun _ => trivial⟩) hf

theorem rests_conclude {g : Outcome ε α → β} (h : Rests sure world p) :
    Rests sure world (p.conclude g : OnOperation C Empty β) := .conclude h

end Programs

/-! ## Resolving a witness -/

section Witness

variable {sure : Prop} {world : World C} {mode : Option IdentityId} {p : OnOperation C ε α}
  {f : α → OnOperation C ε β}

/-- A program that answers where everything reads, in the mode it started in. -/
def Answering (sure : Prop) (mode : Option IdentityId) (r : Outcome ε α)
    (m : Option IdentityId) (_ : Operation C) : Prop := m = mode ∧ (sure → ∃ a, r = .ok a)

/-- What answers may follow what answers. -/
theorem answering_bind
    (h : (resolveDiscipline sure world).Triple (fun m _ => m = mode) p (Answering sure mode))
    (hf : ∀ a, (resolveDiscipline sure world).Triple (fun m _ => m = mode) (f a)
      (Answering sure mode)) :
    (resolveDiscipline sure world).Triple (fun m _ => m = mode) (p >>= f)
      (Answering sure mode) := by
  refine .bind h (fun a => (hf a).mono (fun _ _ hs => hs.1) fun _ _ _ => id) ?_
  intro e m s hs
  refine ⟨hs.1, fun hsure => ?_⟩
  obtain ⟨a, ha⟩ := hs.2 hsure
  simp at ha

theorem answering_pure (a : α) :
    (resolveDiscipline sure world).Triple (fun m _ => m = mode) (pure a : OnOperation C ε α)
      (Answering sure mode) := .pure fun _ _ hs => ⟨hs, fun _ => ⟨a, rfl⟩⟩

/-- A demanded reply answers where the reply is sure. -/
theorem answering_demanded {γ : Type} {reply : Except String γ} :
    (resolveDiscipline sure world).Triple
      (fun m _ => m = mode ∧ (sure → ∃ a, reply = .ok a)) (demanded reply)
      (Answering sure mode) := by
  cases reply with
  | ok a => exact .pure fun _ _ hs => ⟨hs.1, fun _ => ⟨a, rfl⟩⟩
  | error detail =>
    refine .lift fun m s hs => ⟨hs.1, fun hsure => ?_⟩
    obtain ⟨a, ha⟩ := hs.2 hsure
    simp at ha

/-- Reading the hints answers. -/
theorem answering_peers :
    (resolveDiscipline sure world).Triple (fun m _ => m = mode) Ask.peers
      (Answering sure mode) := by
  refine .ask_bind FetchOp.readPeers (R := fun reply m _ => m = mode ∧
    (sure → ∃ peers, reply = .ok peers)) (fun _ _ _ _ _ => id) ?_ fun reply => answering_demanded
  intro m s hm hfinds
  have hneutral : (FetchOp.readPeers (C := C)).Neutral := trivial
  obtain ⟨hguarantee, hturn⟩ := neutral_step sure world hneutral m s
  exact ⟨hguarantee, hturn.trans hm, fun hsure => (hfinds.readable hsure).peers⟩

/-- Reading the config answers. -/
theorem answering_config :
    (resolveDiscipline sure world).Triple (fun m _ => m = mode) Ask.config
      (Answering sure mode) := by
  refine .ask_bind FetchOp.readConfig (R := fun reply m _ => m = mode ∧
    (sure → ∃ entries, reply = .ok entries)) (fun _ _ _ _ _ => id) ?_
    fun reply => answering_demanded
  intro m s hm hfinds
  have hneutral : (FetchOp.readConfig (C := C)).Neutral := trivial
  obtain ⟨hguarantee, hturn⟩ := neutral_step sure world hneutral m s
  exact ⟨hguarantee, hturn.trans hm, fun hsure => (hfinds.readable hsure).config s.looks⟩

/-- One neutral step whose reply always reads. -/
theorem answering_ask (op : FetchOp C) (h : op.Neutral) :
    (resolveDiscipline sure world).Triple (fun m _ => m = mode)
      (ask op : OnOperation C ε _) (Answering sure mode) := by
  refine .ask op (fun _ _ _ _ _ => id) fun m s hm _ => ?_
  obtain ⟨hguarantee, hturn⟩ := neutral_step sure world h m s
  exact ⟨hguarantee, hturn.trans hm, fun _ => ⟨_, rfl⟩⟩

/-- Resolving a witness answers. -/
theorem answering_resolveWitness (callerHints : List (EndpointId C)) (witness : IdentityId) :
    (resolveDiscipline sure world).Triple (fun m _ => m = mode)
      (resolveWitness callerHints witness) (Answering sure mode) := by
  refine answering_bind answering_peers fun peers => ?_
  refine answering_bind (answering_ask .now trivial) fun now => ?_
  refine answering_bind (answering_ask (.load witness) trivial) fun copy => ?_
  exact answering_bind answering_config fun config => answering_pure _

/-- A fetch that starts resolving a witness finishes, and no other did so meanwhile. -/
theorem rests_witnessEndpoints (callerHints : List (EndpointId C)) (witness : IdentityId) :
    Rests sure world (witnessEndpoints callerHints witness) := by
  refine .ask_bind (FetchOp.startResolving witness)
    (R := fun standing m _ => m = resolvingAfter none (.startResolving witness) standing)
    (fun _ _ _ _ _ => id) ?_ fun standing => ?_
  · intro m s hm _
    subst hm
    refine ⟨?_, rfl⟩
    simp only [operationSharing, FetchOp.exec]
    cases hresolved : s.resolved.get? witness with
    | some endpoints => exact ⟨.keep rfl rfl rfl, fun _ => id⟩
    | none =>
      by_cases hresolving : (s.resolving.get? witness).isSome = true
      · rw [if_pos hresolving]
        exact ⟨.keep rfl rfl rfl, fun _ => id⟩
      · rw [if_neg hresolving]
        rw [Option.not_isSome_iff_eq_none] at hresolving
        exact ⟨.start hresolved hresolving rfl rfl rfl,
          fun _ hreadable => ⟨hreadable.peers, hreadable.config⟩⟩
  cases standing with
  | resolved endpoints => exact .pure fun _ _ hs => hs
  | underway => exact .pure fun _ _ hs => hs
  | started =>
    -- Looking at how the resolution ended does not fail, so the witness is always let go.
    refine .bind (R := fun r m _ => m = some witness ∧ ∃ resolved, r = .ok resolved ∧
      (sure → ∃ endpoints, resolved = .ok endpoints))
      (.conclude ((answering_resolveWitness callerHints witness).mono (fun _ _ hs => hs)
        fun r m s hs => ⟨hs.1, r, rfl, hs.2⟩)) (fun resolved => ?_) ?_
    · refine .bind (R := fun _ m _ => m = none) (.ask (FetchOp.finishResolving witness
        resolved.toOption) (fun _ _ _ _ _ => id) fun m s hs hfinds => ?_)
        (fun _ => .lift fun _ _ hs => hs) fun _ _ _ => id
      obtain ⟨rfl, _, hsame, hanswered⟩ := hs
      refine ⟨⟨.finish (hfinds.fresh witness rfl) (hfinds.underway witness rfl) ?_ rfl rfl rfl,
        fun _ hreadable => ⟨hreadable.peers, hreadable.config⟩⟩, rfl⟩
      intro hsure
      obtain ⟨endpoints, rfl⟩ := hanswered hsure
      rw [Except.ok.inj hsame]
      rfl
    · rintro e m s ⟨-, resolved, hsame, -⟩
      simp at hsame

end Witness

/-! ## A fetch -/

section Fetch

variable {sure : Prop} {world : World C} {callerHints : List (EndpointId C)} {ledger : LedgerId}

theorem rests_demanded {x : Except String α} : Rests sure world (demanded x) := by
  cases x <;> exact rests_neutral trivial

/-- Pushing an admitted source is neutral. -/
theorem performs_pushAdmitted (planned : List (PlannedSource C)) (next : PlannedSource C) :
    (pushAdmitted planned next : OnOperation C ε _).Performs FetchOp.Neutral := by
  rw [pushAdmitted]
  refine .ite trivial ?_
  cases next.endpoint with
  | none => trivial
  | some endpoint =>
    refine ⟨trivial, fun admitted => ?_⟩
    cases admitted <;> trivial

/-- Pushing sources is neutral. -/
theorem performs_pushAll (rest : List (PlannedSource C)) : ∀ planned : List (PlannedSource C),
    (pushAll planned rest : OnOperation C ε _).Performs FetchOp.Neutral := by
  induction rest with
  | nil => exact fun _ => trivial
  | cons next rest ih => exact fun planned => .bind (performs_pushAdmitted planned next) ih

/-- Adding named sources is neutral. -/
theorem performs_addNamed (planned : List (PlannedSource C)) (rest : List (PlannedSource C)) :
    ∀ extra : List (PlannedSource C),
    (addNamed planned extra rest : OnOperation C ε _).Performs FetchOp.Neutral := by
  induction rest with
  | nil => exact fun _ => trivial
  | cons next rest ih =>
    intro extra
    rw [addNamed]
    exact .ite (ih extra) (.bind (performs_pushAdmitted extra next) ih)

/-- Planning the witnesses rests between its resolutions. -/
theorem rests_planWitnesses (witnesses : List IdentityId) : ∀ planned : List (PlannedSource C),
    Rests sure world (planWitnesses callerHints planned witnesses) := by
  induction witnesses with
  | nil => exact fun _ => rests_pure _
  | cons witness rest ih =>
    intro planned
    refine rests_bind (rests_witnessEndpoints callerHints witness) fun endpoints => ?_
    exact rests_bind (rests_neutral (performs_pushAll _ planned)) ih

/-- Planning the sources rests between its resolutions. -/
theorem rests_planSources (learned : List (EndpointId C)) :
    Rests sure world (planSources callerHints ledger learned) := by
  refine rests_bind (rests_ask_bind (.holds ledger) trivial fun _ => rests_demanded) fun held => ?_
  refine rests_bind (rests_neutral (performs_pushAll _ _)) fun planned => ?_
  refine rests_bind (rests_ask_bind .readPeers trivial fun _ => rests_demanded) fun peers => ?_
  refine rests_ask_bind .now trivial fun now => ?_
  refine rests_bind (rests_neutral (performs_pushAll _ _)) fun planned => ?_
  refine rests_bind (rests_ask_bind .readConfig trivial fun _ => rests_demanded) fun config => ?_
  exact rests_planWitnesses _ _

/-- Adding named witnesses rests between its resolutions. -/
theorem rests_addNamedWitnesses (planned : List (PlannedSource C)) (witnesses : List IdentityId) :
    ∀ extra : List (PlannedSource C),
    Rests sure world (addNamedWitnesses callerHints planned extra witnesses) := by
  induction witnesses with
  | nil => exact fun _ => rests_pure _
  | cons witness rest ih =>
    intro extra
    refine rests_bind (rests_witnessEndpoints callerHints witness) fun endpoints => ?_
    exact rests_bind (rests_neutral (performs_addNamed planned _ extra)) ih

/-- The sources a chain names rest between the resolutions. -/
theorem rests_chainNamedSources (planned : List (PlannedSource C)) (summary : LedgerSummary C) :
    Rests sure world (chainNamedSources callerHints planned summary) := by
  refine rests_bind (rests_neutral (performs_addNamed planned _ _)) fun extra => ?_
  refine rests_bind (rests_addNamedWitnesses planned _ extra) fun extra => ?_
  exact rests_neutral (performs_addNamed planned _ extra)

/-- Reading a source is neutral. -/
theorem performs_read (next : PlannedSource C) :
    (read ledger next : OnOperation C ε _).Performs FetchOp.Neutral := by
  rw [read]
  cases next.endpoint with
  | none => exact ⟨trivial, fun _ => trivial⟩
  | some endpoint => exact ⟨trivial, fun _ => trivial⟩

/-- Following an answer rests between its resolutions. -/
theorem rests_follow (planned : List (PlannedSource C)) (answers : Hearings C)
    (served : Served C) : Rests sure world (follow callerHints planned answers served) := by
  cases served with
  | nothing => exact rests_pure _
  | unverified detail => exact rests_pure _
  | chain loaded =>
    refine rests_bind (rests_conclude (rests_chainNamedSources planned _)) fun named => ?_
    rcases named with (detail | site) | named <;> exact rests_neutral trivial

/-- Gathering rests between its resolutions; the induction is on the rounds. -/
theorem rests_gatherFrom (rounds : Nat) : ∀ (planned : List (PlannedSource C)) (index : Nat)
    (answers : Hearings C),
    Rests sure world (gatherFrom callerHints ledger rounds planned index answers) := by
  induction rounds with
  | zero => exact fun _ _ _ => rests_pure _
  | succ rounds ih =>
    intro planned index answers
    rw [gatherFrom]
    cases planned[index]? with
    | none => exact rests_pure _
    | some next =>
      refine rests_ask_bind .expired trivial fun expired => ?_
      cases expired with
      | true => exact rests_pure _
      | false =>
        refine rests_bind (rests_neutral (performs_read next)) fun served => ?_
        exact rests_bind (rests_follow planned _ served) fun r => ih r.1 (index + 1) r.2

/-- Admitting the zone's endpoints is neutral. -/
theorem performs_admittedDns (hostname : String) (named : List (EndpointId C)) :
    (admittedDns hostname named : OnOperation C ε _).Performs FetchOp.Neutral := by
  induction named with
  | nil => trivial
  | cons endpoint rest ih => exact .bind ⟨trivial, fun _ => trivial⟩ fun _ => .bind ih fun _ => trivial

/-- Finding sources by name is neutral. -/
theorem performs_dnsSources (hasResolver : Bool) :
    (dnsSources hasResolver ledger : OnOperation C ε _).Performs FetchOp.Neutral := by
  rw [dnsSources]
  cases hasResolver with
  | false => trivial
  | true =>
    refine .bind (performs_claimedHostname trivial trivial) fun hostname => ?_
    cases hostname with
    | none => trivial
    | some hostname =>
      refine .bind ⟨trivial, fun _ => trivial⟩ fun records => ?_
      cases records with
      | none => trivial
      | some records => exact performs_admittedDns hostname _

/-- Asking every source is neutral. -/
theorem performs_askAll (planned : List (PlannedSource C)) : ∀ answers : Hearings C,
    (askAll ledger answers planned : OnOperation C ε _).Performs FetchOp.Neutral := by
  induction planned with
  | nil => exact fun _ => trivial
  | cons next planned ih =>
    refine fun answers => .bind ⟨trivial, fun _ => trivial⟩ fun expired => ?_
    cases expired with
    | true => trivial
    | false => exact .bind (performs_read next) fun served => ih _

/-- Asking by name is neutral. -/
theorem performs_askDns (hasResolver : Bool) (answers : Hearings C) :
    (askDns hasResolver ledger answers : OnOperation C ε _).Performs FetchOp.Neutral := by
  rw [askDns]
  refine .ite trivial (.bind ⟨trivial, fun _ => trivial⟩ fun expired => ?_)
  cases expired with
  | true => trivial
  | false => exact .bind (performs_dnsSources hasResolver) fun named => performs_askAll named answers

/-- A fetch rests between its resolutions. -/
theorem rests_fetch (hasResolver : Bool) (rounds : Nat) (learned : List (EndpointId C)) :
    Rests sure world (fetch callerHints hasResolver rounds ledger learned) := by
  refine rests_bind (rests_conclude (rests_planSources learned)) fun planned => ?_
  rcases planned with (detail | site) | planned
  · exact rests_ask_bind .now trivial fun now => rests_pure _
  · exact rests_neutral trivial
  · refine rests_bind (rests_gatherFrom rounds planned 0 .none) fun gathered => ?_
    cases gathered with
    | none => exact rests_pure _
    | some gathered =>
      refine rests_bind (rests_neutral (performs_askDns hasResolver gathered.2)) fun answers => ?_
      refine rests_ask_bind .now trivial fun now => ?_
      exact rests_ask_bind (.updatePeers _) trivial fun _ => rests_pure _

end Fetch

/-! ## Every schedule -/

/-- Every operation starts with nothing resolved. -/
theorem resolved_start (peers : Except String (Peers C)) (modes : List (Option IdentityId))
    (h : ∀ m ∈ modes, m = none) (sure : Prop) : Resolutions sure modes (.start peers) := by
  have hnone : ∀ witness, some witness ∉ modes := fun witness hmem => by simpa using h _ hmem
  refine ⟨fun w i j m m' hi _ hm _ => ?_, fun w => ?_, fun w hw => absurd hw (hnone w), le_rfl,
    fun _ => rfl⟩
  · exact absurd (hm ▸ List.mem_of_getElem? hi) (hnone w)
  · exact ⟨by simp [Operation.start], fun hw => absurd hw (hnone w)⟩

/-- Along every schedule the witnesses are accounted for, and what one is resolved to stays. -/
theorem kept_resolving (sure : Prop) (world : World C) (peers : Except String (Peers C))
    (callerHints : List (EndpointId C)) (hasResolver : Bool) (rounds : Nat)
    (reads : List (LedgerId × List (EndpointId C))) (schedule : List Nat)
    (hreadable : sure → Readable world (.start peers)) :
    (resolveDiscipline sure world).Kept (fun _ _ => True)
      ((fetching peers callerHints hasResolver rounds reads).run (operationSharing world)
        schedule) := by
  have hstart : (resolveDiscipline sure world).Kept (fun _ _ => True)
      (fetching peers callerHints hasResolver rounds reads) := by
    refine ⟨⟨resolved_start peers _ (fun m hm => ?_) sure, hreadable⟩, fun thread hthread => ?_⟩
    · simp only [Pool.modes, fetching, List.map_map, List.mem_map] at hm
      obtain ⟨_, -, rfl⟩ := hm
      rfl
    · obtain ⟨next, -, rfl⟩ := List.mem_map.mp hthread
      refine ⟨fun _ => True, fun _ _ _ => id, trivial, ?_⟩
      refine (rests_fetch hasResolver rounds next.2 none).mono (fun _ _ => rfl) fun r m s hm => ?_
      rw [hm]
      exact ⟨(resolveDiscipline sure world).guarantee_rest s, fun _ _ => trivial⟩
  refine (hstart.run (fun _ _ _ _ => id) (R := fun _ _ => True) (fun _ => trivial)
    (fun _ _ _ _ _ => trivial) (fun _ _ _ _ _ => trivial) schedule ?_).1
  exact along_apart world schedule _

/-- A fetch that has ended is not resolving a witness. -/
theorem mode_of_done {sure : Prop} {world : World C} {Q : α → Operation C → Prop}
    {thread : Thread (FetchOp C) FetchOp.Reply (Option IdentityId) α} {s : Operation C}
    {result : Outcome Empty α} (h : (resolveDiscipline sure world).Keeps Q thread s)
    (hdone : thread.program = .done result) : thread.mode = none := by
  obtain ⟨P, -, hP, hmeets⟩ := h
  rw [hdone] at hmeets
  have hends := (hmeets s hP).1.1
  generalize thread.mode = m at hends
  change Resolves sure s s m none at hends
  cases hends with
  | keep => rfl
  | @finish witness endpoints _ underway _ resolving =>
    rw [resolving, SortedMap.get?_remove, if_pos rfl] at underway
    simp at underway

/-- However the fetches of one operation fall between one another, no two are resolving the same
witness at once, a witness that was resolved keeps its endpoints to the end of the operation, and
once all have ended none is left marked. Every witness that is or was resolved started a
resolution, and where nothing the home is configured with fails to read there are no others: each
witness was resolved once. -/
theorem witnesses_resolve_once (world : World C) (peers : Except String (Peers C))
    (callerHints : List (EndpointId C)) (hasResolver : Bool) (rounds : Nat)
    (reads : List (LedgerId × List (EndpointId C))) (first rest : List Nat) :
    let pool := fetching peers callerHints hasResolver rounds reads
    let before := pool.run (operationSharing world) first
    let after := pool.run (operationSharing world) (first ++ rest)
    (∀ (i j : Nat) (witness : IdentityId), before.modes[i]? = some (some witness) →
      before.modes[j]? = some (some witness) → i = j) ∧
    (∀ witness endpoints, before.state.resolved.get? witness = some endpoints →
      after.state.resolved.get? witness = some endpoints) ∧
    ((∀ thread ∈ before.threads, ∃ result, thread.program = .done result) →
      ∀ witness, before.state.resolving.get? witness = none) ∧
    before.state.resolved.entries.length + before.state.resolving.entries.length ≤
      before.state.resolutions ∧
    (Readable world (.start peers) → before.state.resolutions =
      before.state.resolved.entries.length + before.state.resolving.entries.length) := by
  intro pool before after
  have hkept := kept_resolving False world peers callerHints hasResolver rounds reads first
    False.elim
  have hresolved := hkept.invariant.1
  refine ⟨fun i j w hi hj => hresolved.one w i j _ _ hi hj rfl rfl, ?_, fun hended w => ?_,
    hresolved.least, fun hreadable => ?_⟩
  · have hstep : ∀ m m' s t, (resolveDiscipline False world).guarantee m m' s t → Remembers s t :=
      fun _ _ _ _ h => h.1.remembers
    have hrun := hkept.run (fun _ _ _ _ => id) (R := Remembers) (fun _ _ _ => id)
      (fun _ _ _ h h' w e hw => h' w e (h w e hw)) hstep rest (along_apart world rest _)
    intro w e hw
    have hafter : after = before.run (operationSharing world) rest := Pool.run_append pool first rest
    rw [hafter]
    exact hrun.2 w e hw
  · rw [Option.eq_none_iff_forall_ne_some]
    intro u hu
    obtain ⟨thread, hthread, hmode⟩ := List.mem_map.mp ((hresolved.resolving w).mp hu)
    obtain ⟨result, hdone⟩ := hended thread hthread
    rw [mode_of_done (hkept.keeps thread hthread) hdone] at hmode
    simp at hmode
  · exact (kept_resolving True world peers callerHints hasResolver rounds reads first
      fun _ => hreadable).invariant.1.count trivial

end Mabel.Graph
