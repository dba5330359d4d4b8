import Mabel.Core.Pool
import Mabel.Graph.Fetch
import Mabel.Verification.Correctness.Endpoints

/-!
# Fetches stay within one dial budget

The queue of a fetch grows while it is asked: every copy that verifies adds what its chain names.
No entry joins it twice and each endpoint in it has been charged, so it is never longer than the
budget and the local copy together, whatever the sources answer and however the fetches of one
operation fall between one another. Every endpoint asked, those of a zone included, is one the
budget holds.
-/

namespace Mabel.Graph

open Node Crawl Verification Program Discipline

variable {C : Crypto} {ε α β : Type}

/-! ## The discipline -/

/-- The budget is in order, and every endpoint asked was charged. -/
structure Within (s : Operation C) : Prop where
  charged : s.dials.Charged
  asked : ∀ endpoint ∈ s.asked, endpoint ∈ s.dials.dialled

/-- What the fetches of one operation may do beside one another. -/
structure Dialing (s t : Operation C) : Prop where
  dialled : s.dials.dialled ⊆ t.dials.dialled
  within : Within s → Within t

theorem Dialing.refl (s : Operation C) : Dialing s s := ⟨Finset.Subset.refl _, id⟩

theorem Dialing.trans {s t u : Operation C} (h : Dialing s t) (h' : Dialing t u) : Dialing s u :=
  ⟨h.dialled.trans h'.dialled, h'.within ∘ h.within⟩

/-- Which witness a fetch is resolving, after a step. -/
def resolvingAfter (mode : Option IdentityId) : (op : FetchOp C) → op.Reply → Option IdentityId
  | .startResolving witness, .started => some witness
  | .finishResolving .., _ => none
  | _, _ => mode

/-- How the fetches of one operation share it: a step waits for nothing, and a fetch is in the
middle of resolving a witness or not. -/
def operationSharing (world : World C) :
    Sharing (FetchOp C) FetchOp.Reply (Operation C) Empty (Option IdentityId) where
  exec := FetchOp.exec world
  acquires _ := none
  holds _ _ := false
  turn := resolvingAfter
  resting := none

/-- The discipline of the fetches of one operation. -/
def dialDiscipline (world : World C) : Discipline (operationSharing world) where
  apart _ _ _ _ := True
  rely _ := Dialing
  guarantee _ _ := Dialing
  invariant _ := Within
  finds _ _ := Within
  finds_of h _ _ _ := h
  rely_of _ _ _ h _ _ := h
  invariant_of h _ _ _ hstep := hstep.within h
  invariant_return h _ _ := h
  guarantee_rest := Dialing.refl

/-! ## Steps -/

/-- A step that neither charges the budget nor asks an endpoint. -/
def FetchOp.Quiet : FetchOp C → Prop
  | .admitDial .. | .candidate .. => False
  | _ => True

section Steps

variable (world : World C)

/-- A quiet step neither dials nor asks. -/
theorem exec_quiet {op : FetchOp C} (h : op.Quiet) (s : Operation C) :
    (op.exec world s).2.dials = s.dials ∧ (op.exec world s).2.asked = s.asked := by
  cases op with
  | admitDial source endpoint => exact h.elim
  | candidate endpoint ledger => exact h.elim
  | startResolving witness =>
    simp only [FetchOp.exec]
    cases s.resolved.get? witness with
    | some endpoints => exact ⟨rfl, rfl⟩
    | none => split_ifs <;> exact ⟨rfl, rfl⟩
  | updatePeers f =>
    simp only [FetchOp.exec]
    cases s.peers <;> exact ⟨rfl, rfl⟩
  | _ => exact ⟨rfl, rfl⟩

/-- A quiet step is one the discipline allows. -/
theorem dialing_quiet {op : FetchOp C} (h : op.Quiet) (s : Operation C) :
    Dialing s (op.exec world s).2 := by
  obtain ⟨hdials, hasked⟩ := exec_quiet world h s
  refine ⟨?_, fun hwithin => ⟨?_, ?_⟩⟩
  · rw [hdials]
  · rw [hdials]
    exact hwithin.charged
  · rw [hdials, hasked]
    exact hwithin.asked

/-- Admitting a dial is a step the discipline allows. -/
theorem dialing_admitDial (source : SourceClass) (endpoint : EndpointId C) (s : Operation C) :
    Dialing s ((FetchOp.admitDial source endpoint).exec world s).2 :=
  ⟨s.dials.subset_admitDial source endpoint, fun h => ⟨h.charged.admitDial source endpoint,
    fun e he => s.dials.subset_admitDial source endpoint (h.asked e he)⟩⟩

/-- Asking a dialled endpoint is a step the discipline allows. -/
theorem dialing_candidate {endpoint : EndpointId C} {s : Operation C}
    (h : endpoint ∈ s.dials.dialled) (ledger : LedgerId) :
    Dialing s ((FetchOp.candidate endpoint ledger).exec world s).2 := by
  refine ⟨Finset.Subset.refl _, fun hwithin => ⟨hwithin.charged, fun e he => ?_⟩⟩
  rcases List.mem_append.mp he with he | he
  · exact hwithin.asked e he
  · obtain rfl := List.mem_singleton.mp he
    exact h

end Steps

/-! ## Triples -/

/-- A property the other fetches keep. -/
def Endures (P : Operation C → Prop) : Prop := ∀ s t, Dialing s t → P s → P t

/-- What holds of the answer of a program that answers. -/
def Gives (Q : α → Operation C → Prop) (r : Outcome ε α) (_ : Option IdentityId)
    (s : Operation C) : Prop :=
  ∀ a, r = .ok a → Q a s

section Triples

variable {world : World C} {P : Operation C → Prop} {Q : β → Operation C → Prop}
  {R : α → Operation C → Prop} {p : OnOperation C ε α} {f : α → OnOperation C ε β}

/-- Nothing is owed of a failed fetch. -/
theorem gives_of_error {e : Fault ε} {m : Option IdentityId} {s : Operation C} :
    Gives Q (.error e) m s := by
  intro b h
  simp at h

/-- A fetch that is over gives what its state holds. -/
theorem gives_pure {a : α} (h : ∀ s, P s → R a s) :
    (dialDiscipline world).Triple (fun _ => P) (pure a : OnOperation C ε α) (Gives R) := by
  refine .pure fun _ s hs b hb => ?_
  obtain rfl := Except.ok.inj hb
  exact h s hs

theorem gives_error {e : Fault ε} :
    (dialDiscipline world).Triple (fun _ => P) (lift (.error e) : OnOperation C ε α) (Gives R) :=
  .lift fun _ _ _ => gives_of_error

/-- What the first part gives, the second starts from. -/
theorem gives_bind (h : (dialDiscipline world).Triple (fun _ => P) p (Gives R))
    (hf : ∀ a, (dialDiscipline world).Triple (fun _ => R a) (f a) (Gives Q)) :
    (dialDiscipline world).Triple (fun _ => P) (p >>= f) (Gives Q) :=
  .bind h (fun a => (hf a).mono (fun _ _ hs => hs a rfl) fun _ _ _ => id)
    fun _ _ _ _ => gives_of_error

/-- A program of quiet steps keeps what the others keep. -/
theorem triple_quiet (hP : Endures P) (h : p.Performs FetchOp.Quiet) :
    (dialDiscipline world).Triple (fun _ => P) p fun _ _ => P := by
  have hp : ∀ m, (dialDiscipline world).Meets p m P fun _ _ => P := by
    induction p with
    | done result => exact fun _ s hs => hs
    | perform op next ih =>
      intro m s hs _
      have hstep := dialing_quiet world h.1 s
      exact ⟨hstep, P, fun s t => hP s t, hP _ _ hstep hs, ih _ (h.2 _) _⟩
  exact hp

/-- A quiet first part leaves what endures to the second. -/
theorem quiet_bind (hP : Endures P) (h : p.Performs FetchOp.Quiet)
    (hf : ∀ a, (dialDiscipline world).Triple (fun _ => P) (f a) (Gives Q)) :
    (dialDiscipline world).Triple (fun _ => P) (p >>= f) (Gives Q) :=
  .bind (triple_quiet hP h) hf fun _ _ _ _ => gives_of_error

/-- What the steps of every fetch keep, a program keeps. -/
theorem triple_frame {F : Operation C → Prop} (hF : Endures F)
    {S : Outcome ε α → Operation C → Prop}
    (h : (dialDiscipline world).Triple (fun _ => P) p fun r _ => S r) :
    (dialDiscipline world).Triple (fun _ s => P s ∧ F s) p fun r _ s => S r s ∧ F s :=
  h.frame (fun _ s t => hF s t) fun _ _ s t => hF s t

/-- What endures is carried past a part that says nothing of it. -/
theorem gives_frame {F P' : Operation C → Prop} (hF : Endures F)
    (h : (dialDiscipline world).Triple (fun _ => P) p (Gives R)) (hP : ∀ s, P' s → P s ∧ F s) :
    (dialDiscipline world).Triple (fun _ => P') p (Gives fun a s => R a s ∧ F s) :=
  (triple_frame hF (S := fun r s => ∀ a, r = .ok a → R a s) h).mono (fun _ => hP)
    fun _ _ _ hs a ha => ⟨hs.1 a ha, hs.2⟩

/-- A program whose end is looked at leaves what every fetch keeps, and its answer. -/
theorem conclude_frame {F P' : Operation C → Prop} (hF : Endures F)
    (h : (dialDiscipline world).Triple (fun _ => P) p (Gives R)) (hP : ∀ s, P' s → P s ∧ F s) :
    (dialDiscipline world).Triple (fun _ => P') (p.conclude id : OnOperation C Empty _)
      (Gives fun r s => F s ∧ ∀ a, r = .ok a → R a s) := by
  have hframe := triple_frame hF (S := fun r s => ∀ a, r = .ok a → R a s) h
  refine .conclude (hframe.mono (fun _ => hP) fun r m s hs b hb => ?_)
  obtain rfl := Except.ok.inj hb
  exact ⟨hs.2, hs.1⟩

end Triples

/-! ## The queue -/

/-- A queue that no endpoint joins twice and whose endpoints are charged. -/
structure Queued (planned : List (PlannedSource C)) (s : Operation C) : Prop where
  within : Within s
  apart : (planned.map PlannedSource.endpoint).Nodup
  charged : ∀ endpoint, some endpoint ∈ planned.map PlannedSource.endpoint →
    endpoint ∈ s.dials.dialled

theorem endures_queued (planned : List (PlannedSource C)) : Endures (Queued planned) :=
  fun _ _ h hq => ⟨h.within hq.within, hq.apart, fun endpoint he => h.dialled (hq.charged endpoint he)⟩

/-- A queue is no longer than the budget and the local copy. -/
theorem Queued.length_le {planned : List (PlannedSource C)} {s : Operation C}
    (h : Queued planned s) : planned.length ≤ maxDials + 1 := by
  have hsub : (planned.map PlannedSource.endpoint).toFinset ⊆ Finset.insertNone s.dials.dialled := by
    intro o ho
    rw [List.mem_toFinset] at ho
    cases o with
    | none => exact Finset.none_mem_insertNone
    | some endpoint => exact Finset.some_mem_insertNone.mpr (h.charged endpoint ho)
  have hcard := Finset.card_le_card hsub
  rw [List.toFinset_card_of_nodup h.apart, List.length_map, Finset.card_insertNone] at hcard
  exact hcard.trans (Nat.add_le_add_right h.within.charged.total 1)

/-- A source not yet planned has an endpoint the queue does not name. -/
theorem not_mem_of_alreadyPlanned {planned : List (PlannedSource C)} {next : PlannedSource C}
    (h : alreadyPlanned planned next = false) :
    next.endpoint ∉ planned.map PlannedSource.endpoint := by
  intro hmem
  obtain ⟨asked, hasked, heq⟩ := List.mem_map.mp hmem
  rw [alreadyPlanned, List.any_eq_false] at h
  exact h asked hasked (decide_eq_true heq)

/-- A source whose endpoint is dialled as a class that is charged. -/
def PlannedSource.Dials (next : PlannedSource C) : Prop :=
  next.endpoint ≠ none → sourceClass next.source ≠ .localRead

/-- A dialled endpoint the queue does not name may be queued. -/
theorem Queued.push {planned extra : List (PlannedSource C)} {next : PlannedSource C}
    {s : Operation C} (h : Queued (planned ++ extra) s)
    (hplanned : alreadyPlanned planned next = false) (hextra : alreadyPlanned extra next = false)
    (hcharged : ∀ endpoint, next.endpoint = some endpoint → endpoint ∈ s.dials.dialled) :
    Queued (planned ++ (extra ++ [next])) s := by
  have hnew : next.endpoint ∉ (planned ++ extra).map PlannedSource.endpoint := by
    rw [List.map_append, List.mem_append]
    exact fun hmem => hmem.elim (not_mem_of_alreadyPlanned hplanned)
      (not_mem_of_alreadyPlanned hextra)
  rw [← List.append_assoc]
  refine ⟨h.within, ?_, fun endpoint he => ?_⟩
  · rw [List.map_append, List.map_singleton]
    exact List.nodup_append'.mpr ⟨h.apart, List.nodup_singleton _,
      List.disjoint_singleton.mpr hnew⟩
  · rw [List.map_append, List.mem_append, List.map_singleton, List.mem_singleton] at he
    rcases he with he | he
    · exact h.charged endpoint he
    · exact hcharged endpoint he.symm

section Queue

variable {world : World C} {callerHints : List (EndpointId C)}

/-- A source planned neither in the queue nor among those that will join it may join. -/
theorem pushAdmitted_queued {planned extra : List (PlannedSource C)} {next : PlannedSource C}
    (hplanned : alreadyPlanned planned next = false) (hdials : next.Dials) :
    (dialDiscipline world).Triple (fun _ => Queued (planned ++ extra))
      (pushAdmitted extra next : OnOperation C ε _)
      (Gives fun extra s => Queued (planned ++ extra) s) := by
  rw [pushAdmitted]
  by_cases hextra : alreadyPlanned extra next = true
  · rw [if_pos hextra]
    exact gives_pure fun _ => id
  · rw [if_neg hextra]
    rw [Bool.not_eq_true] at hextra
    cases hendpoint : next.endpoint with
    | none =>
      exact gives_pure fun s hs => hs.push hplanned hextra fun e he => by simp [hendpoint] at he
    | some endpoint =>
      -- The reply comes with the charge.
      refine .ask_bind (FetchOp.admitDial (sourceClass next.source) endpoint)
        (R := fun admitted _ s => Queued (planned ++ extra) s ∧
          (admitted = true → endpoint ∈ s.dials.dialled)) ?_ ?_ ?_
      · exact fun reply m s t h hs =>
          ⟨endures_queued _ s t h hs.1, fun hadmitted => h.dialled (hs.2 hadmitted)⟩
      · intro m s hs _
        have hstep := dialing_admitDial world (sourceClass next.source) endpoint s
        refine ⟨hstep, endures_queued _ _ _ hstep hs, fun hadmitted => ?_⟩
        exact DialBudget.mem_of_admitDial (hdials (by rw [hendpoint]; simp)) hadmitted
      · intro admitted
        cases admitted with
        | false => exact gives_pure fun s hs => hs.1
        | true =>
          refine gives_pure fun s hs => hs.1.push hplanned hextra fun e he => ?_
          rw [hendpoint, Option.some.injEq] at he
          rw [← he]
          exact hs.2 rfl

/-- Pushing dialled sources keeps the queue; the induction is on the sources left. -/
theorem pushAll_queued (rest : List (PlannedSource C)) : ∀ {planned : List (PlannedSource C)},
    (∀ next ∈ rest, next.Dials) →
    (dialDiscipline world).Triple (fun _ => Queued planned)
      (pushAll planned rest : OnOperation C ε _) (Gives Queued) := by
  induction rest with
  | nil => exact fun _ => gives_pure fun _ => id
  | cons next rest ih =>
    intro planned hdials
    have hpush : (dialDiscipline world).Triple (fun _ => Queued ([] ++ planned))
        (pushAdmitted planned next : OnOperation C ε _)
        (Gives fun planned s => Queued ([] ++ planned) s) :=
      pushAdmitted_queued rfl (hdials next List.mem_cons_self)
    exact gives_bind hpush fun planned => ih fun next hnext =>
      hdials next (List.mem_cons_of_mem _ hnext)

/-- Adding named sources keeps the queue. -/
theorem addNamed_queued {planned : List (PlannedSource C)} (rest : List (PlannedSource C)) :
    ∀ {extra : List (PlannedSource C)}, (∀ next ∈ rest, next.Dials) →
    (dialDiscipline world).Triple (fun _ => Queued (planned ++ extra))
      (addNamed planned extra rest : OnOperation C ε _)
      (Gives fun extra s => Queued (planned ++ extra) s) := by
  induction rest with
  | nil => exact fun _ => gives_pure fun _ => id
  | cons next rest ih =>
    intro extra hdials
    have hrest : ∀ extra, (dialDiscipline world).Triple (fun _ => Queued (planned ++ extra))
        (addNamed planned extra rest : OnOperation C ε _)
        (Gives fun extra s => Queued (planned ++ extra) s) :=
      fun extra => ih fun next hnext => hdials next (List.mem_cons_of_mem _ hnext)
    rw [addNamed]
    by_cases hplanned : alreadyPlanned planned next = true
    · rw [if_pos hplanned]
      exact hrest extra
    · rw [if_neg hplanned]
      rw [Bool.not_eq_true] at hplanned
      exact gives_bind (pushAdmitted_queued hplanned (hdials next List.mem_cons_self)) hrest

/-- A source made of an endpoint is dialled unless it is a local read. -/
theorem dials_ofEndpoint {kind : String → FetchSource} (endpoints : List (EndpointId C))
    (h : ∀ text, sourceClass (kind text) ≠ .localRead) :
    ∀ next ∈ endpoints.map (PlannedSource.ofEndpoint kind), next.Dials := by
  intro next hnext
  obtain ⟨endpoint, -, rfl⟩ := List.mem_map.mp hnext
  exact fun _ => h _

/-- A source made of a witness is dialled unless it is a local read. -/
theorem dials_ofWitness {kind : String → String → FetchSource} (witness : IdentityId)
    (endpoints : List (EndpointId C)) (h : ∀ name text, sourceClass (kind name text) ≠ .localRead) :
    ∀ next ∈ endpoints.map (PlannedSource.ofWitness kind witness), next.Dials := by
  intro next hnext
  obtain ⟨endpoint, -, rfl⟩ := List.mem_map.mp hnext
  exact fun _ => h _ _

theorem performs_demanded {x : Except String α} :
    (demanded x : OnOperation C String α).Performs FetchOp.Quiet := by
  cases x <;> trivial

/-- Resolving a witness is quiet. -/
theorem performs_resolveWitness (callerHints : List (EndpointId C)) (witness : IdentityId) :
    (resolveWitness callerHints witness).Performs FetchOp.Quiet := by
  refine .bind (.bind ⟨trivial, fun _ => trivial⟩ fun _ => performs_demanded) fun peers => ?_
  refine .bind ⟨trivial, fun _ => trivial⟩ fun now => ?_
  refine .bind ⟨trivial, fun _ => trivial⟩ fun copy => ?_
  exact .bind (.bind ⟨trivial, fun _ => trivial⟩ fun _ => performs_demanded) fun config => trivial

/-- Looking up a witness's endpoints is quiet. -/
theorem performs_witnessEndpoints (callerHints : List (EndpointId C)) (witness : IdentityId) :
    (witnessEndpoints callerHints witness).Performs FetchOp.Quiet := by
  refine .bind ⟨trivial, fun _ => trivial⟩ fun standing => ?_
  cases standing with
  | resolved endpoints => trivial
  | underway => trivial
  | started =>
    refine .bind (Performs.conclude (performs_resolveWitness callerHints witness) id) fun resolved => ?_
    exact .bind ⟨trivial, fun _ => trivial⟩ fun _ => trivial

/-- Planning the witnesses keeps the queue. -/
theorem planWitnesses_queued (witnesses : List IdentityId) :
    ∀ {planned : List (PlannedSource C)},
    (dialDiscipline world).Triple (fun _ => Queued planned)
      (planWitnesses callerHints planned witnesses) (Gives Queued) := by
  induction witnesses with
  | nil => exact gives_pure fun _ => id
  | cons witness rest ih =>
    intro planned
    refine quiet_bind (endures_queued planned) (performs_witnessEndpoints callerHints witness)
      fun endpoints => ?_
    exact gives_bind (pushAll_queued _ (dials_ofWitness witness endpoints (by simp [sourceClass])))
      fun planned => ih

theorem queued_nil {s : Operation C} (h : Within s) : Queued [] s :=
  ⟨h, List.nodup_nil, by simp⟩

/-- The queue of the local copy alone is in order. -/
theorem queued_localCopy {s : Operation C} (h : Within s) (held : Bool) :
    Queued (if held then [.localCopy] else []) s := by
  cases held
  · exact queued_nil h
  · exact ⟨h, List.nodup_singleton _, by simp [PlannedSource.localCopy]⟩

theorem endures_within : Endures (C := C) Within := fun _ _ h => h.within

/-- The first queue is one: the local copy, and endpoints charged once each. -/
theorem planSources_queued (ledger : LedgerId) (learned : List (EndpointId C)) :
    (dialDiscipline world).Triple (fun _ => Within) (planSources callerHints ledger learned)
      (Gives Queued) := by
  refine quiet_bind endures_within (.bind ⟨trivial, fun _ => trivial⟩ fun _ => performs_demanded)
    fun held => ?_
  have hhints : (dialDiscipline world).Triple
      (fun _ => Queued (if held then [.localCopy] else []))
      (pushAll (if held then [.localCopy] else [])
        (callerHints.map (PlannedSource.ofEndpoint .callerHint)) : OnOperation C String _)
      (Gives Queued) :=
    pushAll_queued _ (dials_ofEndpoint callerHints (by simp [sourceClass]))
  refine gives_bind (hhints.mono (fun _ s hs => queued_localCopy hs held) fun _ _ _ => id)
    fun planned => ?_
  refine quiet_bind (endures_queued planned)
    (.bind ⟨trivial, fun _ => trivial⟩ fun _ => performs_demanded) fun peers => ?_
  refine quiet_bind (endures_queued planned) ⟨trivial, fun _ => trivial⟩ fun now => ?_
  refine gives_bind (pushAll_queued _ (dials_ofEndpoint _ (by simp [sourceClass])))
    fun planned => ?_
  refine quiet_bind (endures_queued planned)
    (.bind ⟨trivial, fun _ => trivial⟩ fun _ => performs_demanded) fun config => ?_
  exact planWitnesses_queued _

/-- Adding named witnesses keeps the queue. -/
theorem addNamedWitnesses_queued {planned : List (PlannedSource C)} (witnesses : List IdentityId) :
    ∀ {extra : List (PlannedSource C)},
    (dialDiscipline world).Triple (fun _ => Queued (planned ++ extra))
      (addNamedWitnesses callerHints planned extra witnesses)
      (Gives fun extra s => Queued (planned ++ extra) s) := by
  induction witnesses with
  | nil => exact gives_pure fun _ => id
  | cons witness rest ih =>
    intro extra
    refine quiet_bind (endures_queued _) (performs_witnessEndpoints callerHints witness)
      fun endpoints => ?_
    exact gives_bind (addNamed_queued _ (dials_ofWitness witness endpoints (by simp [sourceClass])))
      fun extra => ih

/-- What a chain names may join the queue it was planned beside. -/
theorem chainNamedSources_queued (planned : List (PlannedSource C)) (summary : LedgerSummary C) :
    (dialDiscipline world).Triple (fun _ => Queued planned)
      (chainNamedSources callerHints planned summary)
      (Gives fun extra s => Queued (planned ++ extra) s) := by
  have hnamed : (dialDiscipline world).Triple (fun _ => Queued (planned ++ []))
      (addNamed planned [] (summary.endpoints.map (PlannedSource.ofEndpoint .ledgerEndpoint)) :
        OnOperation C String _) (Gives fun extra s => Queued (planned ++ extra) s) :=
    addNamed_queued _ (dials_ofEndpoint _ (by simp [sourceClass]))
  rw [List.append_nil] at hnamed
  refine gives_bind hnamed fun extra => ?_
  refine gives_bind (addNamedWitnesses_queued summary.witnessIdentities) fun extra => ?_
  exact addNamed_queued _ (dials_ofEndpoint _ (by simp [sourceClass]))

end Queue

/-! ## Asking the queue -/

/-- What the first sources of a queue answered: each was asked once, in order, and only those
asked can have failed. -/
structure Heard (planned : List (PlannedSource C)) (index : Nat) (answers : Hearings C) : Prop where
  position : index ≤ planned.length
  tried : answers.tried = (planned.take index).map PlannedSource.source
  asked : answers.asked = (planned.take index).filterMap PlannedSource.endpoint
  failed : answers.failed.Sublist answers.asked

theorem heard_none : Heard (C := C) [] 0 .none :=
  ⟨le_rfl, rfl, rfl, List.Sublist.refl _⟩

theorem Heard.fault {planned : List (PlannedSource C)} {index : Nat} {answers : Hearings C}
    (h : Heard planned index answers) (detail : String) :
    Heard planned index (answers.fault detail) := ⟨h.position, h.tried, h.asked, h.failed⟩

/-- What was heard of a queue was heard of a longer one. -/
theorem Heard.append {planned : List (PlannedSource C)} {index : Nat} {answers : Hearings C}
    (h : Heard planned index answers) (named : List (PlannedSource C)) :
    Heard (planned ++ named) index answers := by
  have htake : (planned ++ named).take index = planned.take index :=
    List.take_append_of_le_length h.position
  refine ⟨?_, ?_, ?_, h.failed⟩
  · rw [List.length_append]
    exact h.position.trans (Nat.le_add_right _ _)
  · rw [htake]
    exact h.tried
  · rw [htake]
    exact h.asked

theorem hear_asked (answers : Hearings C) (next : PlannedSource C) (served : Served C) :
    (answers.hear next served).asked = answers.asked ++ next.endpoint.toList := by
  cases served <;> rfl

theorem hear_tried (answers : Hearings C) (next : PlannedSource C) (served : Served C) :
    (answers.hear next served).tried = answers.tried ++ [next.source] := by
  cases served <;> rfl

/-- The sources that failed were asked. -/
theorem hear_failed {answers : Hearings C} (h : answers.failed.Sublist answers.asked)
    (next : PlannedSource C) (served : Served C) :
    (answers.hear next served).failed.Sublist (answers.hear next served).asked := by
  rw [hear_asked]
  cases served with
  | nothing => exact h.append (List.Sublist.refl _)
  | chain loaded => exact h.trans (List.sublist_append_left _ _)
  | unverified detail => exact h.trans (List.sublist_append_left _ _)

/-- Hearing the next source of the queue. -/
theorem Heard.hear {planned : List (PlannedSource C)} {index : Nat} {answers : Hearings C}
    (h : Heard planned index answers) {next : PlannedSource C} (hnext : planned[index]? = some next)
    (served : Served C) : Heard planned (index + 1) (answers.hear next served) := by
  have htake : planned.take (index + 1) = planned.take index ++ [next] := by
    rw [List.take_add_one, hnext, Option.toList_some]
  refine ⟨(List.getElem?_eq_some_iff.mp hnext).1, ?_, ?_, hear_failed h.failed next served⟩
  · rw [hear_tried, htake, List.map_append, h.tried, List.map_singleton]
  · rw [hear_asked, htake, List.filterMap_append, h.asked]
    cases hendpoint : next.endpoint <;> simp [hendpoint]

/-- No endpoint of a queue in order is asked twice. -/
theorem Heard.nodup {planned : List (PlannedSource C)} {index : Nat} {answers : Hearings C}
    {s : Operation C} (h : Heard planned index answers) (hqueued : Queued planned s) :
    answers.asked.Nodup := by
  have hasked : answers.asked =
      ((planned.take index).map PlannedSource.endpoint).filterMap id := by
    rw [h.asked, List.filterMap_map]
    rfl
  have hapart : ((planned.take index).map PlannedSource.endpoint).Nodup :=
    hqueued.apart.sublist ((List.take_sublist index planned).map PlannedSource.endpoint)
  rw [hasked]
  exact hapart.filterMap fun o o' e ho ho' => ho.trans ho'.symm

section Asking

variable {world : World C} {callerHints : List (EndpointId C)} {ledger : LedgerId}

/-- A source of the queue may be asked. -/
theorem read_queued {planned : List (PlannedSource C)} {next : PlannedSource C}
    (hmem : next ∈ planned) :
    (dialDiscipline world).Triple (fun _ => Queued planned)
      (read ledger next : OnOperation C ε _) (Gives fun _ => Queued planned) := by
  rw [read]
  cases hendpoint : next.endpoint with
  | none =>
    exact quiet_bind (endures_queued planned) ⟨trivial, fun _ => trivial⟩ fun copy =>
      gives_pure fun _ => id
  | some endpoint =>
    refine .ask (FetchOp.candidate endpoint ledger) ?_ ?_
    · exact fun served m s t h hs a ha => endures_queued planned s t h (hs a ha)
    · intro m s hs _
      have hstep := dialing_candidate world
        (hs.charged endpoint (List.mem_map.mpr ⟨next, hmem, hendpoint⟩)) ledger
      exact ⟨hstep, fun a _ => endures_queued planned _ _ hstep hs⟩

/-- A copy adds to the end of the queue. -/
theorem follow_queued {planned : List (PlannedSource C)} {index : Nat} {answers : Hearings C}
    (h : Heard planned index answers) (served : Served C) :
    (dialDiscipline world).Triple (fun _ => Queued planned)
      (follow callerHints planned answers served)
      (Gives fun r s => Queued r.1 s ∧ Heard r.1 index r.2) := by
  cases served with
  | nothing => exact gives_pure fun _ hs => ⟨hs, h⟩
  | unverified detail => exact gives_pure fun _ hs => ⟨hs, h⟩
  | chain loaded =>
    refine gives_bind (conclude_frame (endures_queued planned) (chainNamedSources_queued planned _)
      fun s hs => ⟨hs, hs⟩) fun r => ?_
    rcases r with (detail | site) | named
    · exact gives_pure fun s hs => ⟨hs.1, h.fault detail⟩
    · exact gives_error
    · exact gives_pure fun s hs => ⟨hs.2 named rfl, h.append named⟩

/-- The loop ends with rounds to spare: the queue it walks does not outgrow the budget. -/
theorem gatherFrom_queued (rounds : Nat) : ∀ {planned : List (PlannedSource C)} {index : Nat}
    {answers : Hearings C}, Heard planned index answers → maxDials + 1 < rounds + index →
    (dialDiscipline world).Triple (fun _ => Queued planned)
      (gatherFrom callerHints ledger rounds planned index answers)
      (Gives fun r s => ∃ planned answers index, r = some (planned, answers) ∧
        Queued planned s ∧ Heard planned index answers) := by
  induction rounds with
  | zero =>
    intro planned index answers h hrounds
    refine gives_pure fun s hs => ?_
    have hlength := hs.length_le
    have hposition := h.position
    omega
  | succ rounds ih =>
    intro planned index answers h hrounds
    rw [gatherFrom]
    cases hnext : planned[index]? with
    | none => exact gives_pure fun s hs => ⟨planned, answers, index, rfl, hs, h⟩
    | some next =>
      refine quiet_bind (endures_queued planned) ⟨trivial, fun _ => trivial⟩ fun expired => ?_
      cases expired with
      | true => exact gives_pure fun s hs => ⟨planned, answers, index, rfl, hs, h⟩
      | false =>
        refine gives_bind (read_queued (List.mem_of_getElem? hnext)) fun served => ?_
        refine gives_bind (follow_queued (h.hear hnext served) served) fun r => ?_
        -- What joined the queue came after the position, so the loop goes on from the next.
        refine .assume (fun _ s hs => hs.2) fun hheard => ?_
        exact (ih hheard (by omega)).mono (fun _ _ hs => hs.1) fun _ _ _ => id

end Asking

/-! ## Asking the zone -/

/-- The endpoints a zone names that were let through, each charged. -/
def Zoned (named : List (EndpointId C)) (planned : List (PlannedSource C)) (s : Operation C) :
    Prop :=
  Within s ∧ ∃ late : List (EndpointId C), late.Sublist named ∧
    planned.map PlannedSource.endpoint = late.map some ∧ ∀ e ∈ late, e ∈ s.dials.dialled

theorem zoned_nil {s : Operation C} (h : Within s) (named : List (EndpointId C)) :
    Zoned named [] s := ⟨h, [], List.nil_sublist _, rfl, by simp⟩

/-- What the zone answered on top of the queue: its sources were asked once each, and only where no
endpoint of the queue had served a copy. -/
structure Added (gathered answers : Hearings C) (late : List (EndpointId C)) : Prop where
  asked : answers.asked = gathered.asked ++ late
  apart : late.Nodup
  unserved : late ≠ [] → ∀ copy ∈ gathered.candidates, endpointOf copy.1 = none
  failed : answers.failed.Sublist answers.asked

theorem added_nil {gathered : Hearings C} (h : gathered.failed.Sublist gathered.asked) :
    Added gathered gathered [] := ⟨by simp, List.nodup_nil, by simp, h⟩

section Zone

variable {world : World C} {ledger : LedgerId}

/-- Admitting the zone's endpoints keeps to the zone and the budget. -/
theorem admittedDns_zoned (hostname : String) (named : List (EndpointId C)) :
    (dialDiscipline world).Triple (fun _ => Within)
      (admittedDns hostname named : OnOperation C ε _) (Gives (Zoned named)) := by
  induction named with
  | nil => exact gives_pure fun s hs => zoned_nil hs []
  | cons endpoint rest ih =>
    have hcharged : ∀ admitted : Bool, Endures fun s : Operation C =>
        Within s ∧ (admitted = true → endpoint ∈ s.dials.dialled) :=
      fun admitted s t h hs => ⟨h.within hs.1, fun hadmitted => h.dialled (hs.2 hadmitted)⟩
    refine .ask_bind (FetchOp.admitDial .dns endpoint)
      (R := fun admitted _ s => Within s ∧ (admitted = true → endpoint ∈ s.dials.dialled))
      ?_ ?_ fun admitted => ?_
    · exact fun admitted _ => hcharged admitted
    · intro m s hs _
      have hstep := dialing_admitDial world .dns endpoint s
      exact ⟨hstep, hstep.within hs, DialBudget.mem_of_admitDial (by simp)⟩
    · refine gives_bind (gives_frame (hcharged admitted) ih fun s hs => ⟨hs.1, hs⟩)
        fun planned => ?_
      refine gives_pure fun s hs => ?_
      obtain ⟨⟨hwithin, late, hsub, hplanned, hdialled⟩, -, hadmitted⟩ := hs
      cases admitted with
      | false => exact ⟨hwithin, late, hsub.cons _, hplanned, hdialled⟩
      | true =>
        refine ⟨hwithin, endpoint :: late, hsub.cons_cons _, ?_, ?_⟩
        · rw [if_pos rfl, List.map_cons, List.map_cons, hplanned]
          rfl
        · exact fun e he => (List.mem_cons.mp he).elim (fun h => h ▸ hadmitted rfl) (hdialled e)

/-- Reading a ledger's hostname performs these steps only. -/
theorem performs_claimedHostname {S : FetchOp C → Prop} (hload : S (.load ledger))
    (hname : S (.generationHostname ledger)) :
    (claimedHostname ledger : OnOperation C ε _).Performs S := by
  refine .bind ⟨hload, fun _ => trivial⟩ fun copy => ?_
  split
  · trivial
  · exact ⟨hname, fun _ => trivial⟩

/-- The endpoints of a claim are distinct. -/
theorem nodup_endpointsForClaim (records : List TxtRecord) (identity : IdentityId) :
    (endpointsForClaim C records identity).Nodup := by
  rw [endpointsForClaim]
  split_ifs
  · obtain ⟨-, -, hsorted, -⟩ := endpointsAtLabel_spec (C := C) records
    exact hsorted.imp fun hlt heq => absurd (congrArg (fun e => renderId e.raw) heq) hlt.ne
  · exact List.nodup_nil

/-- The sources found by name keep to the zone and the budget. -/
theorem dnsSources_zoned (hasResolver : Bool) :
    (dialDiscipline world).Triple (fun _ => Within)
      (dnsSources hasResolver ledger : OnOperation C ε _)
      (Gives fun planned s => ∃ named, named.Nodup ∧ Zoned named planned s) := by
  have hnone : (dialDiscipline world).Triple (fun _ => Within)
      (pure [] : OnOperation C ε (List (PlannedSource C)))
      (Gives fun planned s => ∃ named, named.Nodup ∧ Zoned named planned s) :=
    gives_pure fun s hs => ⟨[], List.nodup_nil, zoned_nil hs []⟩
  rw [dnsSources]
  cases hasResolver with
  | false => exact hnone
  | true =>
    refine quiet_bind endures_within (performs_claimedHostname trivial trivial) fun hostname => ?_
    cases hostname with
    | none => exact hnone
    | some hostname =>
      refine quiet_bind endures_within ⟨trivial, fun _ => trivial⟩ fun records => ?_
      cases records with
      | none => exact hnone
      | some records =>
        exact (admittedDns_zoned hostname _).mono (fun _ _ => id)
          fun r m s hs planned hplanned =>
            ⟨_, nodup_endpointsForClaim records ledger, hs planned hplanned⟩

/-- The sources of a zone are asked one after another, as far as the deadline lets them. -/
theorem askAll_zoned (planned : List (PlannedSource C)) :
    ∀ {answers : Hearings C} {late : List (EndpointId C)},
    planned.map PlannedSource.endpoint = late.map some → answers.failed.Sublist answers.asked →
    (dialDiscipline world).Triple (fun _ s => Within s ∧ ∀ e ∈ late, e ∈ s.dials.dialled)
      (askAll ledger answers planned : OnOperation C ε _)
      (Gives fun r s => Within s ∧ r.failed.Sublist r.asked ∧
        ∃ asked, asked.Sublist late ∧ r.asked = answers.asked ++ asked) := by
  have hendures : ∀ late : List (EndpointId C), Endures fun s : Operation C =>
      Within s ∧ ∀ e ∈ late, e ∈ s.dials.dialled :=
    fun late s t h hs => ⟨h.within hs.1, fun e he => h.dialled (hs.2 e he)⟩
  induction planned with
  | nil =>
    intro answers late _ hfailed
    exact gives_pure fun s hs => ⟨hs.1, hfailed, [], List.nil_sublist _, by simp⟩
  | cons next planned ih =>
    intro answers late hplanned hfailed
    obtain ⟨endpoint, late, rfl⟩ : ∃ endpoint rest, late = endpoint :: rest := by
      cases late with
      | nil => simp at hplanned
      | cons endpoint rest => exact ⟨endpoint, rest, rfl⟩
    rw [List.map_cons, List.map_cons, List.cons.injEq] at hplanned
    refine quiet_bind (hendures _) ⟨trivial, fun _ => trivial⟩ fun expired => ?_
    cases expired with
    | true =>
      exact gives_pure fun s hs => ⟨hs.1, hfailed, [], List.nil_sublist _, by simp⟩
    | false =>
      refine gives_bind (R := fun _ s => Within s ∧ ∀ e ∈ late, e ∈ s.dials.dialled) ?_
        fun served => ?_
      · rw [read, hplanned.1]
        refine .ask (FetchOp.candidate endpoint ledger) ?_ ?_
        · exact fun served m s t h hs a ha => hendures late s t h (hs a ha)
        · intro m s hs _
          have hstep := dialing_candidate world (hs.2 endpoint List.mem_cons_self) ledger
          exact ⟨hstep, fun a _ => hendures late _ _ hstep
            ⟨hs.1, fun e he => hs.2 e (List.mem_cons_of_mem _ he)⟩⟩
      · refine (ih hplanned.2 (hear_failed hfailed next served)).mono (fun _ _ => id)
          fun r m s hs a ha => ?_
        obtain ⟨hwithin, hfailed, asked, hsub, hasked⟩ := hs a ha
        refine ⟨hwithin, hfailed, endpoint :: asked, hsub.cons_cons _, ?_⟩
        rw [hasked, hear_asked, hplanned.1, Option.toList_some, List.append_assoc]
        rfl

/-- Asking by name adds to what was gathered. -/
theorem askDns_added (hasResolver : Bool) {gathered : Hearings C}
    (hfailed : gathered.failed.Sublist gathered.asked) :
    (dialDiscipline world).Triple (fun _ => Within)
      (askDns hasResolver ledger gathered : OnOperation C ε _)
      (Gives fun answers s => Within s ∧ ∃ late, Added gathered answers late) := by
  have hnone : (dialDiscipline world).Triple (fun _ => Within)
      (pure gathered : OnOperation C ε (Hearings C))
      (Gives fun answers s => Within s ∧ ∃ late, Added gathered answers late) :=
    gives_pure fun s hs => ⟨hs, [], added_nil hfailed⟩
  rw [askDns]
  by_cases hreached : (gathered.candidates.any fun copy => (endpointOf copy.1).isSome) = true
  · rw [if_pos hreached]
    exact hnone
  · rw [if_neg hreached]
    refine quiet_bind endures_within ⟨trivial, fun _ => trivial⟩ fun expired => ?_
    cases expired with
    | true => exact hnone
    | false =>
      refine gives_bind (dnsSources_zoned hasResolver) fun planned => ?_
      refine .mono (P := fun _ s => ∃ named : { named : List (EndpointId C) // named.Nodup },
        Zoned named.1 planned s) (.choose fun named => ?_)
        (fun _ s hs => ?_) fun _ _ _ => id
      · refine .mono (P := fun _ s => ∃ late : { late : List (EndpointId C) // late.Sublist named.1 ∧
          planned.map PlannedSource.endpoint = late.map some },
          Within s ∧ ∀ e ∈ late.1, e ∈ s.dials.dialled) (.choose fun late => ?_)
          (fun _ s hs => ?_) fun _ _ _ => id
        · refine (askAll_zoned planned late.2.2 hfailed).mono (fun _ _ => id)
            fun r m s hs answers hanswers => ?_
          obtain ⟨hwithin, hfailed, asked, hsub, hasked⟩ := hs answers hanswers
          refine ⟨hwithin, asked, hasked, ?_, fun _ copy hcopy => ?_, hfailed⟩
          · exact named.2.sublist (hsub.trans late.2.1)
          · rw [Bool.not_eq_true, List.any_eq_false] at hreached
            simpa using hreached copy hcopy
        · obtain ⟨hwithin, late, hsub, hplanned, hdialled⟩ := hs
          exact ⟨⟨late, hsub, hplanned⟩, hwithin, hdialled⟩
      · obtain ⟨named, hnodup, hzoned⟩ := hs
        exact ⟨⟨named, hnodup⟩, hzoned⟩

end Zone

/-! ## A fetch -/

/-- What a fetch that ended did: its queue, what the queue answered and what the zone added. -/
structure Fetched (r : FetchRun C) (s : Operation C) : Prop where
  queued : Queued r.planned s
  heard : ∃ index, Heard r.planned index r.gathered
  added : ∃ late, Added r.gathered r.answers late
  tried : r.outcome.sourcesTried = r.answers.tried

theorem endures_fetched (r : FetchRun C) : Endures (Fetched r) :=
  fun s t h hr => ⟨endures_queued _ s t h hr.queued, hr.heard, hr.added, hr.tried⟩

/-- The decision reports the sources that were tried. -/
theorem sourcesTried_decide (now : Nat) (ledger : LedgerId) (tried : List FetchSource)
    (candidates : List (Copy C)) (invalid : Option String) :
    (FetchOutcome.decide now ledger tried candidates invalid).sourcesTried = tried := by
  cases candidates with
  | nil =>
    rw [FetchOutcome.decide.eq_def]
    cases invalid <;> rfl
  | cons first rest =>
    rw [FetchOutcome.decide.eq_def]
    dsimp only
    obtain ⟨kept, _ | equivocation⟩ := compareCopies first first none rest <;> rfl

section Fetches

variable {world : World C} {callerHints : List (EndpointId C)} {ledger : LedgerId}

/-- A fetch ends with every source accounted for. -/
theorem fetch_fetched (hasResolver : Bool) (rounds : Nat) (learned : List (EndpointId C)) :
    (dialDiscipline world).Triple (fun _ => Within)
      (fetch callerHints hasResolver (maxDials + 2 + rounds) ledger learned)
      (Gives fun r s => ∃ run, r = some run ∧ Fetched run s) := by
  rw [fetch]
  refine gives_bind (conclude_frame endures_within (planSources_queued ledger learned)
    fun s hs => ⟨hs, hs⟩) fun r => ?_
  rcases r with (detail | site) | planned
  · refine .mono (P := fun _ => Within) (quiet_bind endures_within ⟨trivial, fun _ => trivial⟩
      fun now => ?_) (fun _ _ hs => hs.1) fun _ _ _ => id
    exact gives_pure fun s hs => ⟨_, rfl, queued_nil hs, ⟨0, heard_none⟩,
      ⟨[], added_nil (List.Sublist.refl _)⟩, rfl⟩
  · exact gives_error
  · refine gives_bind (R := fun r s => ∃ planned answers index, r = some (planned, answers) ∧
      Queued planned s ∧ Heard planned index answers) ?_ fun r => ?_
    · refine (gatherFrom_queued (maxDials + 2 + rounds)
        ⟨Nat.zero_le _, rfl, rfl, List.Sublist.refl _⟩ (by omega)).mono (fun _ s hs => hs.2 planned rfl)
        fun _ _ _ => id
    cases r with
    | none => exact .assume (φ := False) (by simp) False.elim
    | some r =>
      obtain ⟨planned, gathered⟩ := r
      refine .assume (φ := ∃ index, Heard planned index gathered) ?_ fun hheard => ?_
      · rintro m s ⟨_, _, index, heq, -, hheard⟩
        obtain ⟨rfl, rfl⟩ := Prod.mk.inj (Option.some.inj heq)
        exact ⟨index, hheard⟩
      refine gives_bind (gives_frame (endures_queued planned)
        (askDns_added hasResolver hheard.choose_spec.failed) ?_) fun answers => ?_
      · rintro s ⟨_, _, _, heq, hqueued, -⟩
        obtain ⟨rfl, rfl⟩ := Prod.mk.inj (Option.some.inj heq)
        exact ⟨hqueued.within, hqueued⟩
      have hendures : Endures fun s => (Within s ∧ ∃ late, Added gathered answers late) ∧
          Queued planned s :=
        fun s t h hs => ⟨⟨h.within hs.1.1, hs.1.2⟩, endures_queued planned s t h hs.2⟩
      refine quiet_bind hendures ⟨trivial, fun _ => trivial⟩ fun now => ?_
      refine quiet_bind hendures ⟨trivial, fun _ => trivial⟩ fun _ => ?_
      exact gives_pure fun s hs =>
        ⟨_, rfl, hs.2, hheard, hs.1.2, sourcesTried_decide _ _ _ _ _⟩

end Fetches

/-! ## Every schedule -/

/-- The fetches of one operation, before their first step. -/
def fetching (peers : Except String (Peers C)) (callerHints : List (EndpointId C))
    (hasResolver : Bool) (rounds : Nat) (reads : List (LedgerId × List (EndpointId C))) :
    Pool (FetchOp C) FetchOp.Reply (Operation C) (Option IdentityId) (Option (FetchRun C)) where
  state := .start peers
  threads := reads.map fun next => ⟨fetch callerHints hasResolver rounds next.1 next.2, none⟩

theorem within_start (peers : Except String (Peers C)) : Within (.start peers) :=
  ⟨DialBudget.charged_new, by simp [Operation.start]⟩

/-- The fetches of every schedule keep apart what they dial. -/
theorem along_apart (world : World C) (schedule : List Nat) :
    ∀ pool : Pool (FetchOp C) FetchOp.Reply (Operation C) (Option IdentityId) (Option (FetchRun C)),
    Pool.Along (operationSharing world) (Pool.Apart (operationSharing world)
      (dialDiscipline world).apart) pool schedule := by
  induction schedule with
  | nil => exact fun _ => trivial
  | cons i schedule ih =>
    refine fun pool => ⟨?_, ih _⟩
    rw [Pool.Apart]
    split
    · exact fun _ _ _ => trivial
    · trivial

/-- Along every schedule of fetches the budget is in order and what ended is accounted for. -/
theorem kept_fetching (world : World C) (peers : Except String (Peers C))
    (callerHints : List (EndpointId C)) (hasResolver : Bool) (rounds : Nat)
    (reads : List (LedgerId × List (EndpointId C))) (schedule : List Nat) :
    (dialDiscipline world).Kept (fun r s => ∃ run, r = some run ∧ Fetched run s)
      ((fetching peers callerHints hasResolver (maxDials + 2 + rounds) reads).run
        (operationSharing world) schedule) := by
  have hstart : (dialDiscipline world).Kept (fun r s => ∃ run, r = some run ∧ Fetched run s)
      (fetching peers callerHints hasResolver (maxDials + 2 + rounds) reads) := by
    refine ⟨within_start peers, fun thread hthread => ?_⟩
    obtain ⟨next, -, rfl⟩ := List.mem_map.mp hthread
    refine ⟨Within, endures_within, within_start peers, ?_⟩
    exact (fetch_fetched hasResolver rounds next.2 none).mono (fun _ => id)
      fun r m s hr => ⟨Dialing.refl s, hr⟩
  refine (hstart.run (fun answer s t h hr => ?_) Dialing.refl (fun _ _ _ => Dialing.trans)
    (fun _ _ _ _ => id) schedule (along_apart world schedule _)).1
  obtain ⟨run, rfl, hfetched⟩ := hr
  exact ⟨run, rfl, endures_fetched run s t h hfetched⟩

/-- Whatever the sources answer and however the fetches of one operation fall between one another,
together they ask at most sixteen distinct endpoints, no class goes over its cap, the slots kept
for configured witnesses stay theirs, and every fetch that ends has walked a queue of at most
sixteen endpoints and the local copy to its end or to the deadline. -/
theorem fetches_share_one_budget (world : World C) (peers : Except String (Peers C))
    (callerHints : List (EndpointId C)) (hasResolver : Bool) (rounds : Nat)
    (reads : List (LedgerId × List (EndpointId C))) (schedule : List Nat) :
    let pool := (fetching peers callerHints hasResolver (maxDials + 2 + rounds) reads).run
      (operationSharing world) schedule
    pool.state.asked.toFinset.card ≤ maxDials ∧
    (∀ source, source ≠ .localRead → pool.state.dials.spent source ≤ source.cap) ∧
    (pool.state.dials.spent .nodeWitness < 4 → ∀ endpoint,
      (pool.state.dials.admitDial .nodeWitness endpoint).1 = true) ∧
    ∀ thread ∈ pool.threads, ∀ answer, thread.answer? = some answer →
      ∃ run, answer = some run ∧ run.planned.length ≤ maxDials + 1 := by
  intro pool
  have hkept := kept_fetching world peers callerHints hasResolver rounds reads schedule
  have hwithin : Within pool.state := hkept.invariant
  refine ⟨?_, hwithin.charged.caps, fun hleft endpoint =>
    hwithin.charged.admitDial_nodeWitness hleft endpoint, fun thread hthread answer hdone => ?_⟩
  · refine (Finset.card_le_card fun endpoint he => ?_).trans hwithin.charged.total
    exact hwithin.asked endpoint (List.mem_toFinset.mp he)
  · obtain ⟨run, rfl, hfetched⟩ := (hkept.keeps thread hthread).answer
      (Thread.program_of_answer? hdone)
    exact ⟨run, rfl, hfetched.queued.length_le⟩

/-- In every fetch that ends the sources of the queue were tried in its order, no endpoint of it
twice; the zone was asked only where no endpoint of the queue had served a copy, each of its
endpoints once; and no endpoint failed more often than it was asked, which is at most twice and
only once unless the zone named it again. -/
theorem fetches_ask_in_order (world : World C) (peers : Except String (Peers C))
    (callerHints : List (EndpointId C)) (hasResolver : Bool) (rounds : Nat)
    (reads : List (LedgerId × List (EndpointId C))) (schedule : List Nat) :
    let pool := (fetching peers callerHints hasResolver (maxDials + 2 + rounds) reads).run
      (operationSharing world) schedule
    ∀ thread ∈ pool.threads, ∀ run, thread.answer? = some (some run) →
      run.outcome.sourcesTried = run.answers.tried ∧
      (∃ index, run.gathered.tried = (run.planned.take index).map PlannedSource.source) ∧
      run.gathered.asked.Nodup ∧
      ∃ late, run.answers.asked = run.gathered.asked ++ late ∧ late.Nodup ∧
        (late ≠ [] → ∀ copy ∈ run.gathered.candidates, endpointOf copy.1 = none) ∧
        ∀ endpoint, run.answers.failed.count endpoint ≤ run.answers.asked.count endpoint ∧
          run.answers.asked.count endpoint ≤ 2 ∧
          (endpoint ∉ run.gathered.asked ∨ endpoint ∉ late →
            run.answers.asked.count endpoint ≤ 1) := by
  intro pool thread hthread run hdone
  have hkept := kept_fetching world peers callerHints hasResolver rounds reads schedule
  obtain ⟨run', heq, hfetched⟩ := (hkept.keeps thread hthread).answer
      (Thread.program_of_answer? hdone)
  obtain rfl := Option.some.inj heq
  obtain ⟨index, hheard⟩ := hfetched.heard
  obtain ⟨late, hadded⟩ := hfetched.added
  have hnodup := hheard.nodup hfetched.queued
  refine ⟨hfetched.tried, ⟨index, hheard.tried⟩, hnodup, late, hadded.asked, hadded.apart,
    hadded.unserved, fun endpoint => ⟨hadded.failed.count_le endpoint, ?_, fun honce => ?_⟩⟩
  · rw [hadded.asked, List.count_append]
    have hfirst := List.nodup_iff_count_le_one.mp hnodup endpoint
    have hlate := List.nodup_iff_count_le_one.mp hadded.apart endpoint
    omega
  · rw [hadded.asked, List.count_append]
    have hfirst := List.nodup_iff_count_le_one.mp hnodup endpoint
    have hlate := List.nodup_iff_count_le_one.mp hadded.apart endpoint
    rcases honce with hout | hout
    · rw [List.count_eq_zero_of_not_mem hout]
      omega
    · rw [List.count_eq_zero_of_not_mem hout]
      omega

/-- The ledger of the sample events. -/
def servedLedger : LedgerId :=
  (Mabel.eventIdOf Crypto.sample (sampleLedger.headD [])).toIdentity

/-- A copy of the first events of the sample ledger. -/
def servedCopy (count : Nat) : LoadedLedger Crypto.sample :=
  match (LoadedLedger.fold servedLedger (sampleLedger.take count) : Outcome Empty _) with
  | .ok loaded => loaded
  | .error _ => .start servedLedger []

/-- A world that holds the inception of the sample ledger, and in which every endpoint serves its
first two events and no other ledger. -/
def servingWorld : World Crypto.sample where
  expired _ := false
  now _ := 0
  holds _ ledger := .ok (decide (ledger = servedLedger))
  load _ _ := .ok (servedCopy 1)
  config _ := .ok []
  generationHostname _ _ := none
  lookupTxt _ _ := none
  candidate _ _ ledger := if ledger = servedLedger then .chain (servedCopy 2) else .nothing
  keeps _ := true

/-- Two fetches of one operation take turns: one reads the sample ledger and one a ledger that
nobody holds. -/
def servingPool : Pool (FetchOp Crypto.sample) FetchOp.Reply (Operation Crypto.sample)
    (Option IdentityId) (Option (FetchRun Crypto.sample)) :=
  (fetching (.ok ⟨.empty⟩) [(SecretKey.sample 2).publicKey] false (maxDials + 2 + 0)
    [(servedLedger, []), (⟨Block.zero _⟩, [])]).run (operationSharing servingWorld)
    (List.replicate 20 [0, 1]).flatten

/-- One of two fetches is served by the local copy and by the endpoint the caller named, which
fails the other. -/
theorem fetches_ask_in_order_servingWorld : ∃ served silent : FetchRun Crypto.sample,
    servingPool.threads.map Thread.answer? = [some (some served), some (some silent)] ∧
    served.gathered.candidates.length = 2 ∧ served.answers.failed = [] ∧
    silent.answers.failed = [(SecretKey.sample 2).publicKey] ∧
    ∀ run ∈ [served, silent], run.outcome.sourcesTried = run.answers.tried ∧
      run.gathered.asked.Nodup ∧ ∀ endpoint, run.answers.asked.count endpoint ≤ 2 := by
  have hruns : servingPool.threads.map (fun thread => thread.answer?.map (Option.map
      fun run => (run.gathered.candidates.length, run.answers.failed))) =
      [some (some (2, [])), some (some (0, [(SecretKey.sample 2).publicKey]))] := by
    decide +kernel
  obtain ⟨first, rest, hfirst, hserved, hrest⟩ := List.map_eq_cons_iff.mp hruns
  obtain ⟨second, last, rfl, hsilent, hlast⟩ := List.map_eq_cons_iff.mp hrest
  obtain rfl := List.map_eq_nil_iff.mp hlast
  obtain ⟨answer, hanswer, hsome⟩ := Option.map_eq_some_iff.mp hserved
  obtain ⟨served, rfl, hcounts⟩ := Option.map_eq_some_iff.mp hsome
  obtain ⟨answer', hanswer', hsome'⟩ := Option.map_eq_some_iff.mp hsilent
  obtain ⟨silent, rfl, hcounts'⟩ := Option.map_eq_some_iff.mp hsome'
  have hordered : ∀ thread ∈ servingPool.threads, ∀ run, thread.answer? = some (some run) →
      run.outcome.sourcesTried = run.answers.tried ∧
      run.gathered.asked.Nodup ∧ ∀ endpoint, run.answers.asked.count endpoint ≤ 2 := by
    intro thread hthread run hdone
    obtain ⟨htried, -, hnodup, late, -, -, -, hcount⟩ := fetches_ask_in_order servingWorld
      (.ok ⟨.empty⟩) [(SecretKey.sample 2).publicKey] false 0 _ _ thread hthread run hdone
    exact ⟨htried, hnodup, fun endpoint => (hcount endpoint).2.1⟩
  refine ⟨served, silent, ?_, congrArg Prod.fst hcounts, congrArg Prod.snd hcounts,
    congrArg Prod.snd hcounts', fun run hrun => ?_⟩
  · rw [hfirst, List.map_cons, List.map_singleton, hanswer, hanswer']
  · rcases List.mem_pair.mp hrun with rfl | rfl
    · exact hordered first (by simp [hfirst]) run hanswer
    · exact hordered second (by simp [hfirst]) run hanswer'

end Mabel.Graph
