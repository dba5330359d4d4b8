import Mabel.Node.Correctness.Peers
import Mabel.Node.Correctness.Replicas
import Mabel.Node.Loaded
import Mabel.Node.SyncPush

/-!
# What a push learns about the endpoints it pushed to

After a push that stored something each witness identity of the ledger is observed at most once, from
a chain of its own that somebody served and that verified from nothing. The labels of the report say
what the records say in the end, and no record binds an endpoint on its own word.
-/

namespace Mabel.Node

open Wire Proto Net Machine Program LedgerState

variable {C : Crypto} {σ : Type}

/-- The latest witness set names no identity twice. -/
theorem nodup_witnessIdentities {log : List Bytes} {state : LedgerState C}
    (h : FoldRun log state) : (witnessIdentities state).Nodup := by
  refine h.invariant (P := fun u => (witnessIdentities u).Nodup) List.nodup_nil
    fun u event u' hu haccept => ?_
  obtain ⟨st⟩ := apply_iff.mp haccept
  obtain ⟨mid, hchange, hmid⟩ := st.change
  have hset : u'.witnessSet = mid.witnessSet := (congrArg LedgerState.witnessSet hmid).trans rfl
  have hvalid := st.opened.payloadValid
  rw [witnessIdentities, hset]
  generalize st.payload = payload at hchange hvalid
  cases hchange with
  | @witnessSet w witnesses sp hids hsp =>
    have hdistinct : w.witnesses.Nodup := IdsOk.distinct hvalid
    have hnames : w.witnesses = witnesses.map IdentityId.toVec :=
      List.forall₂_eq_eq_eq ▸ List.forall₂_map_right_iff.mpr hids
    rw [hnames] at hdistinct
    exact hdistinct.of_map
  | _ => exact hu

/-! ## Programs inside a push -/

section Programs

variable {world : PushWorld C σ} {α ε : Type}

/-- A call over a connection works on the network alone. -/
theorem run_onPeer (peer : EndpointId C) (call : Call α) (s : PushState C σ) :
    run (PushOp.exec world) (onPeer peer call) s =
      ((run (world.peer peer) call s.net).1,
        { s with net := (run (world.peer peer) call s.net).2 }) := by
  induction call generalizing s with
  | done result => rfl
  | perform frame next ih => exact ih _ _

/-- Code of the home runs on the home. -/
theorem run_onHome (p : OnNode C ε α) (s : PushState C σ) :
    run (PushOp.exec world) (onHome p) s =
      ((run StoreOp.exec p s.home).1, { s with home := (run StoreOp.exec p s.home).2 }) := by
  induction p generalizing s with
  | done result => rfl
  | perform op next ih => exact ih _ _

/-- A call is taken as it ends. -/
theorem run_calling (peer : EndpointId C) (call : Call α) (s : PushState C σ) :
    run (PushOp.exec world) (calling peer call) s =
      (settled (run (world.peer peer) call s.net).1,
        { s with net := (run (world.peer peer) call s.net).2 }) := by
  have hconclude : run (PushOp.exec world) ((onPeer peer call).conclude id :
      OnPush C (Outcome Stop α)) s = _ := run_conclude _ _ _
  rw [calling, run_bind_of_ok hconclude, run_lift, run_onPeer]
  rfl

theorem settled_eq_ok {x : Outcome Stop α} {a : α} :
    (settled x : Outcome (PushError C) _) = .ok (.ok a) ↔ x = .ok a := by
  rcases x with ((_ | _) | _) | _ <;> simp [settled]

end Programs

/-! ## Which operations a push performs -/

/-- An operation that sends, writes and records what it may. -/
def PushOp.Within (sends : Bytes → Prop) (writes : Peers C → Prop)
    (records : Observation C → Prop) : PushOp C → Prop
  | .send _ frame => sends frame
  | .writePeers peers => writes peers
  | .recordBinding o => records o
  | _ => True

section Performs

variable {sends : Bytes → Prop} {writes : Peers C → Prop} {records : Observation C → Prop}
  {α ε : Type} {peer : EndpointId C} {ledger : LedgerId} (sync : WalletSync)

/-- A call sends within its bounds. -/
theorem performs_onPeer {call : Call α} (h : call.Performs sends) :
    (onPeer peer call).Performs (PushOp.Within sends writes records) := by
  induction call with
  | done result => trivial
  | perform frame next ih => exact ⟨h.1, fun reply => ih reply (h.2 reply)⟩

theorem performs_calling {call : Call α} (h : call.Performs sends) :
    (calling peer call).Performs (PushOp.Within sends writes records) :=
  ((performs_onPeer h).conclude id).bind fun _ => .lift _

/-- Connecting sends nothing. -/
theorem performs_connect :
    (sync.connect peer).Performs (PushOp.Within sends writes records) := by
  refine (Performs.ask trivial).bind fun dial => ?_
  cases dial <;> exact .pure _

/-- One push sends what its client sends. -/
theorem performs_pushOne {events : List Bytes} (h : (Client.push C ledger events).Performs sends) :
    (sync.pushOne peer ledger events).Performs (PushOp.Within sends writes records) := by
  refine (performs_connect sync).bind fun error => ?_
  cases error with
  | some error => exact .pure _
  | none => exact (performs_calling h).bind fun _ => .pure _

/-- The pushes to the witnesses send what the client sends. -/
theorem performs_pushEach {events : List Bytes} (h : (Client.push C ledger events).Performs sends)
    (witnesses : List (EndpointId C)) :
    (sync.pushEach ledger events witnesses).Performs (PushOp.Within sends writes records) := by
  induction witnesses with
  | nil => exact .pure _
  | cons witness witnesses ih =>
    exact (performs_pushOne sync h).bind fun _ => ih.bind fun _ => .pure _

/-- Reading a chain sends what its client sends. -/
theorem performs_candidate {rounds : Nat} (h : (Client.getAll C rounds ledger 0).Performs sends) :
    (sync.candidate rounds peer ledger).Performs (PushOp.Within sends writes records) := by
  refine (performs_connect sync).bind fun error => ?_
  cases error with
  | some error => exact .pure _
  | none =>
    refine (performs_calling h).bind fun answer => ?_
    cases answer with
    | error error => exact .pure _
    | ok served =>
      refine Performs.ite (.pure _) ?_
      rcases verified peer ledger (served.getD []) with (error | site) | chain
      · exact .pure _
      · exact .lift _
      · exact .pure _

/-- Recording hints writes the cache alone. -/
theorem performs_recordHints {witnesses caller : List (EndpointId C)} {results : List PushResult}
    (hwrites : ∀ peers, writes peers) :
    (recordHints ledger witnesses caller results).Performs (PushOp.Within sends writes records) := by
  refine (Performs.ask trivial).bind fun before => ?_
  cases before with
  | none => exact .pure _
  | some before =>
    refine (Performs.ask trivial).bind fun now => Performs.ite (.pure _) (.ask ?_)
    exact hwrites _

variable {rounds : Nat} {identity : IdentityId}

/-- Asking the sources sends gets and notes what they answer. -/
theorem performs_askSources (h : (Client.getAll C rounds identity 0).Performs sends)
    (hrecords : ∀ o, records o) (sources : List (EndpointId C)) :
    (sync.askSources rounds identity sources).Performs (PushOp.Within sends writes records) := by
  induction sources with
  | nil => exact .pure _
  | cons source sources ih =>
    refine (performs_candidate sync h).bind fun found => ?_
    rcases found with error | _ | chain
    · exact ih
    · exact ih
    · exact (Performs.ask trivial).bind fun now => .ask (hrecords _)

/-- Observing a witness's ledger sends gets and notes what they answer. -/
theorem performs_observeWitnessLedger {accepted : List (EndpointId C)}
    (h : (Client.getAll C rounds identity 0).Performs sends) (hrecords : ∀ o, records o) :
    (sync.observeWitnessLedger rounds identity accepted).Performs
      (PushOp.Within sends writes records) := by
  refine (Performs.ask trivial).bind fun peers => ?_
  cases peers with
  | none => exact performs_askSources sync h hrecords _
  | some peers => exact (Performs.ask trivial).bind fun now => performs_askSources sync h hrecords _

/-- Labelling the named witnesses sends gets and notes what they answer. -/
theorem performs_labelNamed {stored : Bool} {witnesses accepted : List (EndpointId C)}
    (h : ∀ identity, (Client.getAll C rounds identity 0).Performs sends)
    (hrecords : ∀ o, records o) (named : List IdentityId) : ∀ results : List PushResult,
    (sync.labelNamed rounds stored witnesses accepted named results).Performs
      (PushOp.Within sends writes records) := by
  induction named with
  | nil => exact fun _ => .pure _
  | cons identity named ih =>
    intro results
    refine Performs.bind (Performs.ite (performs_observeWitnessLedger sync (h _) hrecords)
      (.pure _)) fun _ => (Performs.ask trivial).bind fun read => ?_
    rcases read with _ | _ | bindings
    · exact ih _
    · exact ih _
    · exact ih _

end Performs

/-! ## Records -/

/-- Every record lies in the file of its own identity. -/
def BindingsDir.InPlace (dir : BindingsDir C) : Prop :=
  ∀ identity bindings, dir.get? identity = some bindings → bindings.identity = identity

/-- What an observation writes is of its identity, and names what the observation vouches for or the
record before it named. -/
theorem written_spec {existing : Option (Bindings C)} {o : Observation C} {bindings : Bindings C}
    (hplaced : ∀ old, existing = some old → old.identity = o.identity)
    (h : applyObservation existing o = .replaced bindings ∨
      applyObservation existing o = .refreshed bindings) :
    bindings.identity = o.identity ∧ ∀ endpoint, Names bindings.endpoints endpoint →
      endpoint ∈ o.vouched ∨ ∃ old, existing = some old ∧ Names old.endpoints endpoint := by
  have hown : o.bindings.identity = o.identity ∧ ∀ endpoint, Names o.bindings.endpoints endpoint →
      endpoint ∈ o.vouched ∨ ∃ old, existing = some old ∧ Names old.endpoints endpoint :=
    ⟨rfl, fun _ hnamed => .inl (names_bindings.mp hnamed)⟩
  unfold applyObservation at h
  by_cases hbind : o.mayBind = false
  · simp [hbind] at h
  rw [if_neg hbind] at h
  cases existing with
  | none =>
    by_cases hvouched : o.vouched = []
    · simp [hvouched] at h
    · simp only [hvouched, if_false, Recorded.replaced.injEq, reduceCtorEq, or_false] at h
      exact h ▸ hown
  | some old =>
    cases hseq : old.headSeq with
    | none =>
      by_cases hvouched : o.vouched = []
      · simp [hseq, hvouched] at h
      · simp only [hseq, hvouched, if_false, Recorded.replaced.injEq, reduceCtorEq, or_false] at h
        exact h ▸ hown
    | some recorded =>
      simp only [hseq] at h
      split_ifs at h
      · simp at h
      · simp only [Recorded.replaced.injEq, or_false] at h
        exact h ▸ hown
      · simp at h
      · simp at h
      · simp only [Recorded.refreshed.injEq, false_or] at h
        subst h
        refine ⟨hplaced old rfl, fun endpoint hnamed => ?_⟩
        exact (names_mergeEntries.mp hnamed).imp_right fun hold => ⟨old, rfl, hold⟩

section Records

variable {dir : BindingsDir C} {o : Observation C} {identity : IdentityId}

/-- What recording an observation does to a directory in place. -/
theorem record_cases (hplaced : dir.InPlace) (o : Observation C) :
    (dir.record o).2 = dir ∨ (dir.record o).2 = dir.remove o.identity ∨
      ∃ bindings : Bindings C, bindings.identity = o.identity ∧
        (dir.record o).2 = dir.insert o.identity bindings ∧
        ∀ endpoint, Names bindings.endpoints endpoint →
          endpoint ∈ o.vouched ∨ dir.binding o.identity endpoint = .verified := by
  have hwritten : ∀ bindings, applyObservation (dir.get? o.identity) o = .replaced bindings ∨
      applyObservation (dir.get? o.identity) o = .refreshed bindings →
      bindings.identity = o.identity ∧ ∀ endpoint, Names bindings.endpoints endpoint →
        endpoint ∈ o.vouched ∨ dir.binding o.identity endpoint = .verified := by
    intro bindings h
    obtain ⟨hidentity, hnames⟩ := written_spec (fun old hold => hplaced _ old hold) h
    exact ⟨hidentity, fun endpoint hnamed =>
      (hnames endpoint hnamed).imp_right binding_eq_verified.mpr⟩
  rw [BindingsDir.record]
  cases hout : applyObservation (dir.get? o.identity) o with
  | replaced bindings =>
    obtain ⟨hidentity, hnames⟩ := hwritten bindings (.inl hout)
    exact .inr (.inr ⟨bindings, hidentity, congrArg (dir.insert · bindings) hidentity, hnames⟩)
  | refreshed bindings =>
    obtain ⟨hidentity, hnames⟩ := hwritten bindings (.inr hout)
    exact .inr (.inr ⟨bindings, hidentity, congrArg (dir.insert · bindings) hidentity, hnames⟩)
  | ignored => exact .inl rfl
  | cleared => exact .inr (.inl rfl)
  | nothing => exact .inl rfl

/-- An observation touches the record of its identity alone. -/
theorem get?_record (hplaced : dir.InPlace) (hother : o.identity ≠ identity) :
    (dir.record o).2.get? identity = dir.get? identity := by
  rcases record_cases hplaced o with hsame | hcleared | ⟨bindings, -, hwritten, -⟩
  · rw [hsame]
  · rw [hcleared, SortedMap.get?_remove, if_neg hother.symm]
  · rw [hwritten, SortedMap.get?_insert, if_neg hother.symm]

/-- A recorded observation keeps every record in its own place. -/
theorem BindingsDir.InPlace.record (hplaced : dir.InPlace) (o : Observation C) :
    (dir.record o).2.InPlace := by
  intro identity bindings hget
  by_cases hother : o.identity ≠ identity
  · exact hplaced identity bindings (get?_record hplaced hother ▸ hget)
  obtain rfl := not_not.mp hother
  rcases record_cases hplaced o with hsame | hcleared | ⟨written, hidentity, hwritten, -⟩
  · exact hplaced _ bindings (hsame ▸ hget)
  · rw [hcleared, SortedMap.get?_remove, if_pos rfl] at hget
    cases hget
  · rw [hwritten, SortedMap.get?_insert, if_pos rfl] at hget
    exact Option.some.inj hget ▸ hidentity

/-- An endpoint that a record names was named before or is vouched for. -/
theorem binding_record (hplaced : dir.InPlace) {endpoint : EndpointId C}
    (h : (dir.record o).2.binding identity endpoint = .verified) :
    dir.binding identity endpoint = .verified ∨
      o.identity = identity ∧ endpoint ∈ o.vouched := by
  by_cases hother : o.identity ≠ identity
  · rw [BindingsDir.binding, get?_record hplaced hother] at h
    exact .inl h
  obtain rfl := not_not.mp hother
  obtain ⟨bindings, hget, hnamed⟩ := binding_eq_verified.mp h
  rcases record_cases hplaced o with hsame | hcleared | ⟨written, -, hwritten, hnames⟩
  · exact .inl (hsame ▸ h)
  · rw [hcleared, SortedMap.get?_remove, if_pos rfl] at hget
    cases hget
  · rw [hwritten, SortedMap.get?_insert, if_pos rfl] at hget
    obtain rfl := Option.some.inj hget
    exact (hnames endpoint hnamed).symm.imp_right fun hvouched => ⟨rfl, hvouched⟩

/-- What recording some observations one after another does. -/
theorem recordAll_spec (observations : List (Observation C)) : ∀ {dir : BindingsDir C},
    dir.InPlace → (dir.recordAll observations).InPlace ∧
      (∀ identity, identity ∉ observations.map Observation.identity →
        (dir.recordAll observations).get? identity = dir.get? identity) ∧
      ∀ identity endpoint, (dir.recordAll observations).binding identity endpoint = .verified →
        dir.binding identity endpoint = .verified ∨
          ∃ o ∈ observations, o.identity = identity ∧ endpoint ∈ o.vouched := by
  induction observations with
  | nil => exact fun hplaced => ⟨hplaced, fun _ _ => rfl, fun _ _ h => .inl h⟩
  | cons o observations ih =>
    intro dir hplaced
    obtain ⟨hlast, hsame, hnames⟩ := ih (hplaced.record o)
    refine ⟨hlast, fun identity hnone => ?_, fun identity endpoint h => ?_⟩
    · rw [List.map_cons, List.mem_cons, not_or] at hnone
      exact (hsame identity hnone.2).trans (get?_record hplaced (Ne.symm hnone.1))
    · rcases hnames identity endpoint h with hbefore | ⟨o', ho', hvouches⟩
      · rcases binding_record hplaced hbefore with hbefore | hvouches
        · exact .inl hbefore
        · exact .inr ⟨o, List.mem_cons_self, hvouches⟩
      · exact .inr ⟨o', List.mem_cons_of_mem _ ho', hvouches⟩

end Records

/-! ## Observations of a run -/

/-- An observation of a chain that its source served at a moment of a run: the identity's own,
verified from nothing. -/
structure Observation.Seen (world : PushWorld C σ) (rounds : Nat) (passed : PushState C σ → Prop)
    (o : Observation C) : Prop where
  binds : o.mayBind = true
  chain : ∃ chain : LoadedLedger C, chain.Verifies o.identity ∧ o.headSeq = chain.headSeq ∧
    o.headEvent = chain.headEvent ∧ o.endpoints = Node.endpoints chain.state ∧
    ∃ u, passed u ∧ (run (world.peer o.source) (Client.getAll C rounds o.identity 0) u.net).1 =
      .ok (some chain.events)

/-- Between two states of a run at most one observation of each of some identities was recorded, and
nothing else. -/
structure Observes (world : PushWorld C σ) (rounds : Nat) (passed : PushState C σ → Prop)
    (named : List IdentityId) (observations : List (Observation C)) (s t : PushState C σ) :
    Prop where
  seen : ∀ o ∈ observations, o.Seen world rounds passed
  once : (observations.map Observation.identity).Sublist named
  recorded : t.bindings = s.bindings.recordAll observations

section Runs

variable {world : PushWorld C σ} {rounds : Nat} {passed : PushState C σ → Prop}
  {named more : List IdentityId} {observations later : List (Observation C)}
  {s t u : PushState C σ} {identity : IdentityId} {source : EndpointId C} {sync : WalletSync}

theorem Observes.none (h : t.bindings = s.bindings) : Observes world rounds passed named [] s t :=
  ⟨by simp, List.nil_sublist _, h⟩

/-- What was observed later follows what was observed before. -/
theorem Observes.append (h : Observes world rounds passed named observations s t)
    (hlater : Observes world rounds passed more later t u) :
    Observes world rounds passed (named ++ more) (observations ++ later) s u where
  seen o ho := (List.mem_append.mp ho).elim (h.seen o) (hlater.seen o)
  once := by
    rw [List.map_append]
    exact h.once.append hlater.once
  recorded := by
    rw [hlater.recorded, h.recorded]
    exact (List.foldl_append ..).symm

/-- Programs that record nothing leave the records alone. -/
theorem bindings_kept {α : Type} {p : OnPush C α}
    (h : p.Performs (PushOp.Within (fun _ => True) (fun _ => True) fun _ => False))
    (s : PushState C σ) : (run (PushOp.exec world) p s).2.bindings = s.bindings := by
  refine h.keeps (I := fun t => t.bindings = s.bindings) (fun op hop t ht => ?_) s rfl
  cases op with
  | writePeers peers =>
    simp only [PushOp.exec]
    split_ifs <;> exact ht
  | recordBinding o => exact hop.elim
  | _ => exact ht

/-- What a chain a peer served verifies as. -/
theorem verified_eq_ok {ledger : LedgerId} {events : List Bytes} {chain : LoadedLedger C}
    (h : verified source ledger events = .ok chain) :
    chain.Verifies ledger ∧ chain.events = events := by
  rw [verified] at h
  rcases hfold : fold C events with (e | site) | ⟨state, _ | violation⟩
  · exact e.elim
  · simp [hfold] at h
  · rw [hfold] at h
    obtain ⟨_, hledger, h⟩ := Outcome.bind_eq_ok.mp h
    rw [Outcome.rejectIf_eq_ok, not_not] at hledger
    obtain ⟨loaded, hloaded, hevents, -, hany⟩ :=
      LoadedLedger.Verifies.of_run (fold_eq_ok.mp hfold) hledger
    obtain rfl := Except.ok.inj ((hany _).symm.trans h)
    exact ⟨hloaded, hevents⟩
  · simp [hfold] at h

/-- A candidate is the whole chain its source served, verified. -/
theorem candidate_served {chain : LoadedLedger C}
    (hpassed : (sync.candidate rounds source identity).Throughout (PushOp.exec world) s passed)
    (hrun : run (PushOp.exec world) (sync.candidate rounds source identity) s =
      (.ok (.ok (some chain)), t)) :
    chain.Verifies identity ∧ ∃ u, passed u ∧
      (run (world.peer source) (Client.getAll C rounds identity 0) u.net).1 =
        .ok (some chain.events) := by
  obtain ⟨error, u, hconnect, hrest⟩ := run_bind_eq_ok.mp hrun
  have hu : passed u := hpassed.second hconnect 0
  cases error with
  | some error => simp at hrest
  | none =>
    obtain ⟨answer, v, hcall, hrest⟩ := run_bind_eq_ok.mp hrest
    rw [run_calling] at hcall
    cases answer with
    | error error => simp at hrest
    | ok served =>
      have hserved := settled_eq_ok.mp (Prod.mk.inj hcall).1
      by_cases hnil : served.getD [] = []
      · simp [hnil] at hrest
      · simp only [hnil, if_false] at hrest
        rcases hverified : verified source identity (served.getD []) with (error | site) | found
        · simp [hverified] at hrest
        · simp [hverified] at hrest
        · simp only [hverified, run_pure, Prod.mk.injEq, Except.ok.injEq, Option.some.injEq] at hrest
          obtain ⟨rfl, -⟩ := hrest
          obtain ⟨hchain, hevents⟩ := verified_eq_ok hverified
          cases served with
          | none => simp at hnil
          | some events => exact ⟨hchain, u, hu, hevents ▸ hserved⟩

/-- Recording an observation, where the files can be used. -/
theorem recording_observes {o : Observation C} (ho : o.Seen world rounds passed)
    (hkept : t.bindings = s.bindings) :
    ∃ observations, Observes world rounds passed [o.identity] observations s
      (PushOp.exec world (.recordBinding o) (PushOp.exec world .now t).2).2 := by
  let u := (PushOp.exec world .now t).2
  have hu : u.bindings = s.bindings := hkept
  have hexec : (PushOp.exec world (.recordBinding o) u).2 =
      if world.readsBindings o.identity u.net && world.writesBindings o.identity u.net then
        { u with bindings := (u.bindings.record o).2 }
      else u := rfl
  change ∃ observations, Observes world rounds passed [o.identity] observations s
    (PushOp.exec world (.recordBinding o) u).2
  rw [hexec]
  split_ifs
  · refine ⟨[o], ?_, List.Sublist.refl _, congrArg (fun dir => (dir.record o).2) hu⟩
    intro o' ho'
    exact List.mem_singleton.mp ho' ▸ ho
  · exact ⟨[], .none hu⟩

/-- Asking sources for the ledger of an identity observes it at most once. -/
theorem askSources_observes (sources : List (EndpointId C)) : ∀ {s : PushState C σ},
    (sync.askSources rounds identity sources).Throughout (PushOp.exec world) s passed →
    (sync.askSources rounds identity sources).Ensures (PushOp.exec world) s fun _ t =>
      ∃ observations, Observes world rounds passed [identity] observations s t := by
  induction sources with
  | nil => exact fun _ => ⟨[], .none rfl⟩
  | cons source sources ih =>
    intro s hpassed
    have hkept : (run (PushOp.exec world) (sync.candidate rounds source identity) s).2.bindings =
        s.bindings :=
      bindings_kept (performs_candidate sync (Performs.of_forall (fun _ => trivial) _)) s
    refine Ensures.bind (R := fun r t =>
      run (PushOp.exec world) (sync.candidate rounds source identity) s = (r, t)) rfl
      (fun found t hrun => ?_) fun e t hrun => ⟨[], .none ?_⟩
    · rw [hrun] at hkept
      have hrest := hpassed.second hrun
      rcases found with error | _ | chain
      · obtain ⟨observations, hobserves⟩ := ih hrest
        exact ⟨observations, hobserves.seen, hobserves.once, hkept ▸ hobserves.recorded⟩
      · obtain ⟨observations, hobserves⟩ := ih hrest
        exact ⟨observations, hobserves.seen, hobserves.once, hkept ▸ hobserves.recorded⟩
      · obtain ⟨hchain, hserved⟩ := candidate_served hpassed.first hrun
        have hobserved : Observation.Seen world rounds passed ⟨identity, chain.headSeq,
            chain.headEvent, endpoints chain.state, source, (world.now t.net).1, true⟩ :=
          ⟨rfl, chain, hchain, rfl, rfl, rfl, hserved⟩
        exact recording_observes hobserved hkept
    · rw [hrun] at hkept
      exact hkept

/-- One named witness is observed from what the sources answered. -/
theorem observeWitnessLedger_observes {accepted : List (EndpointId C)}
    (hpassed : (sync.observeWitnessLedger rounds identity accepted).Throughout (PushOp.exec world) s
      passed) :
    (sync.observeWitnessLedger rounds identity accepted).Ensures (PushOp.exec world) s fun _ t =>
      ∃ observations, Observes world rounds passed [identity] observations s t := by
  have hrest := hpassed.second (run_ask _ PushOp.readPeers s)
  refine Ensures.after (run_ask _ PushOp.readPeers s) ?_
  generalize (PushOp.exec world .readPeers s).1 = reply at hrest ⊢
  cases reply with
  | none => exact askSources_observes _ hrest
  | some peers =>
    refine Ensures.after (run_ask _ PushOp.now _) ?_
    refine (askSources_observes _ (hrest.second (run_ask _ PushOp.now _))).mono ?_
    rintro r t ⟨observations, hobserves⟩
    exact ⟨observations, hobserves.seen, hobserves.once, hobserves.recorded⟩

/-! ## Labels -/

/-- Rows labelled where an endpoint is verified. -/
def marked (verified : EndpointId C → Bool) (witnesses : List (EndpointId C))
    (results : List PushResult) : List PushResult :=
  (witnesses.zip results).map fun row =>
    if verified row.1 then { row.2 with binding := .verified } else row.2

/-- The first row is marked by its own witness. -/
theorem marked_cons (verified : EndpointId C → Bool) (witness : EndpointId C)
    (witnesses : List (EndpointId C)) (result : PushResult) (results : List PushResult) :
    marked verified (witness :: witnesses) (result :: results) =
      (if verified witness then { result with binding := .verified } else result) ::
        marked verified witnesses results := rfl

/-- Marking twice marks what either verifies. -/
theorem marked_marked (verified earlier : EndpointId C → Bool) (witnesses : List (EndpointId C)) :
    ∀ results : List PushResult, marked verified witnesses (marked earlier witnesses results) =
      marked (fun endpoint => verified endpoint || earlier endpoint) witnesses results := by
  induction witnesses with
  | nil => exact fun _ => rfl
  | cons witness witnesses ih =>
    intro results
    cases results with
    | nil => rfl
    | cons result results =>
      rw [marked_cons, marked_cons, marked_cons, ih]
      cases verified witness <;> cases earlier witness <;> rfl

/-- Marking by nothing changes nothing. -/
theorem marked_none {witnesses : List (EndpointId C)} {results : List PushResult}
    (hlength : results.length = witnesses.length) :
    marked (fun _ => false) witnesses results = results := by
  simp [marked, List.map_snd_zip hlength.le]

/-- Labelling marks the witnesses the bindings verify. -/
theorem labelled_eq (bindings : Bindings C) (witnesses : List (EndpointId C))
    (results : List PushResult) : labelled bindings witnesses results =
      marked (fun endpoint => decide (bindings.binding endpoint = .verified)) witnesses results := by
  simp [labelled, marked]

/-- Marking keeps the rows' number. -/
theorem length_marked (verified : EndpointId C → Bool) {witnesses : List (EndpointId C)}
    {results : List PushResult} (hlength : results.length = witnesses.length) :
    (marked verified witnesses results).length = witnesses.length := by
  simp [marked, hlength]

/-- The labels of a report by what the records of some identities say in the end. A record that
cannot be read says nothing. -/
structure LabelsBy (world : PushWorld C σ) (witnesses : List (EndpointId C))
    (named : List IdentityId) (t : PushState C σ) (verified : EndpointId C → Bool) : Prop where
  recorded : ∀ endpoint, verified endpoint = true →
    ∃ identity ∈ named, t.bindings.binding identity endpoint = .verified
  complete : (∀ identity n, world.readsBindings identity n = true) → ∀ identity ∈ named,
    ∀ endpoint, t.bindings.binding identity endpoint = .verified → verified endpoint = true

/-- What labelling by some identities leaves. -/
def Labelling (world : PushWorld C σ) (rounds : Nat) (passed : PushState C σ → Prop) (stored : Bool)
    (witnesses : List (EndpointId C)) (named : List IdentityId) (results : List PushResult)
    (s : PushState C σ) (r : Outcome (PushError C) (List PushResult)) (t : PushState C σ) : Prop :=
  ∃ observations, Observes world rounds passed named observations s t ∧
    (stored = false → observations = []) ∧ ∀ results', r = .ok results' →
      ∃ verified, results' = marked verified witnesses results ∧
        LabelsBy world witnesses named t verified

/-- What one identity labels holds in the end, as nothing later observes the identity. -/
theorem Labelling.cons {stored : Bool} {witnesses : List (EndpointId C)} {results : List PushResult}
    {earlier : EndpointId C → Bool} {r : Outcome (PushError C) (List PushResult)}
    (hnone : identity ∉ named) (hplaced : u.bindings.InPlace)
    (hobserves : Observes world rounds passed [identity] observations s u)
    (hsilent : stored = false → observations = [])
    (hsound : ∀ endpoint, earlier endpoint = true →
      u.bindings.binding identity endpoint = .verified)
    (hcomplete : world.readsBindings identity u.net = true → ∀ endpoint,
      u.bindings.binding identity endpoint = .verified → earlier endpoint = true)
    (h : Labelling world rounds passed stored witnesses named (marked earlier witnesses results) u
      r t) :
    Labelling world rounds passed stored witnesses (identity :: named) results s r t := by
  obtain ⟨later, hlater, hlaterSilent, hresult⟩ := h
  have hsame : t.bindings.get? identity = u.bindings.get? identity := by
    rw [hlater.recorded]
    exact (recordAll_spec _ hplaced).2.1 identity fun hmem => hnone (hlater.once.subset hmem)
  have hbinding : ∀ endpoint, t.bindings.binding identity endpoint =
      u.bindings.binding identity endpoint := by
    intro endpoint
    rw [BindingsDir.binding, BindingsDir.binding, hsame]
  refine ⟨observations ++ later, hobserves.append hlater, fun h => ?_, fun results' hr => ?_⟩
  · rw [hsilent h, hlaterSilent h, List.append_nil]
  obtain ⟨verified, rfl, hby⟩ := hresult results' hr
  refine ⟨fun endpoint => verified endpoint || earlier endpoint, marked_marked _ _ _ _, ?_, ?_⟩
  · intro endpoint h
    rcases Bool.or_eq_true_iff.mp h with h | h
    · obtain ⟨i, hi, hv⟩ := hby.recorded endpoint h
      exact ⟨i, List.mem_cons_of_mem _ hi, hv⟩
    · exact ⟨identity, List.mem_cons_self, (hbinding endpoint).trans (hsound endpoint h)⟩
  · intro hreads i hi endpoint hv
    apply Bool.or_eq_true_iff.mpr
    rcases List.mem_cons.mp hi with rfl | hi
    · exact .inr (hcomplete (hreads _ _) endpoint ((hbinding endpoint).symm.trans hv))
    · exact .inl (hby.complete hreads i hi endpoint hv)

/-- An identity is observed only where the push stored something. -/
theorem observing_observes {stored : Bool} {accepted : List (EndpointId C)}
    (hpassed : (if stored then sync.observeWitnessLedger rounds identity accepted
      else pure ()).Throughout (PushOp.exec world) s passed) :
    (if stored then sync.observeWitnessLedger rounds identity accepted else pure ()).Ensures
      (PushOp.exec world) s fun _ t => ∃ observations,
        Observes world rounds passed [identity] observations s t ∧
          (stored = false → observations = []) := by
  cases stored with
  | false => exact ⟨[], .none rfl, fun _ => rfl⟩
  | true =>
    refine (observeWitnessLedger_observes hpassed).mono ?_
    rintro r t ⟨observations, hobserves⟩
    exact ⟨observations, hobserves, by simp⟩

/-- Labelling by some identities observes each of them at most once, and labels as the records say
in the end. -/
theorem labelNamed_labels {stored : Bool} {witnesses accepted : List (EndpointId C)} :
    ∀ {s : PushState C σ} {results : List PushResult}, s.bindings.InPlace → named.Nodup →
      results.length = witnesses.length →
      (sync.labelNamed rounds stored witnesses accepted named results).Throughout
        (PushOp.exec world) s passed →
      (sync.labelNamed rounds stored witnesses accepted named results).Ensures (PushOp.exec world) s
        (Labelling world rounds passed stored witnesses named results s) := by
  induction named with
  | nil =>
    intro s results _ _ hlength _
    refine ⟨[], .none rfl, fun _ => rfl, fun results' hresults => ⟨fun _ => false, ?_, ?_⟩⟩
    · obtain rfl := Except.ok.inj hresults
      exact (marked_none hlength).symm
    · exact ⟨by simp, by simp⟩
  | cons identity named ih =>
    intro s results hplaced hnodup hlength hpassed
    obtain ⟨hnone, hnodup⟩ := List.nodup_cons.mp hnodup
    have hobserve := observing_observes hpassed.first
    rcases hrun : run (PushOp.exec world) (if stored then
      sync.observeWitnessLedger rounds identity accepted else pure ()) s with ⟨r, u⟩
    rw [Ensures, hrun] at hobserve
    obtain ⟨observations, hobserves, hsilent⟩ := hobserve
    cases r with
    | error e =>
      refine Ensures.of_run (run_bind_of_error hrun) ⟨observations, ?_, hsilent, by simp⟩
      exact ⟨hobserves.seen, hobserves.once.trans (List.singleton_sublist.mpr List.mem_cons_self),
        hobserves.recorded⟩
    | ok _ =>
      refine Ensures.after hrun (Ensures.after (run_ask _ (PushOp.readBindings identity) u) ?_)
      have hrest := (hpassed.second hrun).second (run_ask _ (PushOp.readBindings identity) u)
      have huplaced : u.bindings.InPlace := hobserves.recorded ▸ (recordAll_spec _ hplaced).1
      have hreply : (PushOp.exec world (.readBindings identity) u).1 =
        if world.readsBindings identity u.net then some (u.bindings.get? identity) else none := rfl
      have hstate : (PushOp.exec world (.readBindings identity) u).2 = u := rfl
      rw [hstate] at hrest ⊢
      generalize hread : (PushOp.exec world (.readBindings identity) u).1 = read at hrest ⊢
      rw [hreply] at hread
      rcases read with _ | _ | bindings
      · have hunread : world.readsBindings identity u.net ≠ true := by
          intro h
          simp [h] at hread
        refine Ensures.mono (ih huplaced hnodup hlength hrest) fun r t hlabelling => ?_
        rw [← marked_none hlength] at hlabelling
        exact hlabelling.cons hnone huplaced hobserves hsilent (by simp) fun h => absurd h hunread
      · have hfile : u.bindings.get? identity = none := by
          split_ifs at hread
          exact Option.some.inj hread
        refine Ensures.mono (ih huplaced hnodup hlength hrest) fun r t hlabelling => ?_
        rw [← marked_none hlength] at hlabelling
        refine hlabelling.cons hnone huplaced hobserves hsilent (by simp) fun _ endpoint hv => ?_
        simp [BindingsDir.binding, hfile] at hv
      · have hfile : u.bindings.get? identity = some bindings := by
          split_ifs at hread
          exact Option.some.inj hread
        have hbinding : ∀ endpoint, u.bindings.binding identity endpoint =
            bindings.binding endpoint := by
          intro endpoint
          rw [BindingsDir.binding, hfile]
          rfl
        have hlabelled : (labelled bindings witnesses results).length = witnesses.length := by
          rw [labelled_eq]
          exact length_marked _ hlength
        refine Ensures.mono (ih huplaced hnodup hlabelled hrest) fun r t hlabelling => ?_
        rw [labelled_eq] at hlabelling
        refine hlabelling.cons hnone huplaced hobserves hsilent ?_ ?_
        · exact fun endpoint h => (hbinding endpoint).trans (of_decide_eq_true h)
        · exact fun _ endpoint h => decide_eq_true ((hbinding endpoint).symm.trans h)

/-! ## Rows -/

/-- Every result has its row. -/
theorem exists_marked {verified : EndpointId C → Bool} {witnesses : List (EndpointId C)} :
    ∀ {results : List PushResult}, results.length = witnesses.length → ∀ result ∈ results,
      ∃ row ∈ marked verified witnesses results,
        row.status = result.status ∧ row.stored = result.stored := by
  induction witnesses with
  | nil =>
    intro results hlength result hmem
    rw [List.length_eq_zero_iff.mp hlength] at hmem
    simp at hmem
  | cons witness witnesses ih =>
    intro results hlength result hmem
    cases results with
    | nil => simp at hmem
    | cons first results =>
      rw [marked_cons]
      rcases List.mem_cons.mp hmem with rfl | hmem
      · refine ⟨_, List.mem_cons_self, ?_⟩
        split_ifs <;> exact ⟨rfl, rfl⟩
      · obtain ⟨row, hrow, hsame⟩ := ih (Nat.succ.inj hlength) result hmem
        exact ⟨row, List.mem_cons_of_mem _ hrow, hsame⟩

/-- A row is verified when its witness is. -/
theorem binding_marked {verified : EndpointId C → Bool} {witnesses : List (EndpointId C)} :
    ∀ {results : List PushResult}, (∀ result ∈ results, result.binding = .hinted) →
      ∀ row ∈ witnesses.zip (marked verified witnesses results),
        row.2.binding = .verified ↔ verified row.1 = true := by
  induction witnesses with
  | nil => simp
  | cons witness witnesses ih =>
    intro results hhinted row hmem
    cases results with
    | nil => simp [marked] at hmem
    | cons first results =>
      obtain ⟨hfirst, hrest⟩ := List.forall_mem_cons.mp hhinted
      rw [marked_cons, List.zip_cons_cons] at hmem
      rcases List.mem_cons.mp hmem with rfl | hmem
      · cases hverified : verified witness <;> simp [hfirst]
      · exact ih hrest row hmem

/-- An answer alone verifies nothing. -/
theorem binding_ofAnswer (endpoint : EndpointId C) (answer : Except ClientError PushOutcome) :
    (PushResult.ofAnswer endpoint answer).binding = .hinted := by
  cases answer with
  | ok outcome => rfl
  | error error => cases error <;> rfl

/-- Pushing makes a row of every witness, none of them labelled. -/
theorem pushEach_rows {ledger : LedgerId} {events : List Bytes} {witnesses : List (EndpointId C)} :
    ∀ {s t : PushState C σ} {results : List PushResult},
      run (PushOp.exec world) (sync.pushEach ledger events witnesses) s = (.ok results, t) →
      results.length = witnesses.length ∧ ∀ result ∈ results, result.binding = .hinted := by
  induction witnesses with
  | nil =>
    intro s t results hrun
    obtain rfl := Except.ok.inj (Prod.mk.inj hrun).1
    simp
  | cons witness witnesses ih =>
    intro s t results hrun
    obtain ⟨result, u, hone, hrun⟩ := run_bind_eq_ok.mp hrun
    obtain ⟨rest, v, hrest, hrun⟩ := run_bind_eq_ok.mp hrun
    obtain rfl := Except.ok.inj (Prod.mk.inj hrun).1
    obtain ⟨hlength, hhinted⟩ := ih hrest
    refine ⟨by simp [hlength], List.forall_mem_cons.mpr ⟨?_, hhinted⟩⟩
    obtain ⟨error, w, -, hone⟩ := run_bind_eq_ok.mp hone
    cases error with
    | some error =>
      obtain rfl := Except.ok.inj (Prod.mk.inj hone).1
      rfl
    | none =>
      obtain ⟨answer, x, -, hone⟩ := run_bind_eq_ok.mp hone
      obtain rfl := Except.ok.inj (Prod.mk.inj hone).1
      exact binding_ofAnswer witness answer

/-- A ledger that is loaded without a violation folds. -/
theorem folds_of_load {ledger : LedgerId} {store : LedgerStore C} {rebuilt : Nat}
    {home home' : LedgerStorage C} {loaded : LoadedLedger C}
    (hload : run StoreOp.exec (onLedger ledger (load store rebuilt)) home = (.ok loaded, home'))
    (hvalid : requireValid loaded = .ok ()) : ∃ log, FoldRun log loaded.state := by
  obtain ⟨files, hload, -⟩ := run_onLedger_eq_ok.mp hload
  obtain ⟨stored, f, -, hload⟩ := run_bind_eq_ok.mp hload
  obtain ⟨folded, g, hfold, hload⟩ := run_bind_eq_ok.mp hload
  obtain ⟨hfold, -⟩ := run_lift_eq_ok.mp hfold
  obtain ⟨_, _, -, hload⟩ := run_bind_eq_ok.mp hload
  obtain rfl := Except.ok.inj (Prod.mk.inj hload).1
  have hnone : folded.violation = none := by
    cases hviolation : folded.violation with
    | none => rfl
    | some violation => simp [requireValid, hviolation] at hvalid
  exact ⟨_, ((LoadedLedger.foldFrom_eq_ok _ hfold).accepts hnone).2⟩

/-! ## The push -/

/-- The states a run passes. -/
def Passed {α : Type} (world : PushWorld C σ) (p : OnPush C α) (s u : PushState C σ) : Prop :=
  ∃ n, cut (PushOp.exec world) n p s = u

/-- The parts of a push that reports, one after the other, and what they pass. -/
theorem run_pushFrom {setup : Setup} {ledger : LedgerId} {witnesses caller : List (EndpointId C)}
    {rebuilt : Nat} {report : PushReport}
    (hpassed : (sync.pushFrom rounds setup ledger witnesses caller rebuilt).Throughout
      (PushOp.exec world) s passed)
    (hrun : run (PushOp.exec world) (sync.pushFrom rounds setup ledger witnesses caller rebuilt) s =
      (.ok report, t)) :
    ∃ loaded results home u v,
      run StoreOp.exec (onLedger ledger (load (setup.ledger ledger) rebuilt)) s.home =
        (.ok loaded, home) ∧
      requireValid loaded = .ok () ∧
      (sync.pushEach ledger loaded.events witnesses).Throughout (PushOp.exec world)
        { s with home := home } passed ∧
      run (PushOp.exec world) (sync.pushEach ledger loaded.events witnesses)
        { s with home := home } = (.ok results, u) ∧
      run (PushOp.exec world) (recordHints ledger witnesses caller results) u = (.ok (), v) ∧
      (sync.labelBindings rounds loaded witnesses results).Throughout (PushOp.exec world) v passed ∧
      run (PushOp.exec world) (sync.labelBindings rounds loaded witnesses results) v =
        (.ok report.results, t) := by
  obtain ⟨_, s₀, hsome, hrun⟩ := run_bind_eq_ok.mp hrun
  replace hpassed := hpassed.second hsome
  obtain ⟨-, rfl⟩ := run_lift_eq_ok.mp hsome
  obtain ⟨loaded, s₁, hload, hrun⟩ := run_bind_eq_ok.mp hrun
  replace hpassed := hpassed.second hload
  rw [run_onHome, run_mapReject] at hload
  obtain ⟨hhome, rfl⟩ := Prod.mk.inj hload
  obtain ⟨_, s₂, hvalid, hrun⟩ := run_bind_eq_ok.mp hrun
  replace hpassed := hpassed.second hvalid
  obtain ⟨hnone, rfl⟩ := run_lift_eq_ok.mp hvalid
  obtain ⟨results, u, hpush, hrun⟩ := run_bind_eq_ok.mp hrun
  obtain ⟨_, v, hhints, hrun⟩ := run_bind_eq_ok.mp hrun
  obtain ⟨labels, w, hlabel, hrun⟩ := run_bind_eq_ok.mp hrun
  have hlast := (hpassed.second hpush).second hhints
  obtain ⟨hreport, rfl⟩ := Prod.mk.inj hrun
  obtain rfl := Except.ok.inj hreport
  exact ⟨loaded, results, _, u, v, Prod.ext (Outcome.mapReject_eq_ok.mp hhome) rfl,
    Outcome.mapReject_eq_ok.mp hnone, hpassed.first, hpush, hhints, hlast.first, hlabel⟩

/-- A push that reports observes each witness identity of the ledger at most once, and only where it
stored something. An endpoint that a record binds in the end was bound before, or somebody else served
a chain of the identity that advertises it. A row is labelled verified only where a record of a witness
identity binds its endpoint in the end, and wherever one does if the records can be read. -/
theorem push_binds_on_evidence {setup : Setup} {ledger : LedgerId}
    {witnesses caller : List (EndpointId C)} {rebuilt : Nat} {report : PushReport}
    (hplaced : s.bindings.InPlace)
    (hrun : run (PushOp.exec world) (sync.pushFrom rounds setup ledger witnesses caller rebuilt) s =
      (.ok report, t)) :
    ∃ loaded observations,
      (run StoreOp.exec (onLedger ledger (load (setup.ledger ledger) rebuilt)) s.home).1 =
        .ok loaded ∧
      Observes world rounds
        (Passed world (sync.pushFrom rounds setup ledger witnesses caller rebuilt) s)
        (witnessIdentities loaded.state) observations s t ∧
      ((∀ row ∈ report.results, ¬ (row.status = .accepted ∧ row.stored > 0)) →
        observations = []) ∧
      t.bindings.InPlace ∧
      (∀ identity endpoint, t.bindings.binding identity endpoint = .verified →
        s.bindings.binding identity endpoint = .verified ∨
          ∃ o ∈ observations, o.identity = identity ∧ endpoint ∈ o.endpoints ∧
            o.source ≠ endpoint) ∧
      (∀ row ∈ witnesses.zip report.results, row.2.binding = .verified →
        ∃ identity ∈ witnessIdentities loaded.state,
          t.bindings.binding identity row.1 = .verified) ∧
      ((∀ identity n, world.readsBindings identity n = true) →
        ∀ row ∈ witnesses.zip report.results, ∀ identity ∈ witnessIdentities loaded.state,
          t.bindings.binding identity row.1 = .verified → row.2.binding = .verified) := by
  have hpassed : (sync.pushFrom rounds setup ledger witnesses caller rebuilt).Throughout
      (PushOp.exec world) s
      (Passed world (sync.pushFrom rounds setup ledger witnesses caller rebuilt) s) :=
    fun n => ⟨n, rfl⟩
  generalize Passed world (sync.pushFrom rounds setup ledger witnesses caller rebuilt) s = passed
    at hpassed ⊢
  obtain ⟨loaded, results, home, u, v, hload, hvalid, -, hpush, hhints, hlabelling, hlabel⟩ :=
    run_pushFrom hpassed hrun
  have hkept : v.bindings = s.bindings := by
    have hpushed : (run (PushOp.exec world) (sync.pushEach ledger loaded.events witnesses)
        { s with home := home }).2.bindings = s.bindings :=
      bindings_kept (performs_pushEach sync (Performs.of_forall (fun _ => trivial) _) witnesses) _
    have hnoted : (run (PushOp.exec world) (recordHints ledger witnesses caller results)
        u).2.bindings = u.bindings := bindings_kept (performs_recordHints fun _ => trivial) u
    rw [hpush] at hpushed
    rw [hhints] at hnoted
    exact hnoted.trans hpushed
  obtain ⟨log, hlog⟩ := folds_of_load hload hvalid
  obtain ⟨hlength, hhinted⟩ := pushEach_rows hpush
  have hin : v.bindings.InPlace := hkept ▸ hplaced
  have hlabelled : (sync.labelBindings rounds loaded witnesses results).Ensures (PushOp.exec world)
      v (Labelling world rounds passed _ witnesses (witnessIdentities loaded.state) results v) :=
    labelNamed_labels hin (nodup_witnessIdentities hlog) hlength hlabelling
  rw [Ensures, hlabel] at hlabelled
  obtain ⟨observations, hobserves, hsilent, hresult⟩ := hlabelled
  obtain ⟨verified, hmarked, hby⟩ := hresult report.results rfl
  rw [hmarked]
  refine ⟨loaded, observations, congrArg Prod.fst hload, ⟨hobserves.seen, hobserves.once, hkept ▸ hobserves.recorded⟩,
    fun hrefused => hsilent ?_, ?_, fun identity endpoint h => ?_, fun row hrow h => ?_,
    fun hreads row hrow identity hidentity h => ?_⟩
  · rw [List.any_eq_false]
    intro result hmem
    obtain ⟨row, hrow, hstatus, hstored⟩ := exists_marked hlength result hmem
    have hrow := hrefused row hrow
    rw [hstatus, hstored] at hrow
    simpa using hrow
  · rw [hobserves.recorded]
    exact (recordAll_spec _ hin).1
  · rw [hobserves.recorded] at h
    rcases (recordAll_spec _ hin).2.2 identity endpoint h with hbefore | ⟨o, ho, hown, hv⟩
    · exact .inl (hkept ▸ hbefore)
    · exact .inr ⟨o, ho, hown, (mem_vouched (hobserves.seen o ho).binds).mp hv⟩
  · exact hby.recorded row.1 ((binding_marked hhinted row hrow).mp h)
  · exact (binding_marked hhinted row hrow).mpr (hby.complete hreads identity hidentity row.1 h)

/-! ## Hints -/

section Hints

variable {peers : Peers C} {ledger other : LedgerId} {endpoint found : EndpointId C} {now : Nat}

/-- After a success the cache holds the endpoint recorded beside what it held. -/
theorem holds_recordSuccess
    (h : (peers.recordSuccess ledger endpoint now).holds other found = true) :
    peers.holds other found = true ∨ other = ledger ∧ found = endpoint := by
  obtain ⟨hint, hmem, rfl⟩ := holds_iff_hintsOf.mp h
  rw [hintsOf_recordSuccess] at hmem
  split_ifs at hmem with hledger
  · rcases mem_afterSuccess hmem with hold | hnew
    · exact .inl (holds_iff_hintsOf.mpr ⟨hint, hledger ▸ hold, rfl⟩)
    · exact .inr ⟨hledger, hnew⟩
  · exact .inl (holds_iff_hintsOf.mpr ⟨hint, hmem, rfl⟩)

/-- A failure notes nothing new, whatever the file held. -/
theorem holds_recordFailure
    (h : (peers.recordFailure ledger endpoint).2.holds other found = true) :
    peers.holds other found = true := by
  rw [Peers.recordFailure] at h
  cases hget : peers.ledgers.get? ledger with
  | none =>
    rw [hget] at h
    exact h
  | some hints =>
    rw [hget] at h
    cases hposition : position hints endpoint with
    | none =>
      simp only [hposition] at h
      exact h
    | some index =>
      simp only [hposition] at h
      have hwritten : ∀ kept : List (PeerHint C),
          (∀ hint ∈ kept, hint ∈ hints.modify index PeerHint.failed) →
          (Peers.mk (peers.ledgers.insert ledger kept)).holds other found = true →
          peers.holds other found = true := by
        intro kept hkept h
        obtain ⟨hint, hhint, rfl⟩ := holds_iff_hintsOf.mp h
        rw [Peers.hintsOf, SortedMap.get?_insert] at hhint
        split_ifs at hhint with hledger
        · have hold : ∃ old ∈ hints, old.endpoint = hint.endpoint := by
            rcases mem_modify (hkept hint hhint) with ⟨j, -, hold⟩ | ⟨old, hold, rfl⟩
            · exact ⟨hint, List.mem_of_getElem? hold, rfl⟩
            · exact ⟨old, List.mem_of_getElem? hold, rfl⟩
          obtain ⟨old, hold, hsame⟩ := hold
          refine holds_iff_hintsOf.mpr ⟨old, ?_, hsame⟩
          rw [Peers.hintsOf, hledger, hget]
          exact hold
        · exact holds_iff_hintsOf.mpr ⟨hint, hhint, rfl⟩
      split_ifs at h
      · exact hwritten _ (fun _ hhint => hhint) h
      · obtain ⟨hint, hhint, rfl⟩ := holds_iff_hintsOf.mp h
        rw [Peers.hintsOf, SortedMap.get?_remove] at hhint
        split_ifs at hhint
        · simp at hhint
        · exact holds_iff_hintsOf.mpr ⟨hint, hhint, rfl⟩
      · exact hwritten _ (fun _ hhint => List.mem_of_mem_eraseIdx hhint) h

/-- Pruning adds nothing to the cache. -/
theorem holds_prune (h : (peers.prune now).2.holds other found = true) :
    peers.holds other found = true := by
  obtain ⟨hint, hmem, rfl⟩ := holds_iff_hintsOf.mp h
  rw [hintsOf_prune] at hmem
  exact holds_iff_hintsOf.mpr ⟨hint, List.mem_of_mem_filter hmem, rfl⟩

/-- Noting rows adds a hint only for an endpoint that accepted and that the caller did not name. -/
theorem holds_noteResults {caller : List (EndpointId C)} (rows : List (EndpointId C × PushResult)) :
    ∀ {peers : Peers C},
      (rows.foldl (noteResult ledger caller now) peers).holds other found = true →
      peers.holds other found = true ∨ other = ledger ∧ found ∉ caller ∧
        ∃ row ∈ rows, row.1 = found ∧ row.2.status = .accepted := by
  induction rows with
  | nil => exact fun h => .inl h
  | cons row rows ih =>
    intro peers h
    rcases ih h with hrow | ⟨hledger, hcaller, later, hlater, hsame⟩
    · rw [noteResult] at hrow
      split_ifs at hrow with hnamed
      · exact .inl hrow
      cases hstatus : row.2.status with
      | accepted =>
        rw [hstatus] at hrow
        rcases holds_recordSuccess hrow with hold | ⟨hledger, rfl⟩
        · exact .inl hold
        · exact .inr ⟨hledger, hnamed, row, List.mem_cons_self, rfl, hstatus⟩
      | rejected =>
        rw [hstatus] at hrow
        exact .inl hrow
      | unreachable =>
        rw [hstatus] at hrow
        exact .inl (holds_recordFailure hrow)
    · exact .inr ⟨hledger, hcaller, later, List.mem_cons_of_mem _ hlater, hsame⟩

end Hints

/-- Programs that write no hints leave the hints alone. -/
theorem peers_kept {α : Type} {p : OnPush C α}
    (h : p.Performs (PushOp.Within (fun _ => True) (fun _ => False) fun _ => True))
    (s : PushState C σ) : (run (PushOp.exec world) p s).2.peers = s.peers := by
  refine h.keeps (I := fun t => t.peers = s.peers) (fun op hop t ht => ?_) s rfl
  cases op with
  | writePeers peers => exact hop.elim
  | recordBinding o =>
    simp only [PushOp.exec]
    split_ifs <;> exact ht
  | _ => exact ht

/-- Writing hints where they changed leaves the old ones or the new ones. -/
theorem writing_peers (c : Prop) [hc : Decidable c] (peers : Peers C) (u : PushState C σ) :
    (if c then pure () else Program.ask (PushOp.writePeers peers) : OnPush C Unit).Ensures
      (PushOp.exec world) u fun _ t => t.peers = u.peers ∨ t.peers = peers := by
  cases hc with
  | isTrue hc => exact .inl rfl
  | isFalse hc =>
    change (if world.writesPeers u.net then { u with peers := peers } else u).peers = _ ∨
      (if world.writesPeers u.net then { u with peers := peers } else u).peers = _
    split_ifs
    · exact .inr rfl
    · exact .inl rfl

/-- The cache holds afterwards what it held and what answered the push. -/
theorem recordHints_holds {ledger : LedgerId} {witnesses caller : List (EndpointId C)}
    {results : List PushResult} :
    (recordHints ledger witnesses caller results).Ensures (PushOp.exec world) s fun _ t =>
      ∀ other found, t.peers.holds other found = true →
        s.peers.holds other found = true ∨ other = ledger ∧ found ∉ caller ∧
          ∃ row ∈ witnesses.zip results, row.1 = found ∧ row.2.status = .accepted := by
  have hreply : (PushOp.exec world .readPeers s).1 =
    if world.readsPeers s.net then some s.peers else none := rfl
  refine Ensures.after (run_ask _ PushOp.readPeers s) ?_
  generalize (PushOp.exec world .readPeers s).1 = reply at hreply ⊢
  cases reply with
  | none => exact fun _ _ h => .inl h
  | some before =>
    have hbefore : before = s.peers := by
      split_ifs at hreply
      exact Option.some.inj hreply
    subst hbefore
    refine Ensures.after (run_ask _ PushOp.now _) ((writing_peers _ _ _).mono ?_)
    rintro r t (hsame | hwritten) other found h
    · exact .inl (hsame ▸ h)
    · exact holds_noteResults _ (holds_prune (hwritten ▸ h))

/-- A row of a push says that its witness accepted only where the witness did. -/
theorem pushEach_accepted {ledger : LedgerId} {events : List Bytes}
    {witnesses : List (EndpointId C)} : ∀ {s t : PushState C σ} {results : List PushResult},
      (sync.pushEach ledger events witnesses).Throughout (PushOp.exec world) s passed →
      run (PushOp.exec world) (sync.pushEach ledger events witnesses) s = (.ok results, t) →
      ∀ row ∈ witnesses.zip results, row.2.status = .accepted → ∃ u outcome, passed u ∧
        (run (world.peer row.1) (Client.push C ledger events) u.net).1 = .ok outcome := by
  induction witnesses with
  | nil => simp
  | cons witness witnesses ih =>
    intro s t results hpassed hrun row hrow hstatus
    obtain ⟨result, u, hone, hrun⟩ := run_bind_eq_ok.mp hrun
    obtain ⟨rest, v, hrest, hrun⟩ := run_bind_eq_ok.mp hrun
    obtain rfl := Except.ok.inj (Prod.mk.inj hrun).1
    rcases List.mem_cons.mp hrow with rfl | hrow
    · have hfirst := hpassed.first
      obtain ⟨error, w, hconnect, hone⟩ := run_bind_eq_ok.mp hone
      cases error with
      | some error =>
        obtain rfl := Except.ok.inj (Prod.mk.inj hone).1
        simp [PushResult.unreachable] at hstatus
      | none =>
        obtain ⟨answer, x, hcall, hone⟩ := run_bind_eq_ok.mp hone
        obtain rfl := Except.ok.inj (Prod.mk.inj hone).1
        cases answer with
        | ok outcome =>
          rw [run_calling] at hcall
          exact ⟨w, outcome, hfirst.second hconnect 0, settled_eq_ok.mp (Prod.mk.inj hcall).1⟩
        | error error => cases error <;> simp [PushResult.ofAnswer, PushResult.unreachable] at hstatus
    · exact ih (hpassed.second hone).first hrest row hrow hstatus

/-- A push that reports offered the events that it loaded. It leaves a hint only where there was one,
or for its ledger at an endpoint that the caller did not name and that accepted those events. -/
theorem push_notes_what_answered {setup : Setup} {ledger : LedgerId}
    {witnesses caller : List (EndpointId C)} {rebuilt : Nat} {report : PushReport}
    (hrun : run (PushOp.exec world) (sync.pushFrom rounds setup ledger witnesses caller rebuilt) s =
      (.ok report, t)) {other : LedgerId} {found : EndpointId C}
    (hholds : t.peers.holds other found = true) :
    ∃ loaded,
      (run StoreOp.exec (onLedger ledger (load (setup.ledger ledger) rebuilt)) s.home).1 =
        .ok loaded ∧
      (s.peers.holds other found = true ∨ other = ledger ∧ found ∈ witnesses ∧ found ∉ caller ∧
        ∃ u outcome,
          Passed world (sync.pushFrom rounds setup ledger witnesses caller rebuilt) s u ∧
          (run (world.peer found) (Client.push C ledger loaded.events) u.net).1 = .ok outcome) := by
  have hpassed : (sync.pushFrom rounds setup ledger witnesses caller rebuilt).Throughout
      (PushOp.exec world) s
      (Passed world (sync.pushFrom rounds setup ledger witnesses caller rebuilt) s) :=
    fun n => ⟨n, rfl⟩
  generalize Passed world (sync.pushFrom rounds setup ledger witnesses caller rebuilt) s = passed
    at hpassed ⊢
  obtain ⟨loaded, results, home, u, v, hload, -, hpushing, hpush, hhints, -, hlabel⟩ :=
    run_pushFrom hpassed hrun
  have hpushed : (run (PushOp.exec world) (sync.pushEach ledger loaded.events witnesses)
      { s with home := home }).2.peers = s.peers :=
    peers_kept (performs_pushEach sync (Performs.of_forall (fun _ => trivial) _) witnesses) _
  have hlabelled : (run (PushOp.exec world) (sync.labelBindings rounds loaded witnesses results)
      v).2.peers = v.peers :=
    peers_kept (performs_labelNamed sync (fun _ => Performs.of_forall (fun _ => trivial) _)
      (fun _ => trivial) _ _) v
  have hnoted : (recordHints ledger witnesses caller results).Ensures (PushOp.exec world) u _ :=
    recordHints_holds
  rw [hpush] at hpushed
  rw [hlabel] at hlabelled
  rw [Ensures, hhints] at hnoted
  refine ⟨loaded, congrArg Prod.fst hload, ?_⟩
  rcases hnoted other found (hlabelled ▸ hholds) with hold | ⟨hledger, hcaller, row, hrow, rfl, hstatus⟩
  · exact .inl (hpushed ▸ hold)
  · obtain ⟨w, outcome, hw, haccepted⟩ := pushEach_accepted hpushing hpush row hrow hstatus
    exact .inr ⟨hledger, (List.of_mem_zip hrow).1, hcaller, w, outcome, hw, haccepted⟩

end Runs

/-! ## A push that binds -/

/-- The endpoint that a witness runs. -/
def sampleKeeper : EndpointId Crypto.sample := (SecretKey.sample 8).publicKey

/-- An endpoint that serves the ledger of a witness. -/
def sampleServer : EndpointId Crypto.sample := (SecretKey.sample 9).publicKey

/-- A ledger that names a witness, and the ledger of that witness, which advertises an endpoint. -/
def buildVouchedChains : Except BuildError (List BuiltEvent × List BuiltEvent) := do
  let owner := SecretKey.sample 1
  let keeper := SecretKey.sample 2
  let own ← buildInception keeper .agent (.raw (SecretKey.sample 5).publicKey)
    (.ofNat nonceBytes 6) 1000
  let witness := own.eventId.toIdentity
  let advertised ← buildEndpointAdvertisement keeper
    ⟨witness, 1, own.eventId, 1000, one_le_u64Max⟩ [sampleKeeper] 2000
  let inception ← buildInception owner .person (.raw (SecretKey.sample 3).publicKey)
    (.ofNat nonceBytes 4) 1000
  let named ← buildWitnessSet owner
    ⟨inception.eventId.toIdentity, 1, inception.eventId, 1000, one_le_u64Max⟩ [witness] 2000
  .ok ([inception, named], [own, advertised])

/-- The events of the two ledgers. -/
def vouchedChains : List Bytes × List Bytes :=
  match buildVouchedChains with
  | .ok built => (built.1.map BuiltEvent.signedEvent, built.2.map BuiltEvent.signedEvent)
  | .error _ => ([], [])

/-- The ledger that a chain founds. -/
def ledgerOf (chain : List Bytes) : LedgerId :=
  (Mabel.eventIdOf Crypto.sample (chain.headD [])).toIdentity

/-- The witness stores what it is offered, and everybody else serves the ledger of the witness. -/
def vouchingNet : PushWorld Crypto.sample Unit where
  dial _ net := (.connected, net)
  peer endpoint _ net :=
    if endpoint = sampleKeeper then (some (acceptedResponse ⟨1, 2⟩), net)
    else (some (eventsResponse vouchedChains.2 1 false), net)
  now net := (1, net)
  readsPeers _ := true
  writesPeers _ := true
  readsBindings _ _ := true
  writesBindings _ _ := true

/-- A home that holds the ledger and knows who serves the ledger of its witness. -/
def samplePusher : PushState Crypto.sample Unit where
  home := ((LedgerStorage.empty { sampleSetup with caps := .fromConfig 2147483648 }
    (SortedMap.empty.insert (ledgerOf vouchedChains.1) ⟨true, none⟩)
    (SecretKey.sample 1).publicKey).push
      ⟨ledgerOf vouchedChains.1, vouchedChains.1, ⟨none⟩, sampleClock⟩).2
  peers := Peers.default.recordSuccess (ledgerOf vouchedChains.2) sampleServer 1
  bindings := .empty
  net := ()

/-- The home pushes its ledger to the witness. -/
def samplePush : OnPush Crypto.sample PushReport :=
  WalletSync.new.pushFrom 1 samplePusher.home.setup (ledgerOf vouchedChains.1) [sampleKeeper] [] 0

/-- What the sample push reports and leaves behind. -/
theorem reports_samplePush : ∃ report t,
    run (PushOp.exec vouchingNet) samplePush samplePusher = (.ok report, t) ∧
      report.results.map PushResult.binding = [.verified] ∧
      t.bindings.binding (ledgerOf vouchedChains.2) sampleKeeper = .verified ∧
      t.peers.holds (ledgerOf vouchedChains.1) sampleKeeper = true := by
  have hreports : ((run (PushOp.exec vouchingNet) samplePush samplePusher).1.toOption.map
        fun report => report.results.map PushResult.binding) = some [.verified] ∧
      (run (PushOp.exec vouchingNet) samplePush samplePusher).2.bindings.binding
        (ledgerOf vouchedChains.2) sampleKeeper = .verified ∧
      (run (PushOp.exec vouchingNet) samplePush samplePusher).2.peers.holds
        (ledgerOf vouchedChains.1) sampleKeeper = true := by
    decide +kernel
  obtain ⟨hlabels, hbinds, hholds⟩ := hreports
  rcases hrun : run (PushOp.exec vouchingNet) samplePush samplePusher with ⟨r, t⟩
  rw [hrun] at hlabels hbinds hholds
  cases r with
  | ok report => exact ⟨report, t, rfl, Option.some.inj hlabels, hbinds, hholds⟩
  | error e => simp [Except.toOption] at hlabels

/-- The row of the witness is labelled, since another endpoint served a chain of its identity that
advertises it. -/
theorem push_binds_on_evidence_samplePush : ∃ report t, ∃ o : Observation Crypto.sample,
    ∃ (chain : LoadedLedger Crypto.sample) (u : Unit),
      run (PushOp.exec vouchingNet) samplePush samplePusher = (.ok report, t) ∧
      report.results.map PushResult.binding = [.verified] ∧
      t.bindings.binding (ledgerOf vouchedChains.2) sampleKeeper = .verified ∧
      sampleKeeper ∈ o.endpoints ∧ o.source ≠ sampleKeeper ∧
      (run (vouchingNet.peer o.source) (Client.getAll Crypto.sample 1 (ledgerOf vouchedChains.2) 0)
        u).1 = .ok (some chain.events) ∧
      chain.Verifies (ledgerOf vouchedChains.2) := by
  obtain ⟨report, t, hrun, hlabels, hbinds, -⟩ := reports_samplePush
  have hplaced : samplePusher.bindings.InPlace := fun identity bindings h => by
    simp [samplePusher] at h
  obtain ⟨loaded, observations, -, hobserves, -, -, hevidence, -⟩ :=
    push_binds_on_evidence hplaced hrun
  rcases hevidence _ _ hbinds with hbefore | ⟨o, ho, hidentity, hadvertised, hother⟩
  · simp [samplePusher, BindingsDir.binding] at hbefore
  · obtain ⟨chain, hverifies, -, -, -, u, -, hserved⟩ := (hobserves.seen o ho).chain
    rw [hidentity] at hverifies hserved
    exact ⟨report, t, o, chain, u.net, hrun, hlabels, hbinds, hadvertised, hother, hserved,
      hverifies⟩

/-- The hint at the witness is there since it accepted what the home holds of the ledger. -/
theorem push_notes_what_answered_samplePush : ∃ report t loaded outcome,
    run (PushOp.exec vouchingNet) samplePush samplePusher = (.ok report, t) ∧
      t.peers.holds (ledgerOf vouchedChains.1) sampleKeeper = true ∧
      (run StoreOp.exec (onLedger (ledgerOf vouchedChains.1)
        (load (samplePusher.home.setup.ledger (ledgerOf vouchedChains.1)) 0))
        samplePusher.home).1 = .ok loaded ∧
      (run (vouchingNet.peer sampleKeeper) (Client.push Crypto.sample (ledgerOf vouchedChains.1)
        loaded.events) ()).1 = .ok outcome := by
  obtain ⟨report, t, hrun, -, -, hholds⟩ := reports_samplePush
  obtain ⟨loaded, hload, hnoted⟩ := push_notes_what_answered hrun hholds
  have hunknown : samplePusher.peers.holds (ledgerOf vouchedChains.1) sampleKeeper ≠ true := by
    decide +kernel
  obtain ⟨-, -, -, u, outcome, -, haccepted⟩ := hnoted.resolve_left hunknown
  exact ⟨report, t, loaded, outcome, hrun, hholds, hload, haccepted⟩

end Mabel.Node
