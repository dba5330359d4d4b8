import Mabel.Core.Replicas
import Mabel.Node.Correctness.Delivery
import Mabel.Node.Correctness.Serving
import Mabel.Node.Network

/-!
# The nodes are replicas

Whatever frames reach which nodes, in whatever order and however often, each node holds a first
part of the signed chain, gives up nothing it held and keeps no fork of it. A push can only bring
what applies to the stored state, and what applies there is the next event of the chain.
-/

namespace Mabel.Node

open Wire Net Machine Program

variable {C : Crypto} {ι : Type} {ledger : LedgerId} {chain : List Bytes}

/-! ## Authored events -/

/-- The events of a chain are authored: an event applies at its own sequence alone. -/
theorem authored_of_mem {final : LedgerState C} (hchain : FoldRun chain final) {event : Bytes}
    (hmem : event ∈ chain) : Authored (C := C) ledger chain event := by
  intro k hk before after hbefore happly _
  obtain ⟨i, hi⟩ := List.mem_iff_getElem?.mp hmem
  obtain ⟨u, u', -, hseq, ⟨st⟩, -⟩ := hchain.at_index hi
  obtain ⟨st'⟩ := apply_iff.mp happly
  have hi' := (signedEventSeq_step st).trans (congrArg some hseq)
  have hk' := signedEventSeq_step st'
  rw [hi', Option.some_inj] at hk'
  have hnext : before.nextSeq = k := by
    rw [hbefore.nextSeq, List.length_take, Nat.min_eq_left hk]
  rw [hk', hnext] at hi
  exact hi

/-- A run of authored events that applies behind a beginning of the chain is a part of the chain. -/
theorem prefix_of_authored {s t : LedgerState C} {log events : List Bytes} (hlog : FoldRun log s)
    (hheld : log <+: chain) (hrun : RunFrom (Accepts LedgerState.apply) s events t)
    (hauthored : ∀ event ∈ events, Authored (C := C) ledger chain event)
    (hledger : t.ledger = some ledger) : log ++ events <+: chain := by
  induction hrun with
  | nil => simpa using hheld
  | @snoc before u u' event hbefore haccept ih =>
    have hwhole : FoldRun (log ++ before) u := hlog.append hbefore
    have hfront : log ++ before <+: chain := by
      by_cases hnil : log ++ before = []
      · rw [hnil]
        exact List.nil_prefix
      · -- The ledger is fixed by the first event, so the state before is of it already.
        obtain ⟨timestampMs, hhead⟩ := hwhole.head_eq hnil
        obtain ⟨-, -, -, hsame⟩ := fixed_of_runFrom (RunFrom.nil.snoc haccept) (by simp [hhead])
        exact ih (fun event hevent => hauthored event (List.mem_append_left _ hevent))
          (hsame.symm.trans hledger)
    have htake : chain.take (log ++ before).length = log ++ before :=
      List.prefix_iff_eq_take.mp hfront |>.symm
    have hnext := hauthored event (by simp) (log ++ before).length hfront.length_le u u'
      (by rw [htake]; exact hwhole) haccept hledger
    have hlt := (List.getElem?_eq_some_iff.mp hnext).1
    rw [← List.append_assoc]
    have hsnoc : chain.take ((log ++ before).length + 1) = log ++ before ++ [event] := by
      rw [List.take_add_one, htake, hnext]
      rfl
    rw [← hsnoc]
    exact List.take_prefix _ _

/-! ## Pushes -/

variable {s : LedgerStorage C}

/-- What a node keeps of a ledger whose chain is signed: a first part of it, and no fork. -/
structure Copied (ledger : LedgerId) (chain : List Bytes) (s : LedgerStorage C) : Prop where
  log : s.logOf ledger <+: chain
  forks : ∀ entry, s.index.ledgers.get? ledger = some entry → entry.forks = []

/-- Nobody is served a fork of the ledger. -/
theorem Copied.forkRecords_eq (h : Copied ledger chain s) : s.forkRecords (some ledger) = [] := by
  rw [LedgerStorage.forkRecords, List.flatMap_eq_nil_iff]
  intro e he
  obtain ⟨hmem, hsame⟩ := List.mem_filter.mp he
  have hledger : ledger = e.1 := by simpa using hsame
  exact h.forks e.2 (SortedMap.get?_eq_some.mpr (hledger ▸ hmem))

theorem Copied.grow (h : Copied ledger chain s) (event : Bytes) :
    Copied ledger (chain ++ [event]) s :=
  ⟨h.log.trans (List.prefix_append _ _), h.forks⟩

/-- An authored event that applies where another is stored is the stored one. -/
theorem Copied.conflicting_eq {call : PushCall C} (h : Copied call.ledger chain s)
    (hsound : Sound s)
    (hauthored : ∀ event ∈ call.events, Authored (C := C) call.ledger chain event)
    {first i : Nat} {kept conflicting : Bytes} {shared : LedgerState C} {fork : Fork}
    {entry : Entry C} (hdiffers : Differs s call first i kept conflicting)
    (hshared : FoldRun ((s.logOf call.ledger).take (first + i)) shared)
    (hfork : Forks shared kept conflicting fork)
    (hentry : s.index.ledgers.get? call.ledger = some entry) : kept = conflicting := by
  have hlt := (List.getElem?_eq_some_iff.mp hdiffers.kept_eq).1
  obtain ⟨rest, hrest⟩ := h.log
  have hkept : chain[first + i]? = some kept := by
    rw [← hrest, List.getElem?_append_left hlt]
    exact hdiffers.kept_eq
  have htake : chain.take (first + i) = (s.logOf call.ledger).take (first + i) := by
    rw [← hrest, List.take_append_of_le_length hlt.le]
  have hhead : shared.head ≠ none := by
    intro hnone
    have hledger := hfork.ledger
    rw [(hshared.empty_of_head hnone).2] at hledger
    simp [LedgerState.default] at hledger
  obtain ⟨⟨-, -, shared', fork', hfold, hvalid, hforkLedger, -⟩, -⟩ :=
    hdiffers.evidence hsound hshared hfork hentry
  obtain rfl := (fold_eq_ok.mp hfold).functional hshared
  obtain rfl := Except.ok.inj (hvalid.symm.trans (validateForkRecord_eq_ok.mpr hfork))
  obtain ⟨state, happly⟩ := hfork.conflictingApplies
  obtain ⟨-, -, -, hsame⟩ := fixed_of_runFrom (RunFrom.nil.snoc happly) hhead
  have hconflicting := hauthored conflicting
    (List.mem_of_getElem? hdiffers.conflicting_eq) (first + i)
    (List.getElem?_eq_some_iff.mp hkept).1.le _ _ (by rw [htake]; exact hshared) happly
    (hsame.trans (hfork.ledger.trans (congrArg some hforkLedger)))
  exact Option.some.inj (hkept.symm.trans hconflicting)

/-- A push of authored events keeps the copy, and what is held stays held. -/
theorem Copied.pushed (h : Copied ledger chain s) (hsound : Sound s) {call : PushCall C}
    (hauthored : call.ledger = ledger → ∀ event ∈ call.events, Authored (C := C) ledger chain event)
    {r : Outcome StoreError PushOutcome} {t : LedgerStorage C} (hpushed : Pushed s call r t) :
    Copied ledger chain t ∧ s.logOf ledger <+: t.logOf ledger := by
  cases hpushed with
  | @fork first i kept conflicting shared fork entry msg hdiffers hshared hfork hentry =>
    have hother : ledger ≠ call.ledger := by
      rintro rfl
      exact hdiffers.ne (h.conflicting_eq hsound (hauthored rfl) hdiffers hshared hfork hentry)
    by_cases hrecords : entry.records s.setup.caps.forkRecords (first + i) fork.conflicting = true
    · rw [if_pos hrecords]
      refine ⟨⟨?_, fun held hheld => ?_⟩, ?_⟩
      · rw [LedgerStorage.logOf_forked]
        exact h.log
      · rw [LedgerStorage.get?_forked, PushCall.record_ledger, if_neg hother] at hheld
        exact h.forks held hheld
      · rw [LedgerStorage.logOf_forked]
    · rw [if_neg hrecords]
      exact ⟨h, List.prefix_rfl⟩
  | @stored first fresh state valid violation hreaches hvalid hledger =>
    by_cases hsame : ledger = call.ledger
    · subst hsame
      have hlog := hsound.logOf_landed call state ((call.events.drop fresh).take valid) call.ledger
      rw [if_pos rfl] at hlog
      refine ⟨⟨?_, fun held hheld => ?_⟩, ?_⟩
      · rw [hlog]
        refine prefix_of_authored (hsound.foldRun call.ledger) h.log hreaches.applied.run
          (fun event hevent => ?_) hledger
        exact hauthored rfl event (List.mem_of_mem_drop (List.mem_of_mem_take hevent))
      · rw [LedgerStorage.get?_landed, if_pos rfl] at hheld
        obtain rfl := Option.some.inj hheld
        rw [LedgerStorage.forks_entryAfter]
        cases hentry : s.index.ledgers.get? call.ledger with
        | none => rfl
        | some entry => exact h.forks entry hentry
      · rw [hlog]
        exact List.prefix_append _ _
    · have hlog := hsound.logOf_landed call state ((call.events.drop fresh).take valid) ledger
      rw [if_neg hsame] at hlog
      refine ⟨⟨?_, fun held hheld => ?_⟩, ?_⟩
      · rw [hlog]
        exact h.log
      · rw [LedgerStorage.get?_landed, if_neg hsame] at hheld
        exact h.forks held hheld
      · rw [hlog]
  | _ => exact ⟨h, List.prefix_rfl⟩

/-- A push changes no setting. -/
theorem Pushed.setup_eq {call : PushCall C} {r : Outcome StoreError PushOutcome}
    {t : LedgerStorage C} (h : Pushed s call r t) : t.setup = s.setup := by
  cases h with
  | @fork first i kept conflicting shared fork entry msg hdiffers hshared hfork hentry =>
    split_ifs
    · rfl
    · rfl
  | _ => rfl

/-! ## Runs of the network -/

/-- What is held of the chain. -/
def Network.replicas (ledger : LedgerId) (net : Network ι C) : Replicas.State ι Bytes :=
  ⟨net.chain, fun i => (net.nodes i).logOf ledger⟩

/-- The chain verifies and every node is one that was only ever pushed to, of which it keeps a first
part and no fork. -/
structure Network.Kept (ledger : LedgerId) (net : Network ι C) : Prop where
  valid : ∃ state, fold C net.chain = .ok (state, none)
  reachable : ∀ i, Reachable (net.nodes i)
  capped : ∀ i, ∃ capacity, (net.nodes i).setup.caps = .fromConfig capacity
  copied : ∀ i, Copied ledger net.chain (net.nodes i)

variable [DecidableEq ι] {net next : Network ι C}

/-- Every step keeps the copies, and is one of replicas. -/
theorem Network.Kept.step (h : net.Kept ledger) (hstep : Network.Step ledger net next) :
    next.Kept ledger ∧ (net.replicas ledger = next.replicas ledger ∨
      Replicas.Step (net.replicas ledger) (next.replicas ledger)) := by
  cases hstep with
  | signed event hvalid =>
    exact ⟨⟨hvalid, h.reachable, h.capped, fun i => (h.copied i).grow event⟩, .inr (.grow event)⟩
  | arrived arrival hauthored =>
    have hsound := (h.reachable arrival.node).sound
    rcases hsound.snd_serveStream arrival.loads arrival.clock arrival.free arrival.provenance
      arrival.frame with hsame | ⟨pushed, events, hparse, hpush⟩
    · have hnet : (net.deliver arrival).2 = net := by
        rw [Network.deliver]
        dsimp only
        rw [hsame, Function.update_eq_self]
      rw [hnet]
      exact ⟨h, .inl rfl⟩
    · let call : PushCall C := ⟨pushed, events, arrival.provenance, arrival.clock⟩
      have hdone := hsound.pushed call
      obtain ⟨hcopied, hlater⟩ := (h.copied arrival.node).pushed hsound
        (fun hledger => hauthored events (hledger ▸ hparse)) hdone
      have hnet : (net.deliver arrival).2 =
          ⟨net.chain, Function.update net.nodes arrival.node
            ((net.nodes arrival.node).push call).2⟩ := by
        rw [Network.deliver]
        dsimp only
        rw [hpush]
      rw [hnet]
      refine ⟨⟨h.valid, fun i => ?_, fun i => ?_, fun i => ?_⟩, .inr ?_⟩
      · by_cases hi : i = arrival.node
        · subst hi
          simpa using Reachable.pushed call (h.reachable _)
        · simpa [Function.update_of_ne hi] using h.reachable i
      · by_cases hi : i = arrival.node
        · subst hi
          simpa [hdone.setup_eq] using h.capped _
        · simpa [Function.update_of_ne hi] using h.capped i
      · by_cases hi : i = arrival.node
        · subst hi
          simpa using hcopied
        · simpa [Function.update_of_ne hi] using h.copied i
      · have hheld : (fun i => (Function.update net.nodes arrival.node
            ((net.nodes arrival.node).push call).2 i).logOf ledger) =
            Function.update (fun i => (net.nodes i).logOf ledger) arrival.node
              (((net.nodes arrival.node).push call).2.logOf ledger) := by
          ext1 i
          by_cases hi : i = arrival.node
          · subst hi
            simp
          · simp [Function.update_of_ne hi]
        rw [Network.replicas, Network.replicas, hheld]
        exact .copy (s := net.replicas ledger) arrival.node _ hlater hcopied.log

/-- However a chain is signed on and whatever frames reach whichever nodes in whatever order, as
long as nobody signs in the name of its controllers: each node holds a first part of the chain and
no fork of it, nothing held is given up, of any two nodes one continues the other, and whatever a
client ends up with of the ledger from any node is a part of the chain from where it asked. -/
theorem nodes_replicate_chain (start net : Network ι C) (hstart : start.Kept ledger)
    (hrun : Relation.ReflTransGen (Network.Step ledger) start net) :
    start.chain <+: net.chain ∧
    (∀ i, (start.nodes i).logOf ledger <+: (net.nodes i).logOf ledger ∧
      (net.nodes i).logOf ledger <+: net.chain ∧ (net.nodes i).forkRecords (some ledger) = []) ∧
    (∀ i j, (net.nodes i).logOf ledger <+: (net.nodes j).logOf ledger ∨
      (net.nodes j).logOf ledger <+: (net.nodes i).logOf ledger) ∧
    ∀ i loads clock provenance rounds since events t,
      run ((nodeServer loads clock).peer provenance) (Client.getAll C rounds ledger since)
        ⟨net.nodes i, 0⟩ = (.ok (some events), t) → events <+: net.chain.drop since.toNat := by
  have hstep : ∀ s t : Network ι C, s.Kept ledger → Network.Step ledger s t →
      t.Kept ledger ∧ (s.replicas ledger = t.replicas ledger ∨
        Replicas.Step (s.replicas ledger) (t.replicas ledger)) := fun s t hs hst => hs.step hst
  obtain ⟨hkept, hreplicas⟩ := Replicas.simulates hstep hstart hrun
  obtain ⟨hfaithful, hlater⟩ := Replicas.faithful_of_run hreplicas fun i => (hstart.copied i).log
  refine ⟨hlater.source, fun i => ⟨hlater.held i, hfaithful i, ?_⟩, hfaithful.comparable, ?_⟩
  · exact (hkept.copied i).forkRecords_eq
  · intro i loads clock provenance rounds since events t hget
    have hsound := (hkept.reachable i).sound
    obtain ⟨capacity, hcaps⟩ := hkept.capped i
    cases hentry : (net.nodes i).index.ledgers.get? ledger with
    | none =>
      have hnothing := hsound.getAll_absent hentry hget
      simp at hnothing
    | some entry =>
      have hkeeps := hsound.keeps hentry (hsound.eventCount_le hentry hcaps) loads clock
      have hread := getAll_kept rfl hkeeps (Nat.zero_le _) hget
      obtain rfl := Option.some.inj hread
      exact (hkept.copied i).log.drop since.toNat

/-- Two empty nodes, and a signed chain of neither. -/
def sampleNetwork : Network Bool Crypto.sample := ⟨sampleChain, fun _ => cappedHome⟩

/-- The whole chain is pushed to one node. -/
def sampleArrival : Arrival Bool Crypto.sample where
  node := true
  frame := pushRequest sampleLedgerId sampleChain
  free := true
  provenance := ⟨none⟩
  loads := ⟨6, 7⟩
  clock := sampleClock

theorem logOf_cappedHome : cappedHome.logOf sampleLedgerId = [] := by decide +kernel

/-- The sample network keeps its ledger. -/
theorem kept_sampleNetwork : sampleNetwork.Kept sampleLedgerId where
  valid := ⟨after Crypto.sample sampleChain, by decide +kernel⟩
  reachable _ := reachable_cappedHome
  capped _ := ⟨2147483648, rfl⟩
  copied _ := by
    refine ⟨?_, fun entry hentry => ?_⟩
    · change cappedHome.logOf sampleLedgerId <+: _
      rw [logOf_cappedHome]
      exact List.nil_prefix
    · simp [sampleNetwork, cappedHome, LedgerStorage.empty, Index.default] at hentry

/-- Two nodes and their deliveries meet the hypotheses. -/
theorem nodes_replicate_chain_sampleNetwork :
    let net := (sampleNetwork.deliver sampleArrival).2
    (net.nodes true).logOf sampleLedgerId = sampleChain ∧
      (net.nodes true).logOf sampleLedgerId <+: net.chain ∧
      (net.nodes true).forkRecords (some sampleLedgerId) = [] := by
  intro net
  have hparse : parseRequest Crypto.sample (pushRequest sampleLedgerId sampleChain) =
      .ok (.push sampleLedgerId sampleChain) := by decide +kernel
  have hstep : Network.Step sampleLedgerId sampleNetwork net := by
    refine .arrived sampleArrival fun events hevents event hmem => ?_
    obtain ⟨-, rfl⟩ := Request.push.inj (Except.ok.inj (hparse.symm.trans hevents))
    obtain ⟨state, hvalid⟩ := kept_sampleNetwork.valid
    exact authored_of_mem (fold_eq_ok.mp hvalid) hmem
  obtain ⟨-, hheld, -⟩ := nodes_replicate_chain sampleNetwork net kept_sampleNetwork (.single hstep)
  exact ⟨by decide +kernel, (hheld true).2⟩

end Mabel.Node
