import Mabel.Node.Correctness.Admission
import Mabel.Node.Serve

/-!
# When the advertisement verdicts are current

The verdicts are a cache over the index and the endpoint. Every writer of the index checks
them again, save the read that adopts a ledger from disk: after it the verdict on an adopted
witness still says that there is no local copy.
-/

namespace Mabel.Node

open Wire Proto Net Machine Program

variable {C : Crypto}

/-! ## Operations -/

/-- One operation on a store, or what another process does to the home between two. -/
inductive Operation (C : Crypto) where
  | push (call : PushCall C)
  | head (ledger : LedgerId) (clock : LoadClock)
  | page (ledger : LedgerId) (since limit : Nat) (clock : LoadClock)
  | noteLedger (ledger : LedgerId) (clock : LoadClock)
  | noteEndpoint (endpoint : EndpointId C)
  | reload (clock : LedgerId → LoadClock)
  /-- Another process leaves the ledger directories as given. -/
  | elsewhere (files : Assignment LedgerId (LedgerFiles C) LedgerFiles.none)

namespace LedgerStorage

/-- The store after one operation. -/
def operate (s : LedgerStorage C) : Operation C → LedgerStorage C
  | .push call => (s.push call).2
  | .head l clock => (run StoreOp.exec (Node.head s.setup l clock) s).2
  | .page l since limit clock => (run StoreOp.exec (Node.page s.setup l since limit clock) s).2
  | .noteLedger l clock => (run StoreOp.exec (Node.noteLedger s.setup l clock) s).2
  | .noteEndpoint endpoint => (run StoreOp.exec (Node.noteEndpoint s.setup endpoint) s).2
  | .reload clock => (run StoreOp.exec (Node.reload s.setup clock) s).2
  | .elsewhere files => { s with home := { s.home with files := files } }

/-- The store after a sequence of operations. -/
def operations (s : LedgerStorage C) (ops : List (Operation C)) : LedgerStorage C :=
  ops.foldl operate s

/-- The directory of a ledger loads into an entry. -/
def Loads (s : LedgerStorage C) (l : LedgerId) (clock : LoadClock) : Prop :=
  ∃ entry, (run FileOp.exec (loadEntry (s.setup.ledger l) clock) (s.filesOf l)).1 = .ok (some entry)

/-- A read of a ledger the index does not know finds it on disk. -/
def Adopts (s : LedgerStorage C) (l : LedgerId) (clock : LoadClock) : Prop :=
  s.index.ledgers.get? l = none ∧ s.Loads l clock

/-- An operation adopts a ledger this home witnesses for. -/
def AdoptsWitness (s : LedgerStorage C) : Operation C → Prop
  | .head l clock => l ∈ s.setup.policy.witnessFor ∧ s.Adopts l clock
  | .page l _ _ clock => l ∈ s.setup.policy.witnessFor ∧ s.Adopts l clock
  | _ => False

end LedgerStorage

/-! ## Reads -/

theorem Quiet.current_iff {s t : LedgerStorage C} (h : Quiet s t) : Current t ↔ Current s := by
  rw [Current, Current, h.setup, h.index, h.advertised]

/-- A read that adopts nothing is quiet. -/
theorem head_quiet {s : LedgerStorage C} {l : LedgerId} {clock : LoadClock}
    (h : ¬ s.Adopts l clock) :
    (head s.setup l clock).Ensures StoreOp.exec s fun _ => Quiet s := by
  refine Ensures.after (a := s.index.ledgers.get? l) (t := s) rfl ?_
  cases hl : s.index.ledgers.get? l with
  | some entry => exact .refl s
  | none =>
    have hload := (Quiet.refl s).loadEntry l clock
    dsimp only
    rw [adopt, Ensures]
    rcases hrun : run StoreOp.exec (onLedger l (loadEntry (s.setup.ledger l) clock)) s with ⟨r, t⟩
    rw [Ensures, hrun] at hload
    have hattempt : run StoreOp.exec ((onLedger l (loadEntry (s.setup.ledger l) clock)).attempt :
        OnNode C StorageError (Option (Option (Entry C)))) s = _ := run_attempt _ s
    rw [hrun] at hattempt
    rcases r with (error | site) | entry
    · rw [run_bind_of_ok hattempt]
      exact hload
    · rw [run_bind_of_error hattempt]
      exact hload
    · rw [run_bind_of_ok hattempt]
      cases entry with
      | none => exact hload
      | some entry =>
        rw [run_onLedger] at hrun
        exact absurd ⟨hl, entry, congrArg Prod.fst hrun⟩ h

/-- A read that adopts a ledger adds its entry to the index, and nothing else. -/
theorem head_adopts {s : LedgerStorage C} {l : LedgerId} {clock : LoadClock}
    (h : s.Adopts l clock) :
    (head s.setup l clock).Ensures StoreOp.exec s fun _ t =>
      ∃ entry u, Quiet s u ∧ t = { u with index := s.index.add l entry } := by
  obtain ⟨hl, entry, hentry⟩ := h
  refine Ensures.after (a := s.index.ledgers.get? l) (t := s) rfl ?_
  rw [hl]
  have hload := (Quiet.refl s).loadEntry l clock
  dsimp only
  rw [adopt, Ensures]
  rcases hrun : run StoreOp.exec (onLedger l (loadEntry (s.setup.ledger l) clock)) s with ⟨r, t⟩
  rw [Ensures, hrun] at hload
  have hattempt : run StoreOp.exec ((onLedger l (loadEntry (s.setup.ledger l) clock)).attempt :
      OnNode C StorageError (Option (Option (Entry C)))) s = _ := run_attempt _ s
  rw [run_onLedger, hentry, Prod.mk.injEq] at hrun
  obtain ⟨rfl, rfl⟩ := hrun
  rw [run_onLedger, hentry] at hattempt
  rw [run_bind_of_ok hattempt]
  exact ⟨entry, _, hload, rfl⟩

/-- Reading a page only looks. -/
theorem readPage_looks (store : LedgerStore C) (headSeq limit : Nat) : ∀ seq,
    (readPage store headSeq limit seq).Performs FileOp.Looks := by
  induction limit with
  | zero => exact fun _ => .pure _
  | succ limit ih =>
    exact fun seq => .ite (.bind ((store.readEvent_onHead seq).mono fun _ => FileOp.OnHead.looks)
      fun _ => .bind (ih (seq + 1)) fun _ => .pure _) (.pure _)

/-- Beside what its look at the head does, a page read is quiet. -/
theorem page_quiet (s : LedgerStorage C) (l : LedgerId) (since limit : Nat) (clock : LoadClock) :
    Quiet (s.operate (.head l clock)) (s.operate (.page l since limit clock)) := by
  have hpage : (page s.setup l since limit clock).Ensures StoreOp.exec s
      fun _ => Quiet (s.operate (.head l clock)) := by
    refine Ensures.bind (R := fun _ t => t = s.operate (.head l clock)) rfl (fun head t ht => ?_)
      fun _ t ht => ht ▸ .refl _
    subst ht
    by_cases hnone : head = none
    · rw [if_pos hnone]
      exact .refl _
    rw [if_neg hnone]
    refine Ensures.after (a := (s.operate (.head l clock)).index.ledgers.get? l) (t := _) rfl ?_
    cases (s.operate (.head l clock)).index.ledgers.get? l with
    | none => exact .refl _
    | some entry =>
      refine Ensures.bind ((Quiet.refl _).onLedger (readPage_looks ..) l) (fun _ t ht => ht)
        fun _ t ht => ht
  exact hpage

/-! ## One operation -/

/-- Reading one entry again keeps the verdicts current. -/
theorem current_noteLedger {s : LedgerStorage C} (h : Current s) (l : LedgerId)
    (clock : LoadClock) : Current (s.operate (.noteLedger l clock)) := by
  have hnote : (noteLedger s.setup l clock).Ensures StoreOp.exec s fun _ => Current := by
    refine Ensures.bind ((Quiet.refl s).loadEntry l clock) (fun entry t ht => ?_)
      fun _ t ht => ht.current_iff.mpr h
    rw [Ensures, Shared.run_lockIndex_bind, run_andFinally]
    change Current (run StoreOp.exec (noteEntry s.setup.policy l entry) t).2
    rw [noteEntry, Shared.run_readIndex_bind]
    dsimp only
    rw [Shared.run_writeIndex_bind, run_recheckFor]
    refine (ht.current_iff.mpr h).rechecked (l := l) rfl ?_ fun l' hl' => ?_
    · rw [ht.setup]
    · rw [LedgerStorage.preOf, LedgerStorage.preOf]
      cases entry with
      | none =>
        dsimp only [Option.elim_none]
        rw [Index.get?_drop, if_neg hl']
      | some entry =>
        dsimp only [Option.elim_some]
        rw [Index.get?_add, if_neg hl', Index.get?_drop, if_neg hl']
  exact hnote

/-- A new endpoint is checked at once. -/
theorem current_noteEndpoint {s : LedgerStorage C} (h : Current s) (endpoint : EndpointId C) :
    Current (s.operate (.noteEndpoint endpoint)) := by
  rw [LedgerStorage.operate, noteEndpoint, Shared.run_advertise_bind]
  by_cases hsame : s.advertised.endpoint = endpoint
  · rw [if_pos hsame]
    subst hsame
    exact h
  · rw [if_neg hsame]
    rfl

/-- Reading a head keeps the advertisements current unless it adopts a witness. -/
theorem current_head {s : LedgerStorage C} (h : Current s) {l : LedgerId} {clock : LoadClock}
    (hadopts : ¬ (l ∈ s.setup.policy.witnessFor ∧ s.Adopts l clock)) :
    Current (s.operate (.head l clock)) := by
  by_cases hadopt : s.Adopts l clock
  · obtain ⟨entry, u, hu, ht⟩ := head_adopts hadopt
    rw [LedgerStorage.operate, ht, Current]
    dsimp only
    rw [hu.setup, hu.advertised, verdicts_congr (s := s) (t := { u with index := _ })]
    · exact h
    · intro w hw
      rw [LedgerStorage.preOf, Index.get?_add, if_neg]
      · rfl
      · rintro rfl
        exact hadopts ⟨hw, hadopt⟩
  · exact (Quiet.current_iff (head_quiet hadopt)).mpr h

/-- Adopting a witness leaves a verdict behind that is no longer right. -/
theorem stale_head {s : LedgerStorage C} (h : Current s) {l : LedgerId} {clock : LoadClock}
    (hl : l ∈ s.setup.policy.witnessFor) (hadopt : s.Adopts l clock) :
    ¬ Current (s.operate (.head l clock)) := by
  obtain ⟨entry, u, hu, ht⟩ := head_adopts hadopt
  rw [LedgerStorage.operate, ht, Current]
  dsimp only
  rw [hu.setup, hu.advertised, h, verdicts, verdicts, List.map_inj_left]
  intro hsame
  have hgap := congrArg WitnessForEntry.gap (hsame l hl)
  have hnone : gapFor s.index l s.advertised.endpoint = some .noLocalCopy := by
    rw [gapFor, hadopt.1]
  have hsome : gapFor (s.index.add l entry) l s.advertised.endpoint ≠ some .noLocalCopy := by
    rw [gapFor, Index.get?_add, if_pos rfl]
    dsimp only
    split_ifs
    · simp
    · simp
    · simp
  exact hsome (hgap.symm.trans hnone)

/-- One operation keeps the verdicts current exactly when it adopts no witness. -/
theorem current_operate {s : LedgerStorage C} (h : Current s) (op : Operation C) :
    Current (s.operate op) ↔ ¬ s.AdoptsWitness op := by
  cases op with
  | push call => exact iff_of_true (h.admitted (admitted_push s call)) not_false
  | head l clock =>
    refine ⟨fun hcurrent hadopts => ?_, fun hadopts => current_head h hadopts⟩
    exact stale_head h hadopts.1 hadopts.2 hcurrent
  | page l since limit clock =>
    rw [(page_quiet s l since limit clock).current_iff]
    refine ⟨fun hcurrent hadopts => ?_, fun hadopts => current_head h hadopts⟩
    exact stale_head h hadopts.1 hadopts.2 hcurrent
  | noteLedger l clock => exact iff_of_true (current_noteLedger h l clock) not_false
  | noteEndpoint endpoint => exact iff_of_true (current_noteEndpoint h endpoint) not_false
  | reload clock =>
    refine iff_of_true ?_ not_false
    rcases reload_cases s clock with ⟨-, hquiet⟩ | ⟨-, -, hcurrent, -⟩
    · exact hquiet.current_iff.mpr h
    · exact hcurrent
  | elsewhere files => exact iff_of_true h not_false

/-! ## Runs -/

/-- In every run from an opened home, the verdicts are current after each operation exactly
when no operation adopts a ledger this home witnesses for. -/
theorem verdicts_current_iff {setup : Setup} {home : NodeHome C} {endpoint : EndpointId C}
    {clock : LedgerId → LoadClock} {s : LedgerStorage C}
    (hopen : LedgerStorage.openHome setup home endpoint clock = .ok s) (ops : List (Operation C)) :
    (∀ n ≤ ops.length, Current (s.operations (ops.take n))) ↔
      ∀ (n : Nat) op, ops[n]? = some op → ¬ (s.operations (ops.take n)).AdoptsWitness op := by
  have hstep : ∀ (n : Nat) op, ops[n]? = some op →
      s.operations (ops.take (n + 1)) = (s.operations (ops.take n)).operate op := by
    intro n op hop
    rw [List.take_add_one, hop, LedgerStorage.operations, List.foldl_append]
    rfl
  constructor
  · intro hall n op hop
    have hlt := (List.getElem?_eq_some_iff.mp hop).1
    rw [← current_operate (hall n hlt.le) op, ← hstep n op hop]
    exact hall (n + 1) hlt
  · intro hnone n
    induction n with
    | zero => exact fun _ => current_openHome hopen
    | succ n ih =>
      intro hn
      have hop := List.getElem?_eq_getElem (Nat.lt_of_succ_le hn)
      rw [hstep n _ hop, current_operate (ih (by omega))]
      exact hnone n _ hop

/-- A home that witnesses for the sample ledger and holds nothing yet. -/
def sampleWitness : LedgerStorage Crypto.sample :=
  .empty { sampleSetup with policy := ⟨[sampleLedgerId], false⟩ } .empty
    (SecretKey.sample 1).publicKey

/-- Another process stores the sample ledger. -/
def sampleElsewhere : Operation Crypto.sample :=
  .elsewhere (sampleHome.push (sampleCall sampleLedger)).2.home.files

/-- After a look at the head of a ledger that another process has stored, the verdict on it
still says that there is no copy. -/
theorem adopted_verdict_stale :
    LedgerStorage.openHome sampleWitness.setup (.empty .empty) (SecretKey.sample 1).publicKey
        (fun _ => ⟨1, 2⟩) = .ok sampleWitness ∧
      ¬ Current (sampleWitness.operations [sampleElsewhere, .head sampleLedgerId ⟨1, 2⟩]) := by
  refine ⟨openHome_empty .., ?_⟩
  rw [Current]
  decide +kernel

/-- Where the ledger is noted, the verdict follows it. -/
theorem verdicts_current_iff_sampleWitness :
    LedgerStorage.openHome sampleWitness.setup (.empty .empty) (SecretKey.sample 1).publicKey
        (fun _ => ⟨1, 2⟩) = .ok sampleWitness ∧
      ∀ n ≤ 2, Current (sampleWitness.operations
        ([sampleElsewhere, .noteLedger sampleLedgerId ⟨1, 2⟩].take n)) := by
  refine ⟨openHome_empty .., (verdicts_current_iff (openHome_empty _ .empty _ fun _ => ⟨1, 2⟩)
    [sampleElsewhere, .noteLedger sampleLedgerId ⟨1, 2⟩]).mpr ?_⟩
  intro n op hop
  rcases List.mem_pair.mp (List.mem_of_getElem? hop) with rfl | rfl
  · exact not_false
  · exact not_false

end Mabel.Node
