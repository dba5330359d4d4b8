import Mabel.Node.Files
import Mabel.Node.Reload

/-!
# Programs that store nothing

A read may put a rebuilt head cache back and changes nothing else a node holds. Loading
directories is such a read, whatever it finds in them.
-/

namespace Mabel.Node

open Wire Proto Net Program

variable {C : Crypto}

/-- One home has the index, the advertisement and the events of another. -/
structure Quiet (s t : LedgerStorage C) : Prop where
  setup : t.setup = s.setup
  identities : t.home.identities = s.home.identities
  index : t.index = s.index
  advertised : t.advertised = s.advertised
  events : ∀ l, (t.filesOf l).events = (s.filesOf l).events

theorem Quiet.refl (s : LedgerStorage C) : Quiet s s := ⟨rfl, rfl, rfl, rfl, fun _ => rfl⟩

theorem Quiet.trans {s t u : LedgerStorage C} (h : Quiet s t) (h' : Quiet t u) : Quiet s u :=
  ⟨h'.setup.trans h.setup, h'.identities.trans h.identities, h'.index.trans h.index,
    h'.advertised.trans h.advertised, fun l => (h'.events l).trans (h.events l)⟩

/-- Files with the same events are set quietly. -/
theorem Quiet.withFiles {s t : LedgerStorage C} (h : Quiet s t) {l : LedgerId}
    {files : LedgerFiles C} (hfiles : files.events = (t.filesOf l).events) :
    Quiet s (t.withFiles l files) := by
  refine ⟨h.setup, h.identities, h.index, h.advertised, fun l' => ?_⟩
  rw [LedgerStorage.filesOf_withFiles]
  by_cases hl : l' = l
  · rw [if_pos hl, hfiles, hl]
    exact h.events l
  · rw [if_neg hl]
    exact h.events l'

/-- Work on files that only looks is quiet. -/
theorem Quiet.onLedger {s t : LedgerStorage C} (h : Quiet s t) {α : Type} {p : OnFiles C α}
    (hp : p.Performs FileOp.Looks) (l : LedgerId) :
    (onLedger l p).Ensures StoreOp.exec t fun _ => Quiet s := by
  obtain ⟨cached, hframe⟩ := FileOp.Looks.frame hp (t.filesOf l)
  refine Ensures.of_run (run_onLedger l p t) (h.withFiles ?_)
  rw [hframe]

/-- Code that only looks is quiet. -/
theorem Quiet.onFiles {s t : LedgerStorage C} (h : Quiet s t) {α : Type} {p : OnFiles C α}
    (hp : p.Performs FileOp.Looks) (l : LedgerId) :
    (onFiles l p).Ensures StoreOp.exec t fun _ => Quiet s := by
  rw [Node.onFiles, Ensures, run_mapReject]
  exact h.onLedger hp l

/-! ## Loading -/

/-- Reading forks only looks. -/
theorem readForks_looks (store : LedgerStore C) (listed : List (Nat × EventId)) :
    (readForks store listed).Performs FileOp.Looks := by
  induction listed with
  | nil => exact .pure _
  | cons name listed ih =>
    exact .bind (.ask trivial) fun _ => .bind (.lift _) fun _ => .bind ih fun _ => .pure _

/-- Loading an entry only looks. -/
theorem loadEntry_looks (store : LedgerStore C) (clock : LoadClock) :
    (loadEntry store clock).Performs FileOp.Looks := by
  refine .bind ((store.readFrom_onHead ..).mono fun _ => FileOp.OnHead.looks) fun stored => ?_
  refine .ite (.pure _) (.bind (.lift _) fun served => .ite (.pure _) ?_)
  exact .bind (.ask trivial) fun _ => .bind (.ask trivial) fun _ => .bind (.ask trivial) fun _ =>
    .bind (readForks_looks _ _) fun _ => .pure _

/-- Loading one directory is quiet. -/
theorem Quiet.loadEntry {s t : LedgerStorage C} (h : Quiet s t) (l : LedgerId)
    (clock : LoadClock) : (Node.onLedger l (Node.loadEntry (s.setup.ledger l) clock)).Ensures
      StoreOp.exec t fun _ => Quiet s := h.onLedger (loadEntry_looks ..) l

/-- Loading directories is quiet. -/
theorem Quiet.loadAll {s : LedgerStorage C} (clock : LedgerId → LoadClock) (ledgers : List LedgerId) :
    ∀ {t : LedgerStorage C} (index : Index C), Quiet s t →
      (Node.loadAll s.setup clock index ledgers).Ensures StoreOp.exec t fun _ => Quiet s := by
  induction ledgers with
  | nil => exact fun index h => h
  | cons l ledgers ih =>
    intro t index h
    exact Ensures.bind (h.loadEntry l (clock l)) (fun _ u hu => ih _ hu) fun _ _ hu => hu

end Mabel.Node
