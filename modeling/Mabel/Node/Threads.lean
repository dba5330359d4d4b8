import Mabel.Core.Pool
import Mabel.Node.Wallet

/-!
# The threads of a node

Pushes, wallet appends and the calls that keep the index run beside one another on one home.
Two kinds of locks keep some of them apart: the index lock, and for wallet appends the append
lock of a ledger. Every operation is atomic; what falls between two operations of a thread is
up to the schedule.
-/

namespace Mabel.Node

open Wire Net

variable {C : Crypto} {W : Type}

/-- The locks of a node. -/
inductive Lock where
  | index
  | append (ledger : LedgerId)
  deriving DecidableEq

/-- The lock an operation waits for. -/
def StoreOp.acquires : StoreOp C → Option Lock
  | .lockIndex => some .index
  | .lockAppend ledger => some (.append ledger)
  | _ => none

/-- The lock an operation gives back. -/
def StoreOp.releases : StoreOp C → Option Lock
  | .unlockIndex => some .index
  | .unlockAppend ledger => some (.append ledger)
  | _ => none

/-- What a thread holds: its locks, and what it is at work on. -/
structure Mode (W : Type) where
  locks : List Lock
  work : W

/-- The locks a thread holds after an operation. -/
def locksAfter (locks : List Lock) (op : StoreOp C) : List Lock :=
  match op.acquires, op.releases with
  | some lock, _ => lock :: locks
  | none, some lock => locks.erase lock
  | none, none => locks

/-- How the threads of a node share it, by how operations change what a thread is at work
on. -/
def sharing (turn : W → (op : StoreOp C) → op.Reply → W) (rest : W) :
    Sharing (StoreOp C) StoreOp.Reply (LedgerStorage C) Lock (Mode W) where
  exec := StoreOp.exec
  acquires := StoreOp.acquires
  holds m lock := m.locks.contains lock
  turn m op reply := ⟨locksAfter m.locks op, turn m.work op reply⟩
  resting := ⟨[], rest⟩

/-- A lock that is held after an operation was held before it or taken by it. -/
theorem mem_locksAfter {locks : List Lock} {op : StoreOp C} {lock : Lock}
    (h : lock ∈ locksAfter locks op) : lock ∈ locks ∨ op.acquires = some lock := by
  unfold locksAfter at h
  split at h
  · rename_i taken _ htaken
    rcases List.mem_cons.mp h with rfl | hmem
    · exact .inr htaken
    · exact .inl hmem
  · exact .inl (List.mem_of_mem_erase h)
  · exact .inl h

/-- Operations other than those on locks change nothing about them. -/
theorem locksAfter_of_none {locks : List Lock} {op : StoreOp C} (hacquires : op.acquires = none)
    (hreleases : op.releases = none) : locksAfter locks op = locks := by
  rw [locksAfter, hacquires, hreleases]

/-- A thread holds the index lock. -/
def Mode.Indexed (m : Mode W) : Prop := Lock.index ∈ m.locks

instance (m : Mode W) : Decidable m.Indexed := inferInstanceAs (Decidable (_ ∈ _))

/-- At most one thread holds the index lock, whatever operation is performed where it may
be. -/
theorem indexed_set {modes : List (Mode W)} {i : Nat} {m : Mode W} {op : StoreOp C} {work : W}
    (h : Exclusive Mode.Indexed modes) (hi : modes[i]? = some m)
    (hfree : ∀ lock, op.acquires = some lock → ∀ other ∈ modes, other.locks.contains lock = false) :
    Exclusive Mode.Indexed (modes.set i ⟨locksAfter m.locks op, work⟩) := by
  refine h.set fun hindexed => ?_
  rcases mem_locksAfter hindexed with hheld | htaken
  · exact h.others hi hheld
  · intro other hother hboth
    have := hfree _ htaken other (List.mem_of_mem_eraseIdx hother)
    rw [List.contains_iff_mem.mpr hboth] at this
    simp at this

end Mabel.Node
