import Mathlib.Tactic.Common

/-!
# Chains linked by digests

Each node names the digest of the node before it and the first node names none. Where no
two nodes share a digest, the digest of the last node fixes the whole chain.
-/

namespace HashChain

variable {α δ : Type}

/-- A list of nodes that ends at a node, each naming the digest of the one before. -/
inductive Linked (prev : α → Option δ) (digest : α → δ) : List α → α → Prop
  /-- The first node names none. -/
  | first {a : α} (h : prev a = none) : Linked prev digest [a] a
  /-- A later node names the digest of the one before it. -/
  | next {l : List α} {a b : α} (chain : Linked prev digest l a) (h : prev b = some (digest a)) :
    Linked prev digest (l ++ [b]) b

variable {prev : α → Option δ} {digest : α → δ}

theorem Linked.mem {l : List α} {a : α} (h : Linked prev digest l a) : a ∈ l := by
  cases h <;> simp

/-- The last digest of a chain without collisions fixes its nodes. -/
theorem Linked.eq_of_digest {l l' : List α} {a b : α} (h : Linked prev digest l a)
    (h' : Linked prev digest l' b)
    (hinj : ∀ x ∈ l, ∀ y ∈ l', digest x = digest y → x = y) (hd : digest a = digest b) :
    l = l' := by
  induction h generalizing l' b with
  | @first a ha =>
    obtain rfl := hinj a (List.mem_singleton_self a) b h'.mem hd
    cases h' with
    | first => rfl
    | next _ hb => simp [ha] at hb
  | @next l c a _ ha ih =>
    obtain rfl := hinj a (by simp) b h'.mem hd
    cases h' with
    | first hb => simp [ha] at hb
    | @next m c' _ hchain hb =>
      have hlast : digest c = digest c' := Option.some.inj (ha.symm.trans hb)
      have hrest : l = m := ih hchain (fun x hx y hy => hinj x (List.mem_append_left _ hx) y
        (List.mem_append_left _ hy)) hlast
      rw [hrest]

end HashChain
