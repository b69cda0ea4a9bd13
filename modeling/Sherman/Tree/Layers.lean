import Mathlib.Algebra.Order.BigOperators.Group.Finset

/-- The nodes of every level and their children. No two nodes of a level share a child. -/
structure Layers (α : Type) [DecidableEq α] where
  level : Nat → Finset α
  children : α → Finset α
  below : ∀ l, ∀ a ∈ level (l + 1), children a ⊆ level l
  apart : ∀ l, ∀ a ∈ level (l + 1), ∀ b ∈ level (l + 1), a ≠ b → Disjoint (children a) (children b)

namespace Layers
variable {α : Type} [DecidableEq α] (layers : Layers α) {b l n : Nat}

theorem card_level (wide : ∀ a ∈ layers.level (l + 1), b ≤ (layers.children a).card) :
    (layers.level (l + 1)).card * b ≤ (layers.level l).card :=
  calc (layers.level (l + 1)).card * b
      ≤ ∑ a ∈ layers.level (l + 1), (layers.children a).card :=
        Finset.card_nsmul_le_sum _ _ b wide
    _ = ((layers.level (l + 1)).biUnion layers.children).card :=
        (Finset.card_biUnion (layers.apart l)).symm
    _ ≤ (layers.level l).card :=
        Finset.card_le_card (Finset.biUnion_subset.mpr (layers.below l))

theorem card_bottom (wide : ∀ l < n, ∀ a ∈ layers.level (l + 1), b ≤ (layers.children a).card) :
    (layers.level n).card * b ^ n ≤ (layers.level 0).card := by
  induction n with
  | zero => simp
  | succ n ih =>
      calc (layers.level (n + 1)).card * b ^ (n + 1)
          = (layers.level (n + 1)).card * b * b ^ n := by
            rw [Nat.pow_succ, Nat.mul_comm (b ^ n) b, Nat.mul_assoc]
        _ ≤ (layers.level n).card * b ^ n :=
            Nat.mul_le_mul_right _ (layers.card_level (wide n n.lt_succ_self))
        _ ≤ (layers.level 0).card := ih fun l less => wide l (Nat.lt_succ_of_lt less)

end Layers
