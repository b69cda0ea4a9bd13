import Mathlib.Order.Basic
import Mathlib.Data.Nat.Find

namespace Concurrency

variable {S I : Type}

def iterates (step : S → I → S) (input : Nat → I) (s : S) : Nat → S
  | 0 => s
  | i + 1 => step (iterates step input s i) (input i)

def doWhile (step : S → I → S) (again : S → Bool) (input : Nat → I) : Nat → Nat → S → Option (Nat × S)
  | 0, _, _ => none
  | fuel + 1, i, s =>
      let s := step s (input i)
      if again s then doWhile step again input fuel (i + 1) s else some (i + 1, s)

variable {step : S → I → S} {again : S → Bool} {input : Nat → I} {s t : S} {i k : Nat}

theorem doWhile_ends {fuel : Nat} (h : doWhile step again input fuel i (iterates step input s i) = some (k, t)) :
    i < k ∧ t = iterates step input s k ∧ again t = false ∧
      ∀ j, i < j → j < k → again (iterates step input s j) = true := by
  induction fuel generalizing i with
  | zero => cases h
  | succ fuel ih =>
      simp only [doWhile] at h
      split at h
      · rename_i more
        obtain ⟨later, last, ends, before⟩ := ih h
        refine ⟨Nat.lt_of_succ_lt later, last, ends, fun j low high => ?_⟩
        rcases Nat.lt_or_eq_of_le low with low | rfl
        · exact before j low high
        · exact more
      · rename_i ends
        simp only [Option.some.injEq, Prod.mk.injEq] at h
        obtain ⟨rfl, rfl⟩ := h
        exact ⟨Nat.lt_succ_self i, rfl, Bool.not_eq_true _ ▸ ends, fun j low high => absurd low (Nat.not_lt.mpr (Nat.le_of_lt_succ high))⟩

theorem doWhile_reaches (n : Nat) (ends : again (iterates step input s (i + n + 1)) = false)
    (before : ∀ j, i < j → j < i + n + 1 → again (iterates step input s j) = true) :
    doWhile step again input (n + 1) i (iterates step input s i) =
      some (i + n + 1, iterates step input s (i + n + 1)) := by
  induction n generalizing i with
  | zero =>
      have stops : again (step (iterates step input s i) (input i)) = false := ends
      simp only [doWhile, stops, Bool.false_eq_true, if_false]
      rfl
  | succ n ih =>
      have more : again (step (iterates step input s i) (input i)) = true := before (i + 1) (by omega) (by omega)
      have next : i + (n + 1) + 1 = (i + 1) + n + 1 := by omega
      rw [next] at ends ⊢
      rw [doWhile]
      simp only [more, if_true]
      exact ih ends fun j low high => before j (by omega) (by omega)

theorem doWhile_iff : (∃ fuel, doWhile step again input fuel 0 s = some (k, t)) ↔
    0 < k ∧ t = iterates step input s k ∧ again t = false ∧
      ∀ j, 0 < j → j < k → again (iterates step input s j) = true := by
  constructor
  · rintro ⟨fuel, ends⟩
    exact doWhile_ends (s := s) ends
  · rintro ⟨pos, rfl, ends, before⟩
    obtain ⟨n, rfl⟩ := Nat.exists_eq_add_of_lt pos
    exact ⟨n + 1, doWhile_reaches n ends before⟩

theorem doWhile_returns (pos : 0 < k) (ends : again (iterates step input s k) = false) :
    ∃ k' t fuel, k' ≤ k ∧ doWhile step again input fuel 0 s = some (k', t) := by
  have exists_ : ∃ k, 0 < k ∧ again (iterates step input s k) = false := ⟨k, pos, ends⟩
  have first := Nat.find_spec exists_
  have before : ∀ j, 0 < j → j < Nat.find exists_ → again (iterates step input s j) = true := by
    intro j low high
    by_contra fails
    exact Nat.find_min exists_ high ⟨low, by simpa using fails⟩
  obtain ⟨fuel, result⟩ := doWhile_iff.mpr ⟨first.1, rfl, first.2, before⟩
  exact ⟨Nat.find exists_, _, fuel, Nat.find_min' exists_ ⟨pos, ends⟩, result⟩

end Concurrency
