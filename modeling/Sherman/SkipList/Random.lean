import Mathlib.Data.UInt
import Mathlib.NumberTheory.LucasPrimality
import Mathlib.Tactic.NormNum.Prime
import Mathlib.Tactic.ReduceModChar
import Sherman.SkipList.Machine

/-!
# The draws behind the tower heights

`Random::Next` multiplies its seed by 16807 modulo the prime 2³¹ - 1, without a division. As 16807 is a primitive
root, a thread draws every number between 0 and 2³¹ - 1 before it draws one again, unless its seed is stuck.
-/

namespace Sherman.SkipList

/-! ## Multiples of the powers of a primitive root -/

section
variable {p : Nat} [Fact p.Prime] {a x v : ZMod p}

theorem existsUnique_mul_pow (order : orderOf a = p - 1) (nonzero : x ≠ 0) (target : v ≠ 0) :
    ∃! n, n < p - 1 ∧ x * a ^ n = v := by
  have two := (Fact.out : p.Prime).two_le
  have root : a ≠ 0 := by
    rintro rfl
    rw [orderOf_zero] at order
    omega
  have injective : Set.InjOn (fun n => x * a ^ n) (Finset.range (p - 1)) := by
    intro m hm n hn same
    rw [Finset.coe_range, ← order] at hm hn
    exact pow_injOn_Iio_orderOf hm hn (mul_left_cancel₀ nonzero same)
  have maps : Set.MapsTo (fun n => x * a ^ n) (Finset.range (p - 1)) (Finset.univ.erase (0 : ZMod p)) := by
    intro n _
    simp [nonzero, root]
  have card : (Finset.univ.erase (0 : ZMod p)).card ≤ (Finset.range (p - 1)).card := by
    rw [Finset.card_erase_of_mem (Finset.mem_univ _), Finset.card_univ, ZMod.card, Finset.card_range]
  obtain ⟨n, below, value⟩ := Finset.surjOn_of_injOn_of_card_le _ maps injective card (by simpa using target)
  refine ⟨n, ⟨by simpa using below, value⟩, ?_⟩
  rintro m ⟨hm, same⟩
  exact injective (by simpa using hm) below (same.trans value.symm)

end

/-! ## `Random` -/

namespace Random

def M : UInt32 := 2147483647
def A : UInt64 := 16807

def goodSeed (s : UInt32) : UInt32 := if s &&& M ≠ 0 then s &&& M else 1

def next (seed : UInt32) : UInt32 :=
  let product := seed.toUInt64 * A
  let seed := ((product >>> 31) + (product &&& M.toUInt64)).toUInt32
  if seed > M then seed - M else seed

def draw (s : UInt32) : Nat → UInt32
  | 0 => next (goodSeed s)
  | n + 1 => next (draw s n)

theorem toNat_M : M.toNat = 2147483647 := rfl

theorem goodSeed_le (s : UInt32) : (goodSeed s).toNat ≤ M.toNat := by
  unfold goodSeed
  split
  · rw [UInt32.toNat_and]
    exact Nat.and_le_right
  · decide

theorem goodSeed_pos (s : UInt32) : 0 < (goodSeed s).toNat := by
  unfold goodSeed
  split
  · rename_i nonzero
    exact Nat.pos_of_ne_zero fun zero => nonzero (UInt32.toNat_inj.mp zero)
  · decide

theorem next_toNat {seed : UInt32} (le : seed.toNat ≤ M.toNat) :
    (next seed).toNat = if M.toNat < seed.toNat * 16807 / 2 ^ 31 + seed.toNat * 16807 % 2 ^ 31
      then seed.toNat * 16807 / 2 ^ 31 + seed.toNat * 16807 % 2 ^ 31 - M.toNat
      else seed.toNat * 16807 / 2 ^ 31 + seed.toNat * 16807 % 2 ^ 31 := by
  rw [toNat_M] at le ⊢
  have product : (seed.toUInt64 * A).toNat = seed.toNat * 16807 := by
    rw [UInt64.toNat_mul, UInt32.toNat_toUInt64]
    exact Nat.mod_eq_of_lt (by change seed.toNat * 16807 < 2 ^ 64; omega)
  have high : ((seed.toUInt64 * A) >>> 31).toNat = seed.toNat * 16807 / 2 ^ 31 := by
    rw [UInt64.toNat_shiftRight, product, Nat.shiftRight_eq_div_pow]
    rfl
  have low : (seed.toUInt64 * A &&& M.toUInt64).toNat = seed.toNat * 16807 % 2 ^ 31 := by
    rw [UInt64.toNat_and, product]
    exact Nat.and_two_pow_sub_one_eq_mod _ 31
  have sum : (((seed.toUInt64 * A) >>> 31) + (seed.toUInt64 * A &&& M.toUInt64)).toUInt32.toNat =
      seed.toNat * 16807 / 2 ^ 31 + seed.toNat * 16807 % 2 ^ 31 := by
    rw [UInt64.toNat_toUInt32, UInt64.toNat_add, high, low]
    omega
  simp only [next, gt_iff_lt, UInt32.lt_iff_toNat_lt, sum, toNat_M]
  split
  · rename_i past
    rw [UInt32.toNat_sub_of_le, sum, toNat_M]
    rw [UInt32.le_iff_toNat_le, sum, toNat_M]
    exact past.le
  · exact sum

theorem next_le {seed : UInt32} (le : seed.toNat ≤ M.toNat) : (next seed).toNat ≤ M.toNat := by
  rw [next_toNat le, toNat_M]
  rw [toNat_M] at le
  split <;> omega

theorem next_mod {seed : UInt32} (le : seed.toNat ≤ M.toNat) :
    ((next seed).toNat : ZMod 2147483647) = seed.toNat * 16807 := by
  have same : (next seed).toNat % 2147483647 = seed.toNat * 16807 % 2147483647 := by
    rw [next_toNat le, toNat_M]
    split <;> omega
  exact_mod_cast (ZMod.natCast_eq_natCast_iff' _ _ _).mpr same

theorem draw_le (s : UInt32) (n : Nat) : (draw s n).toNat ≤ M.toNat := by
  induction n with
  | zero => exact next_le (goodSeed_le s)
  | succ n ih => exact next_le ih

theorem draw_mod (s : UInt32) (n : Nat) :
    ((draw s n).toNat : ZMod 2147483647) = (goodSeed s).toNat * 16807 ^ (n + 1) := by
  induction n with
  | zero => rw [draw, next_mod (goodSeed_le s), pow_one]
  | succ n ih => rw [draw, next_mod (draw_le s n), ih, mul_assoc, ← pow_succ]

/-! ### 16807 is a primitive root -/

theorem prime_dvd {q : Nat} (prime : q.Prime) (dvd : q ∣ 2147483646) :
    q = 2 ∨ q = 3 ∨ q = 7 ∨ q = 11 ∨ q = 31 ∨ q = 151 ∨ q = 331 := by
  have factors : 2147483646 = 2 * 3 * 3 * 7 * 11 * 31 * 151 * 331 := rfl
  rw [factors] at dvd
  simp only [prime.dvd_mul] at dvd
  have small : ∀ r : Nat, r.Prime → q ∣ r → q = r := fun r primeR => (Nat.prime_dvd_prime_iff_eq prime primeR).mp
  rcases dvd with ((((((two | three) | three) | seven) | eleven) | thirtyone) | h151) | h331
  · exact .inl (small 2 (by norm_num) two)
  · exact .inr (.inl (small 3 (by norm_num) three))
  · exact .inr (.inl (small 3 (by norm_num) three))
  · exact .inr (.inr (.inl (small 7 (by norm_num) seven)))
  · exact .inr (.inr (.inr (.inl (small 11 (by norm_num) eleven))))
  · exact .inr (.inr (.inr (.inr (.inl (small 31 (by norm_num) thirtyone)))))
  · exact .inr (.inr (.inr (.inr (.inr (.inl (small 151 (by norm_num) h151))))))
  · exact .inr (.inr (.inr (.inr (.inr (.inr (small 331 (by norm_num) h331))))))

theorem pow_eq_one : (16807 : ZMod 2147483647) ^ 2147483646 = 1 := by reduce_mod_char

theorem pow_ne_one {q : Nat} (prime : q.Prime) (dvd : q ∣ 2147483646) :
    (16807 : ZMod 2147483647) ^ (2147483646 / q) ≠ 1 := by
  rcases prime_dvd prime dvd with rfl | rfl | rfl | rfl | rfl | rfl | rfl
  all_goals norm_num; reduce_mod_char; decide

instance prime_M : Fact (Nat.Prime 2147483647) :=
  ⟨lucas_primality _ 16807 pow_eq_one fun _ => pow_ne_one⟩

theorem order : orderOf (16807 : ZMod 2147483647) = 2147483647 - 1 :=
  orderOf_eq_of_pow_and_pow_div_prime (by norm_num) pow_eq_one fun _ => pow_ne_one

/-! ### The draws -/

theorem goodSeed_eq (s : UInt32) : goodSeed s = M ↔ s &&& M = M := by
  unfold goodSeed
  split
  · rfl
  · rename_i zero
    rw [not_not.mp zero]
    decide

theorem draw_stuck {s : UInt32} (stuck : s &&& M = M) (n : Nat) : draw s n = M := by
  induction n with
  | zero => rw [draw, (goodSeed_eq s).mpr stuck]; rfl
  | succ n ih => rw [draw, ih]; rfl

theorem natCast_ne_zero {x : Nat} (pos : 0 < x) (lt : x < M.toNat) : (x : ZMod 2147483647) ≠ 0 := by
  rw [Ne, ZMod.natCast_eq_zero_iff]
  exact Nat.not_dvd_of_pos_of_lt pos lt

theorem goodSeed_ne_zero {s : UInt32} (good : s &&& M ≠ M) : ((goodSeed s).toNat : ZMod 2147483647) ≠ 0 := by
  apply natCast_ne_zero (goodSeed_pos s)
  apply lt_of_le_of_ne (goodSeed_le s)
  exact fun same => good ((goodSeed_eq s).mp (UInt32.toNat_inj.mp same))

theorem draw_ne_zero {s : UInt32} (good : s &&& M ≠ M) (n : Nat) :
    ((draw s n).toNat : ZMod 2147483647) ≠ 0 := by
  rw [draw_mod]
  exact mul_ne_zero (goodSeed_ne_zero good) (pow_ne_zero _ (by decide))

theorem draw_lt {s : UInt32} (good : s &&& M ≠ M) (n : Nat) : (draw s n).toNat < M.toNat := by
  apply lt_of_le_of_ne (draw_le s n)
  intro same
  exact draw_ne_zero good n (by rw [same, toNat_M, ZMod.natCast_self])

theorem draw_pos {s : UInt32} (good : s &&& M ≠ M) (n : Nat) : 0 < (draw s n).toNat :=
  Nat.pos_of_ne_zero fun zero => draw_ne_zero good n (by rw [zero, Nat.cast_zero])

theorem existsUnique_draw {s : UInt32} (good : s &&& M ≠ M) (i : Nat) {v : Nat} (pos : 0 < v) (lt : v < M.toNat) :
    ∃! n, n < M.toNat - 1 ∧ (draw s (i + n)).toNat = v := by
  have value : ∀ n, (draw s (i + n)).toNat = v ↔ ((draw s i).toNat : ZMod 2147483647) * 16807 ^ n = v := by
    intro n
    have below : (draw s (i + n)).toNat < 2147483647 := draw_lt good (i + n)
    have inRange : v < 2147483647 := lt
    rw [draw_mod, mul_assoc, ← pow_add, Nat.add_right_comm, ← draw_mod, ZMod.natCast_eq_natCast_iff',
      Nat.mod_eq_of_lt below, Nat.mod_eq_of_lt inRange]
  simp only [value, toNat_M]
  exact existsUnique_mul_pow order (draw_ne_zero good i) (natCast_ne_zero pos lt)

theorem card_growing {s : UInt32} (good : s &&& M ≠ M) (i : Nat) :
    ((Finset.range (M.toNat - 1)).filter fun n => (draw s (i + n)).toNat < kScaledInverseBranching).card =
      kScaledInverseBranching - 1 := by
  have values : (Finset.Ioo 0 kScaledInverseBranching).card = kScaledInverseBranching - 1 := Nat.card_Ioo 0 _
  rw [← values]
  apply Finset.card_bij fun n _ => (draw s (i + n)).toNat
  · intro n member
    exact Finset.mem_Ioo.mpr ⟨draw_pos good _, (Finset.mem_filter.mp member).2⟩
  · intro m hm n hn same
    rw [Finset.mem_filter, Finset.mem_range] at hm hn
    exact (existsUnique_draw good i (draw_pos good _) (draw_lt good _)).unique ⟨hm.1, same⟩ ⟨hn.1, rfl⟩
  · intro v member
    obtain ⟨pos, less⟩ := Finset.mem_Ioo.mp member
    have lt : v < M.toNat := less.trans (by decide)
    obtain ⟨n, ⟨below, value⟩, -⟩ := existsUnique_draw good i pos lt
    exact ⟨n, Finset.mem_filter.mpr ⟨Finset.mem_range.mpr below, value.symm ▸ less⟩, value⟩

theorem randomHeight_stuck (n : Nat) : randomHeight (List.replicate n M.toNat) = 1 := by
  cases n with
  | zero => rfl
  | succ n => rfl

/-- From a seed that is not stuck, each number comes once among as many draws in a row as there are numbers, and a
quarter of them let a tower grow. A stuck seed lets no tower grow. -/
theorem draws_cycle (s : UInt32) (i : Nat) :
    if s &&& M = M then goodSeed s = M ∧
      ∀ n, randomHeight ((List.range n).map fun j => (draw s (i + j)).toNat) = 1
    else (∀ v, 0 < v → v < M.toNat → ∃! n, n < M.toNat - 1 ∧ (draw s (i + n)).toNat = v) ∧
      ((Finset.range (M.toNat - 1)).filter fun n => (draw s (i + n)).toNat < kScaledInverseBranching).card =
        kScaledInverseBranching - 1 := by
  split
  · rename_i stuck
    refine ⟨(goodSeed_eq s).mpr stuck, fun n => ?_⟩
    simp only [draw_stuck stuck, List.map_const', List.length_range]
    exact randomHeight_stuck n
  · rename_i good
    exact ⟨fun v pos lt => existsUnique_draw good i pos lt, card_growing good i⟩

end Random

end Sherman.SkipList
