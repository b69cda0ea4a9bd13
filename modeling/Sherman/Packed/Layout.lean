import Mathlib.Algebra.Group.Nat.Defs
import Mathlib.Data.Int.ModEq
import Mathlib.Logic.Equiv.Basic
import Mathlib.Logic.Function.Basic

/-!
# Packed layouts

How a value lies in consecutive bytes without padding, and what changes of the value when some of its bytes
change.
-/

namespace Packed

abbrev Byte := BitVec 8
abbrev Memory := Nat → Byte

def copy (n : Nat) (src : Memory) (a : Nat) (dst : Memory) (b : Nat) : Memory :=
  fun i => if b ≤ i ∧ i < b + n then src (a + (i - b)) else dst i

theorem copy_inside {n i : Nat} (src : Memory) (a : Nat) (dst : Memory) (b : Nat) (less : i < n) :
    copy n src a dst b (b + i) = src (a + i) := by
  rw [copy, if_pos ⟨Nat.le_add_right b i, by omega⟩, Nat.add_sub_cancel_left]

theorem copy_outside {n b i : Nat} (src : Memory) (a : Nat) (dst : Memory) (outside : i < b ∨ b + n ≤ i) :
    copy n src a dst b i = dst i := if_neg (by omega)

/-- A type with a place for each part. Writing keeps what fits into the width: `trim`. -/
structure Layout (α : Type) where
  size : Nat
  read : Memory → Nat → α
  write : Memory → Nat → α → Memory
  trim : α → α
  read_write : ∀ m a x, read (write m a x) a = trim x
  write_other : ∀ m a x i, i < a ∨ a + size ≤ i → write m a x i = m i
  read_congr : ∀ m m' a a', (∀ i < size, m (a + i) = m' (a' + i)) → read m a = read m' a'

namespace Layout
variable {α β : Type}

theorem read_copy (A : Layout α) {n : Nat} (src : Memory) (a : Nat) (dst : Memory) (b : Nat) (all : A.size ≤ n) :
    A.read (copy n src a dst b) b = A.read src a :=
  A.read_congr _ _ _ _ fun _ less => copy_inside src a dst b (less.trans_le all)

theorem read_copy_other (A : Layout α) {n a' b : Nat} (src : Memory) (a : Nat) (dst : Memory)
    (apart : a' + A.size ≤ b ∨ b + n ≤ a') : A.read (copy n src a dst b) a' = A.read dst a' :=
  A.read_congr _ _ _ _ fun _ _ => copy_outside src a dst (by omega)

/-! ## Unsigned and signed integers, least significant byte first -/

def readNat (m : Memory) : (a n : Nat) → Nat
  | _, 0 => 0
  | a, n + 1 => (m a).toNat + 256 * readNat m (a + 1) n

def writeNat (m : Memory) : (a n x : Nat) → Memory
  | _, 0, _ => m
  | a, n + 1, x => Function.update (writeNat m (a + 1) n (x / 256)) a (BitVec.ofNat 8 x)

theorem readNat_congr {m m' : Memory} {a a' n : Nat} (same : ∀ i < n, m (a + i) = m' (a' + i)) :
    readNat m a n = readNat m' a' n := by
  induction n generalizing a a' with
  | zero => rfl
  | succ n ih =>
      have first : m a = m' a' := same 0 (Nat.succ_pos n)
      have rest : readNat m (a + 1) n = readNat m' (a' + 1) n := ih fun i less => by
        rw [Nat.add_assoc, Nat.add_assoc, Nat.add_comm 1 i]
        exact same (i + 1) (by omega)
      rw [readNat, readNat, first, rest]

theorem writeNat_other {m : Memory} {a n x i : Nat} (outside : i < a ∨ a + n ≤ i) :
    writeNat m a n x i = m i := by
  induction n generalizing a x with
  | zero => rfl
  | succ n ih =>
      rw [writeNat, Function.update_of_ne (by omega)]
      exact ih (by omega)

theorem readNat_writeNat (m : Memory) (a n x : Nat) : readNat (writeNat m a n x) a n = x % 256 ^ n := by
  induction n generalizing a x with
  | zero => rw [readNat, Nat.pow_zero, Nat.mod_one]
  | succ n ih =>
      have above : readNat (Function.update (writeNat m (a + 1) n (x / 256)) a (BitVec.ofNat 8 x)) (a + 1) n =
          readNat (writeNat m (a + 1) n (x / 256)) (a + 1) n :=
        readNat_congr fun i _ => Function.update_of_ne (by omega) ..
      have digits : x % 256 ^ (n + 1) = x % 256 + 256 * (x / 256 % 256 ^ n) := by rw [Nat.pow_succ', Nat.mod_mul]
      rw [writeNat, readNat, Function.update_self, above, ih, BitVec.toNat_ofNat, digits]

def uint (n : Nat) : Layout Nat where
  size := n
  read m a := readNat m a n
  write m a x := writeNat m a n x
  trim x := x % 256 ^ n
  read_write m a x := readNat_writeNat m a n x
  write_other _ _ _ _ outside := writeNat_other outside
  read_congr _ _ _ _ same := readNat_congr same

def sint (n : Nat) : Layout Int where
  size := n
  read m a := Int.bmod (readNat m a n) (256 ^ n)
  write m a x := writeNat m a n (x % (256 ^ n : Nat)).toNat
  trim x := Int.bmod x (256 ^ n)
  read_write m a x := by
    have pos : ((256 ^ n : Nat) : Int) ≠ 0 := Int.natCast_ne_zero.mpr (Nat.pow_pos (by decide)).ne'
    rw [readNat_writeNat, Int.natCast_mod, Int.toNat_of_nonneg (Int.emod_nonneg x pos), Int.emod_emod, Int.emod_bmod]
  write_other _ _ _ _ outside := writeNat_other outside
  read_congr _ _ _ _ same := by rw [readNat_congr same]

/-! ## Bit-fields and bytes nothing reads -/

/-- A bit-field in the low bits of a byte of its own; writing it keeps the other bits. -/
def bitField (w : Nat) (fits : w ≤ 8) : Layout (BitVec w) where
  size := 1
  read m a := (m a).setWidth w
  write m a x := Function.update m a (BitVec.ofNat 8 ((m a).toNat / 2 ^ w * 2 ^ w + x.toNat))
  trim x := x
  read_write m a x := by
    apply BitVec.eq_of_toNat_eq
    rw [Function.update_self, BitVec.toNat_setWidth, BitVec.toNat_ofNat, Nat.mod_mod_of_dvd _ (Nat.pow_dvd_pow 2 fits),
      Nat.mul_add_mod_self_right, Nat.mod_eq_of_lt x.isLt]
  write_other _ _ _ _ outside := Function.update_of_ne (by omega) ..
  read_congr _ _ _ _ same := congrArg (BitVec.setWidth w) (same 0 Nat.one_pos)

def skip (n : Nat) : Layout Unit where
  size := n
  read _ _ := ()
  write m _ _ := m
  trim x := x
  read_write _ _ _ := rfl
  write_other _ _ _ _ _ := rfl
  read_congr _ _ _ _ _ := rfl

/-! ## Structures and arrays -/

def pair (A : Layout α) (B : Layout β) : Layout (α × β) where
  size := A.size + B.size
  read m a := (A.read m a, B.read m (a + A.size))
  write m a x := B.write (A.write m a x.1) (a + A.size) x.2
  trim x := (A.trim x.1, B.trim x.2)
  read_write m a x := by
    have first : A.read (B.write (A.write m a x.1) (a + A.size) x.2) a = A.read (A.write m a x.1) a :=
      A.read_congr _ _ _ _ fun i less => B.write_other _ _ _ _ (by omega)
    rw [first, A.read_write, B.read_write]
  write_other m a x i outside := by rw [B.write_other _ _ _ _ (by omega), A.write_other _ _ _ _ (by omega)]
  read_congr m m' a a' same := by
    have second : B.read m (a + A.size) = B.read m' (a' + A.size) := B.read_congr _ _ _ _ fun i less => by
      rw [Nat.add_assoc, Nat.add_assoc]
      exact same (A.size + i) (by omega)
    rw [A.read_congr m m' a a' fun i less => same i (by omega), second]

def iso (A : Layout α) (e : β ≃ α) : Layout β where
  size := A.size
  read m a := e.symm (A.read m a)
  write m a x := A.write m a (e x)
  trim x := e.symm (A.trim (e x))
  read_write m a x := by rw [A.read_write]
  write_other m a x := A.write_other m a (e x)
  read_congr m m' a a' same := by rw [A.read_congr m m' a a' same]

def writeFirst (A : Layout α) {n : Nat} (m : Memory) (a : Nat) (xs : Fin n → α) : Nat → Memory
  | 0 => m
  | k + 1 => if less : k < n then A.write (writeFirst A m a xs k) (a + k * A.size) (xs ⟨k, less⟩)
      else writeFirst A m a xs k

theorem writeFirst_other (A : Layout α) {n : Nat} (m : Memory) (a : Nat) (xs : Fin n → α) (k : Nat) {i : Nat}
    (outside : i < a ∨ a + k * A.size ≤ i) : writeFirst A m a xs k i = m i := by
  induction k with
  | zero => rfl
  | succ k ih =>
      rw [Nat.succ_mul] at outside
      rw [writeFirst]
      split
      · rw [A.write_other _ _ _ _ (by omega)]
        exact ih (by omega)
      · exact ih (by omega)

theorem read_writeFirst (A : Layout α) {n : Nat} (m : Memory) (a : Nat) (xs : Fin n → α) (k : Nat) (i : Fin n)
    (less : i.val < k) : A.read (writeFirst A m a xs k) (a + i * A.size) = A.trim (xs i) := by
  induction k with
  | zero => exact absurd less (Nat.not_lt_zero _)
  | succ k ih =>
      rw [writeFirst]
      rcases Nat.lt_succ_iff_lt_or_eq.mp less with before | here
      · split
        · have room : (i.val + 1) * A.size ≤ k * A.size := Nat.mul_le_mul_right _ before
          rw [Nat.succ_mul] at room
          rw [← ih before]
          exact A.read_congr _ _ _ _ fun j _ => A.write_other _ _ _ _ (by omega)
        · exact ih before
      · subst here
        rw [dif_pos i.isLt, A.read_write]

def array (A : Layout α) (n : Nat) : Layout (Fin n → α) where
  size := n * A.size
  read m a i := A.read m (a + i * A.size)
  write m a xs := writeFirst A m a xs n
  trim xs i := A.trim (xs i)
  read_write m a xs := funext fun i => read_writeFirst A m a xs n i i.isLt
  write_other m a xs _ outside := writeFirst_other A m a xs n outside
  read_congr m m' a a' same := funext fun i => A.read_congr _ _ _ _ fun j less => by
    have room : (i.val + 1) * A.size ≤ n * A.size := Nat.mul_le_mul_right _ i.isLt
    rw [Nat.succ_mul] at room
    rw [Nat.add_assoc, Nat.add_assoc]
    exact same _ (by omega)

end Layout

/-! ## Parts -/

structure Part {α β : Type} (A : Layout α) (B : Layout β) where
  offset : Nat
  get : α → β
  set : α → β → α
  inside : offset + B.size ≤ A.size
  read_part : ∀ m a, B.read m (a + offset) = get (A.read m a)
  read_change : ∀ m m' a, (∀ i < A.size, i < offset ∨ offset + B.size ≤ i → m' (a + i) = m (a + i)) →
    A.read m' a = set (A.read m a) (B.read m' (a + offset))

namespace Part
variable {α β γ : Type} {A : Layout α} {B : Layout β} {C : Layout γ}

theorem read_copy (p : Part A B) (src : Memory) (b : Nat) (dst : Memory) (a : Nat) :
    A.read (copy B.size src b dst (a + p.offset)) a = p.set (A.read dst a) (B.read src b) := by
  rw [p.read_change dst, B.read_copy _ _ _ _ le_rfl]
  exact fun i less outside => copy_outside src b dst (by omega)

def whole (A : Layout α) : Part A A where
  offset := 0
  get x := x
  set _ y := y
  inside := by omega
  read_part _ _ := rfl
  read_change _ _ _ _ := rfl

def fst (A : Layout α) (B : Layout β) : Part (A.pair B) A where
  offset := 0
  get x := x.1
  set x y := (y, x.2)
  inside := by
    change 0 + A.size ≤ A.size + B.size
    omega
  read_part _ _ := rfl
  read_change m m' a same := by
    have second : B.read m' (a + A.size) = B.read m (a + A.size) := B.read_congr _ _ _ _ fun i less => by
      rw [Nat.add_assoc]
      exact same (A.size + i) (Nat.add_lt_add_left less _) (.inr (by omega))
    exact Prod.ext rfl second

def snd (A : Layout α) (B : Layout β) : Part (A.pair B) B where
  offset := A.size
  get x := x.2
  set x y := (x.1, y)
  inside := le_rfl
  read_part _ _ := rfl
  read_change m m' a same := by
    have first : A.read m' a = A.read m a := A.read_congr _ _ _ _ fun i less =>
      same i (Nat.lt_add_right _ less) (.inl less)
    exact Prod.ext first rfl

def ofIso (A : Layout α) (e : γ ≃ α) : Part (A.iso e) A where
  offset := 0
  get x := e x
  set _ y := e.symm y
  inside := (Nat.zero_add _).le
  read_part _ _ := (e.apply_symm_apply _).symm
  read_change _ _ _ _ := rfl

def index (A : Layout α) {n : Nat} (i : Fin n) : Part (A.array n) A where
  offset := i * A.size
  get xs := xs i
  set xs y := Function.update xs i y
  inside := by
    have room : (i.val + 1) * A.size ≤ n * A.size := Nat.mul_le_mul_right _ i.isLt
    rwa [Nat.succ_mul] at room
  read_part _ _ := rfl
  read_change m m' a same := by
    funext j
    by_cases here : j = i
    · subst here
      rw [Function.update_self]
      rfl
    · rw [Function.update_of_ne here]
      refine A.read_congr _ _ _ _ fun l less => ?_
      have room : (j.val + 1) * A.size ≤ n * A.size := Nat.mul_le_mul_right _ j.isLt
      rw [Nat.succ_mul] at room
      rw [Nat.add_assoc]
      refine same _ (show j.val * A.size + l < n * A.size by omega) ?_
      rcases Nat.lt_or_gt_of_ne (fun same => here (Fin.ext same)) with before | after
      · have : (j.val + 1) * A.size ≤ i * A.size := Nat.mul_le_mul_right _ before
        rw [Nat.succ_mul] at this
        exact .inl (by omega)
      · have : (i.val + 1) * A.size ≤ j * A.size := Nat.mul_le_mul_right _ after
        rw [Nat.succ_mul] at this
        exact .inr (by omega)

def trans (p : Part A B) (q : Part B C) : Part A C where
  offset := p.offset + q.offset
  get x := q.get (p.get x)
  set x y := p.set x (q.set (p.get x) y)
  inside := by
    have := p.inside
    have := q.inside
    omega
  read_part m a := by rw [← Nat.add_assoc, q.read_part, p.read_part]
  read_change m m' a same := by
    have inner := q.inside
    have outer := p.inside
    have part : B.read m' (a + p.offset) = q.set (B.read m (a + p.offset)) (C.read m' (a + p.offset + q.offset)) :=
      q.read_change m m' _ fun i less outside => by
        rw [Nat.add_assoc]
        exact same _ (by omega) (by omega)
    rw [p.read_change m m' a fun i less outside => same i less (by omega), part, p.read_part, Nat.add_assoc]

end Part

end Packed
