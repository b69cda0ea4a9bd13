import Mathlib.Order.Lattice
import Mathlib.Logic.Function.Basic
import Sherman.Concurrency.Interleaving

/-!
# The concurrent skip list

`InsertConcurrently` and `Iterator::Seek` of `include/third_party/inlineskiplist.h`. The links are read and
written by any number of threads, each access one atomic step.
-/

namespace Sherman.SkipList

open Concurrency Program

def kMaxPossibleHeight : Nat := 32

def kMaxHeight : Nat := 21

theorem kMaxHeight_le : kMaxHeight ≤ kMaxPossibleHeight := by decide

def kScaledInverseBranching : Nat := (2147483647 + 1) / 4

/-- A pointer to a node, with the key behind the node, which does not change. -/
structure Node (K : Type) where
  address : Nat
  key : K
  deriving DecidableEq

inductive Place (K : Type) where
  | head
  | node (x : Node K)
  deriving DecidableEq

structure Bracket (K : Type) where
  prev : Place K
  next : Option (Node K)

structure Shared (K : Type) where
  next : Place K → Nat → Option (Node K)
  maxHeight : Nat
  allocated : Nat

def Shared.init (K : Type) : Shared K := ⟨fun _ _ => none, 1, 0⟩

def Shared.setNext [DecidableEq K] (s : Shared K) (p : Place K) (level : Nat) (n : Option (Node K)) : Shared K :=
  { s with next := Function.update s.next p (Function.update (s.next p) level n) }

/-! ## Verbs -/

def growHeight : (room : Nat) → (draws : List Nat) → Nat
  | 0, _ => 0
  | _ + 1, [] => 0
  | room + 1, d :: draws => if d < kScaledInverseBranching then growHeight room draws + 1 else 0

def randomHeight (draws : List Nat) : Nat := 1 + growHeight (min kMaxHeight kMaxPossibleHeight - 1) draws

inductive Verb (K : Type) where
  | allocateKey (key : K)
  | loadMaxHeight
  | casMaxHeight (expected height : Nat)
  | next (p : Place K) (level : Nat)
  | setNext (x : Node K) (level : Nat) (n : Option (Node K))
  | casNext (p : Place K) (level : Nat) (expected : Option (Node K)) (x : Node K)

@[reducible] def Resp (K : Type) : Verb K → Type
  | .allocateKey _ => Node K × Nat
  | .loadMaxHeight => Nat
  | .casMaxHeight _ _ => Bool × Nat
  | .next _ _ => Option (Node K)
  | .setNext _ _ _ => Unit
  | .casNext _ _ _ _ => Bool

inductive Proc (K : Type) where
  | raiseMaxHeight (height maxHeight : Nat)
  | linkLevel (x : Node K) (level : Nat) (splice : Bracket K) (valid : Bool)
  | findSpliceForLevel (key : K) (before : Place K) (after : Option (Node K)) (level : Nat)
  | findGreaterOrEqual (key : K) (x : Place K) (level : Nat) (lastBigger : Option (Node K))

@[reducible] def Ret (K : Type) : Proc K → Type
  | .raiseMaxHeight _ _ => Nat
  | .linkLevel _ _ _ _ => Option (Bracket K × Bool)
  | .findSpliceForLevel _ _ _ _ => Bracket K
  | .findGreaterOrEqual _ _ _ _ => Option (Node K)

inductive Fault where
  | height
  | maxHeight
  | sorted
  | overshot
  | nextAfter
  | prevBefore
  | splice
  deriving DecidableEq, Repr

@[reducible] def signature (K : Type) : Signature where
  Verb := Verb K
  Resp := Resp K
  Proc := Proc K
  Ret := Ret K
  Fault := Fault

/-- What a step chooses: the random numbers of a height, and whether a weak exchange fails for no reason. -/
inductive Choice where
  | none
  | draws (numbers : List Nat)
  | spurious

def perform [DecidableEq K] : (v : Verb K) → Choice → Shared K → Option (Resp K v × Shared K)
  | .allocateKey key, .draws numbers, s =>
      some ((⟨s.allocated, key⟩, randomHeight numbers), { s with allocated := s.allocated + 1 })
  | .allocateKey _, _, _ => none
  | .loadMaxHeight, _, s => some (s.maxHeight, s)
  | .casMaxHeight _ _, .spurious, s => some ((false, s.maxHeight), s)
  | .casMaxHeight expected height, _, s =>
      if s.maxHeight = expected then some ((true, expected), { s with maxHeight := height })
      else some ((false, s.maxHeight), s)
  | .next p level, _, s => some (s.next p level, s)
  | .setNext x level n, _, s => some ((), s.setNext (.node x) level n)
  | .casNext p level expected x, _, s =>
      if s.next p level = expected then some (true, s.setNext p level (some x)) else some (false, s)

/-! ## Programs -/

variable {K : Type}

def advanceSplice (x : Node K) (height : Nat) (splice : Nat → Bracket K) (i : Nat) : Bracket K :=
  if i < height then ⟨.node x, (splice i).next⟩ else splice i

theorem advanceSplice_next (x : Node K) (height : Nat) (splice : Nat → Bracket K) (i : Nat) :
    (advanceSplice x height splice i).next = (splice i).next := by
  unfold advanceSplice
  split <;> rfl

theorem advanceSplice_low {x : Node K} {height i : Nat} {splice : Nat → Bracket K} (low : i < height) :
    (advanceSplice x height splice i).prev = .node x := by
  rw [advanceSplice, if_pos low]

theorem advanceSplice_high {x : Node K} {height i : Nat} {splice : Nat → Bracket K} (high : height ≤ i) :
    advanceSplice x height splice i = splice i := if_neg (Nat.not_lt.mpr high)

variable [LinearOrder K]

abbrev Code (K : Type) := Program (signature K)

def verb (v : Verb K) : Code K (Resp K v) := Program.perform (S := signature K) v
def call (p : Proc K) : Code K (Ret K p) := Program.invoke (S := signature K) p
def assert (condition : Prop) [Decidable condition] (which : Fault) : Code K Unit :=
  Program.check (S := signature K) condition which

/-- `p == head_ || compare_(p->Key(), key) < 0`. -/
def Place.Before : Place K → K → Prop
  | .head, _ => True
  | .node x, key => x.key < key

/-- `n == nullptr || compare_(key, n->Key()) < 0`. -/
def After (key : K) : Option (Node K) → Prop
  | none => True
  | some y => key < y.key

/-- `next == nullptr || KeyIsAfterNode(next->Key(), p)`, and this holds of `head_`. -/
def Place.Sorted (p : Place K) : Option (Node K) → Prop
  | none => True
  | some y => p.Before y.key

def KeyIsAfterNode (key : K) : Option (Node K) → Prop
  | none => False
  | some y => y.key < key

instance (p : Place K) (key : K) : Decidable (p.Before key) := by
  cases p <;> unfold Place.Before <;> infer_instance

instance (key : K) (n : Option (Node K)) : Decidable (After key n) := by
  cases n <;> unfold After <;> infer_instance

instance (p : Place K) (n : Option (Node K)) : Decidable (p.Sorted n) := by
  cases n <;> unfold Place.Sorted <;> infer_instance

instance (key : K) (n : Option (Node K)) : Decidable (KeyIsAfterNode key n) := by
  cases n <;> unfold KeyIsAfterNode <;> infer_instance

def raiseMaxHeight (height maxHeight : Nat) : Code K Nat := do
  if maxHeight < height then
    let (done, seen) ← verb (.casMaxHeight maxHeight height)
    if done then return height else call (.raiseMaxHeight height seen)
  else return maxHeight

def findSpliceForLevel (key : K) (before : Place K) (after : Option (Node K)) (level : Nat) :
    Code K (Bracket K) := do
  let next ← verb (.next before level)
  assert (before.Sorted next) .sorted
  assert (before.Before key) .overshot
  match next with
  | none => return ⟨before, none⟩
  | some y =>
      if next = after ∨ ¬ KeyIsAfterNode key next then return ⟨before, next⟩
      else call (.findSpliceForLevel key (.node y) after level)

def recomputeSpliceLevels (key : K) : (level : Nat) → (Nat → Bracket K) → Code K (Nat → Bracket K)
  | 0, splice => return splice
  | level + 1, splice => do
      let found ← call (.findSpliceForLevel key (splice (level + 1)).prev (splice (level + 1)).next level)
      recomputeSpliceLevels key level (Function.update splice level found)

def linkLevel (x : Node K) (level : Nat) (splice : Bracket K) (valid : Bool) : Code K (Option (Bracket K × Bool)) := do
  if level = 0 ∧ ¬ After x.key splice.next then return none
  else if level = 0 ∧ ¬ splice.prev.Before x.key then return none
  else
    assert (After x.key splice.next) .nextAfter
    assert (splice.prev.Before x.key) .prevBefore
    verb (.setNext x level splice.next)
    let success ← verb (.casNext splice.prev level splice.next x)
    if success then return some (splice, valid)
    else
      let found ← call (.findSpliceForLevel x.key splice.prev none level)
      call (.linkLevel x level found (valid && level == 0))

def linkLevels (x : Node K) : (remaining level : Nat) → (Nat → Bracket K) → Bool →
    Code K (Option ((Nat → Bracket K) × Bool))
  | 0, _, splice, valid => return some (splice, valid)
  | remaining + 1, level, splice, valid => do
      match ← call (.linkLevel x level (splice level) valid) with
      | none => return none
      | some (linked, valid) => linkLevels x remaining (level + 1) (Function.update splice level linked) valid

/-- `p == q || p == head_ || compare_(p->Key(), q->Key()) < 0`. -/
def Place.LeftOf (p q : Place K) : Prop :=
  q = p ∨ match q with
    | .head => p = .head
    | .node y => p.Before y.key

/-- `n == m || n == nullptr || compare_(m->Key(), n->Key()) < 0`. -/
def RightOf (n m : Option (Node K)) : Prop :=
  n = m ∨ match m with
    | none => n = none
    | some y => After y.key n

instance (p q : Place K) : Decidable (p.LeftOf q) := by
  cases q <;> unfold Place.LeftOf <;> infer_instance

instance (n m : Option (Node K)) : Decidable (RightOf n m) := by
  cases m <;> unfold RightOf <;> infer_instance

/-- `compare_(p->Key(), key) <= 0`, or `p == head_`. -/
def Place.NotAfter : Place K → K → Prop
  | .head, _ => True
  | .node x, key => x.key ≤ key

instance (p : Place K) (key : K) : Decidable (p.NotAfter key) := by
  cases p <;> unfold Place.NotAfter <;> infer_instance

def SpliceOk (key : K) (maxHeight : Nat) (splice : Nat → Bracket K) : Prop :=
  (splice maxHeight).prev = .head ∧ (splice maxHeight).next = none ∧
    ∀ i < maxHeight, After key (splice i).next ∧ (splice i).prev.NotAfter key ∧
      (splice (i + 1)).prev.LeftOf (splice i).prev ∧ RightOf (splice (i + 1)).next (splice i).next

instance (key : K) (maxHeight : Nat) (splice : Nat → Bracket K) : Decidable (SpliceOk key maxHeight splice) := by
  unfold SpliceOk
  infer_instance

/-- `AllocateKey` and `InsertConcurrently`, as `add_entry` calls them. -/
def insertConcurrently (key : K) : Code K Bool := do
  let (x, height) ← verb (.allocateKey key)
  assert (1 ≤ height ∧ height ≤ kMaxHeight) .height
  let seen ← verb .loadMaxHeight
  let maxHeight ← call (.raiseMaxHeight height seen)
  assert (maxHeight ≤ kMaxPossibleHeight) .maxHeight
  let splice ← recomputeSpliceLevels x.key maxHeight fun _ => ⟨.head, none⟩
  match ← linkLevels x height 0 splice true with
  | none => return false
  | some (splice, valid) =>
      if valid then
        assert (SpliceOk x.key maxHeight (advanceSplice x height splice)) .splice
      return true

def findGreaterOrEqual (key : K) (x : Place K) (level : Nat) (lastBigger : Option (Node K)) :
    Code K (Option (Node K)) := do
  let next ← verb (.next x level)
  assert (x.Sorted next) .sorted
  assert (x.Before key) .overshot
  let cmp := match next with
    | none => Ordering.gt
    | some y => if next = lastBigger then .gt else compare y.key key
  match cmp, next with
  | .eq, _ => return next
  | .lt, some y => call (.findGreaterOrEqual key (.node y) level lastBigger)
  | _, _ => if level = 0 then return next else call (.findGreaterOrEqual key x (level - 1) next)

def seek (key : K) : Code K (Option K) := do
  let height ← verb .loadMaxHeight
  let found ← call (.findGreaterOrEqual key .head (height - 1) none)
  return found.map Node.key

inductive Op (K : Type) where
  | insertConcurrently (key : K)
  | seek (key : K)

inductive Result (K : Type) where
  | inserted (b : Bool)
  | key (k : Option K)

def body : (p : Proc K) → Code K (Ret K p)
  | .raiseMaxHeight height maxHeight => raiseMaxHeight height maxHeight
  | .linkLevel x level splice valid => linkLevel x level splice valid
  | .findSpliceForLevel key before after level => findSpliceForLevel key before after level
  | .findGreaterOrEqual key x level lastBigger => findGreaterOrEqual key x level lastBigger

def main : Op K → Code K (Result K)
  | .insertConcurrently key => do return .inserted (← insertConcurrently key)
  | .seek key => do return .key (← seek key)

abbrev Tid := Nat

def system (K : Type) [LinearOrder K] : System (signature K) Tid (Op K) (Result K) (Shared K) Choice Empty where
  body := body
  main := main
  perform _ := perform
  interfere e _ := e.elim

end Sherman.SkipList
