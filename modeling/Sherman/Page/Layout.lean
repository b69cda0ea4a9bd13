import Sherman.Basic

/-!
# Pages

The page layouts of `include/Tree.h`. An array is a list whose length the page structure fixes.
-/

namespace Sherman

structure Header where
  leftmostPtr : GlobalAddress
  siblingPtr : GlobalAddress
  level : Nat
  lastIndex : Int
  lowest : Key
  highest : Key
  deriving DecidableEq, Repr

def Header.new (level : Nat) : Header where
  leftmostPtr := .null
  siblingPtr := .null
  level := level
  lastIndex := -1
  lowest := kKeyMin
  highest := kKeyMax

structure InternalEntry where
  key : Key
  ptr : GlobalAddress
  deriving DecidableEq, Repr

instance : Inhabited InternalEntry := ⟨⟨0, .null⟩⟩

structure LeafEntry where
  fVersion : BitVec 4
  key : Key
  value : Value
  rVersion : BitVec 4
  deriving DecidableEq, Repr

instance : Inhabited LeafEntry := ⟨⟨0, 0, kValueNull, 0⟩⟩

def LeafEntry.used (r : LeafEntry) : Bool := r.value != kValueNull

@[simp] theorem LeafEntry.used_eq_true {r : LeafEntry} : r.used = true ↔ r.value ≠ kValueNull := by
  simp [used]

@[simp] theorem LeafEntry.used_eq_false {r : LeafEntry} : r.used = false ↔ r.value = kValueNull := by
  simp [used]

def LeafEntry.rewrite (r : LeafEntry) (k : Key) (v : Value) : LeafEntry where
  fVersion := r.fVersion + 1
  key := k
  value := v
  rVersion := r.fVersion + 1

structure InternalPage where
  frontVersion : BitVec 8
  hdr : Header
  records : List InternalEntry
  rearVersion : BitVec 8
  size : records.length = kInternalCardinality
  deriving DecidableEq

structure LeafPage where
  frontVersion : BitVec 8
  hdr : Header
  records : List LeafEntry
  rearVersion : BitVec 8
  size : records.length = kLeafCardinality
  deriving DecidableEq

namespace InternalPage

def new (level : Nat) : InternalPage where
  frontVersion := 0
  hdr := .new level
  records := List.replicate kInternalCardinality default
  rearVersion := 0
  size := List.length_replicate

def newRoot (left : GlobalAddress) (key : Key) (right : GlobalAddress) (level : Nat) :
    InternalPage where
  frontVersion := 0
  hdr := { Header.new level with leftmostPtr := left, lastIndex := 0 }
  records := ⟨key, right⟩ :: List.replicate (kInternalCardinality - 1) default
  rearVersion := 0
  size := by simp [kInternalCardinality_eq]

def setConsistent (p : InternalPage) : InternalPage :=
  { p with frontVersion := p.frontVersion + 1, rearVersion := p.frontVersion + 1 }

def checkConsistent (p : InternalPage) : Bool := p.rearVersion == p.frontVersion

def cnt (p : InternalPage) : Nat := (p.hdr.lastIndex + 1).toNat

def live (p : InternalPage) : List InternalEntry := p.records.take p.cnt

end InternalPage

namespace LeafPage

def new (level : Nat) : LeafPage where
  frontVersion := 0
  hdr := .new level
  records := List.replicate kLeafCardinality default
  rearVersion := 0
  size := List.length_replicate

def setConsistent (p : LeafPage) : LeafPage :=
  { p with frontVersion := p.frontVersion + 1, rearVersion := p.frontVersion + 1 }

def checkConsistent (p : LeafPage) : Bool := p.rearVersion == p.frontVersion

def setRecord (p : LeafPage) (i : Nat) (r : LeafEntry) : LeafPage :=
  { p with records := p.records.set i r, size := by simp [p.size] }

def Holds (p : LeafPage) (k : Key) (v : Value) : Prop :=
  v ≠ kValueNull ∧ ∃ r ∈ p.records, r.key = k ∧ r.value = v

end LeafPage

inductive Page where
  | internal (p : InternalPage)
  | leaf (p : LeafPage)
  deriving DecidableEq

def Page.hdr : Page → Header
  | .internal p => p.hdr
  | .leaf p => p.hdr

end Sherman
