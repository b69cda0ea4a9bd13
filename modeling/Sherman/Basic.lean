import Mathlib.Algebra.Group.Nat.Defs

/-!
# Constants, addresses and faults

`include/Common.h` and `include/GlobalAddress.h`. Keys, values, node ids and offsets are natural
numbers: no operation of the tree overflows them.
-/

namespace Sherman

abbrev Key := Nat
abbrev Value := Nat
abbrev NodeID := Nat
abbrev Client := Nat

def kKeyMin : Key := 0
def kKeyMax : Key := 2 ^ 64 - 1
def kValueNull : Value := 0

def kInternalPageSize : Nat := 1024
def kLeafPageSize : Nat := 1024

def headerSize : Nat := 8 + 8 + 1 + 2 + 8 + 8
def internalEntrySize : Nat := 8 + 8
def leafEntrySize : Nat := 1 + 8 + 8 + 1

def kInternalCardinality : Nat := (kInternalPageSize - headerSize - 1 * 2 - 8) / internalEntrySize
def kLeafCardinality : Nat := (kLeafPageSize - headerSize - 1 * 2 - 8) / leafEntrySize

def kMaxLevelOfTree : Nat := 7

def kLockChipMemSize : Nat := 256 * 1024
def kNumOfLock : Nat := kLockChipMemSize / 8

theorem kInternalCardinality_eq : kInternalCardinality = 61 := rfl
theorem kLeafCardinality_eq : kLeafCardinality = 54 := rfl
theorem kKeyMax_pos : 0 < kKeyMax := by decide

structure GlobalAddress where
  nodeID : NodeID
  offset : Nat
  deriving DecidableEq, Repr

def GlobalAddress.null : GlobalAddress := ⟨0, 0⟩

instance : Inhabited GlobalAddress := ⟨.null⟩

inductive Fn where
  | pageSearch
  | internalPageSearch
  | insert
  | del
  | insertInternal
  | internalPageStore
  | leafPageStore
  | leafPageDel
  deriving DecidableEq, Repr

inductive Check where
  | level
  | consistent
  | notFromCache
  | lowest
  | highest
  | siblingPtr
  | notFull
  | emptyRecord
  | splitKey
  | parent
  deriving DecidableEq, Repr

/-- How a client can stop: a failed assertion, an access of memory that holds no page of the
expected type, or an index past the end of `path_stack`. -/
inductive Fault where
  | assertion (fn : Fn) (check : Check)
  | wildAccess
  | pathStackOverflow
  deriving DecidableEq, Repr

end Sherman
