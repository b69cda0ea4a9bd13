import Mathlib.Logic.Function.Basic
import Sherman.Concurrency.Transition
import Sherman.Basic

/-!
# Memory allocation

`DSM::alloc` with the thread-local `LocalAllocator`, and the `MALLOC` case of
`Directory::process_message` with its `GlobalAllocator`. Requests and replies travel as messages that
may be delayed and overtake each other.
-/

namespace Sherman.Alloc

open Concurrency

def kChunkSize : Nat := 32 * 1024 * 1024
def kRootPointerStoreOffset : Nat := kChunkSize / 2
def nrDirectory : Nat := 1

def addOffset (a : GlobalAddress) (n : Nat) : GlobalAddress :=
  { a with offset := (a.offset + n) % 2 ^ 48 }

/-- A cluster; node ids have 16 bits, and the memory of a node is one mapping of less than 48 bits. -/
structure Cluster where
  machineNR : Nat
  dsmSize : Nat
  machine_pos : 0 < machineNR
  machine_le : machineNR ≤ 2 ^ 16
  size_lt : dsmSize < 2 ^ 48

structure Thread where
  nodeID : NodeID
  threadID : Nat
  deriving DecidableEq

/-! ## `GlobalAllocator` -/

structure GlobalAllocator where
  start : GlobalAddress
  bitmap : Nat → Bool
  bitmapLen : Nat
  bitmapTail : Nat

namespace GlobalAllocator

def new (start : GlobalAddress) (size : Nat) : GlobalAllocator where
  start := start
  bitmap := fun i => i = 0
  bitmapLen := size / kChunkSize
  bitmapTail := 1

/-- `alloc_chunck`; no result where an assertion fails. -/
def allocChunk (g : GlobalAllocator) : Option (GlobalAddress × GlobalAllocator) :=
  if g.bitmapLen ≤ g.bitmapTail then none
  else if g.bitmap g.bitmapTail = false then
    some (addOffset g.start (g.bitmapTail * kChunkSize),
      { g with bitmap := Function.update g.bitmap g.bitmapTail true, bitmapTail := g.bitmapTail + 1 })
  else none

end GlobalAllocator

def Cluster.directory (cl : Cluster) (n dirID : Nat) : GlobalAllocator :=
  let perDirectory := cl.dsmSize / nrDirectory
  .new ⟨n, perDirectory * dirID % 2 ^ 48⟩ perDirectory

/-! ## `LocalAllocator` -/

structure LocalAllocator where
  head : GlobalAddress
  cur : GlobalAddress
  logHeads : List GlobalAddress

namespace LocalAllocator

def new : LocalAllocator := ⟨.null, .null, []⟩

/-- `malloc`: the address, whether a chunk is needed, and the allocator after the call. -/
def malloc (l : LocalAllocator) (size : Nat) : GlobalAddress × Bool × LocalAllocator :=
  if l.logHeads = [] ∨ l.head.offset + kChunkSize < l.cur.offset + size then (l.cur, true, l)
  else (l.cur, false, { l with cur := addOffset l.cur size })

def setChunk (l : LocalAllocator) (addr : GlobalAddress) : LocalAllocator :=
  ⟨addr, addr, l.logHeads ++ [addr]⟩

end LocalAllocator

/-! ## The machine -/

structure Local where
  allocator : LocalAllocator
  nextTargetNode : Nat
  nextTargetDirID : Nat
  waiting : Option Nat

structure State where
  threads : Thread → Local
  directories : Nat → Nat → GlobalAllocator
  requests : List (Thread × Nat × Nat)
  replies : List (Thread × GlobalAddress)

def State.init (cl : Cluster) : State where
  threads := fun t =>
    { allocator := .new
      nextTargetNode := (t.threadID + t.nodeID) % cl.machineNR
      nextTargetDirID := (t.threadID + t.nodeID) % nrDirectory
      waiting := none }
  directories := cl.directory
  requests := []
  replies := []

def State.setThread (s : State) (t : Thread) (l : Local) : State :=
  { s with threads := Function.update s.threads t l }

namespace State

@[simp] theorem setThread_directories (s : State) (t : Thread) (l : Local) :
    (s.setThread t l).directories = s.directories := rfl
@[simp] theorem setThread_requests (s : State) (t : Thread) (l : Local) :
    (s.setThread t l).requests = s.requests := rfl
@[simp] theorem setThread_replies (s : State) (t : Thread) (l : Local) :
    (s.setThread t l).replies = s.replies := rfl
@[simp] theorem setThread_same (s : State) (t : Thread) (l : Local) :
    (s.setThread t l).threads t = l := by simp [setThread]
theorem setThread_other (s : State) {t u : Thread} (h : u ≠ t) (l : Local) :
    (s.setThread t l).threads u = s.threads u := by simp [setThread, h]
@[simp] theorem setThread_setThread (s : State) (t : Thread) (l l' : Local) :
    (s.setThread t l).setThread t l' = s.setThread t l' := by simp [setThread]

end State

inductive Action where
  | alloc (t : Thread) (size : Nat)
  | serve (i : Nat)
  | receive (i : Nat)

def Local.retry (cl : Cluster) (l : Local) (addr : GlobalAddress) (size : Nat) :
    GlobalAddress × Local :=
  let allocator := l.allocator.setChunk addr
  let wraps := l.nextTargetDirID + 1 = nrDirectory
  let result := allocator.malloc size
  (result.1,
    { allocator := result.2.2
      nextTargetNode := if wraps then (l.nextTargetNode + 1) % cl.machineNR else l.nextTargetNode
      nextTargetDirID := if wraps then 0 else l.nextTargetDirID + 1
      waiting := none })

def step (cl : Cluster) (s : State) : Action → Option State
  | .alloc t size =>
      let l := s.threads t
      if l.waiting.isSome then none
      else
        let result := l.allocator.malloc size
        if result.2.1 then
          some ({ s with requests := s.requests ++ [(t, l.nextTargetNode, l.nextTargetDirID)] }.setThread
            t { l with waiting := some size })
        else some (s.setThread t { l with allocator := result.2.2 })
  | .serve i => match s.requests[i]? with
      | none => none
      | some (t, n, d) => match (s.directories n d).allocChunk with
        | none => none
        | some (addr, g) => some { s with
            directories := Function.update s.directories n (Function.update (s.directories n) d g)
            requests := s.requests.eraseIdx i
            replies := s.replies ++ [(t, addr)] }
  | .receive i => match s.replies[i]? with
      | none => none
      | some (t, addr) => match (s.threads t).waiting with
        | none => none
        | some size => some ({ s with replies := s.replies.eraseIdx i }.setThread t
            ((s.threads t).retry cl addr size).2)

def machine (cl : Cluster) : Machine State Action where
  step := step cl

inductive Event where
  | chunk (t : Thread) (addr : GlobalAddress)
  | returned (t : Thread) (addr : GlobalAddress) (size : Nat)
  deriving DecidableEq

def events (cl : Cluster) (s : State) : Action → List Event
  | .alloc t size =>
      let result := (s.threads t).allocator.malloc size
      if result.2.1 then [] else [.returned t result.1 size]
  | .serve _ => []
  | .receive i => match s.replies[i]? with
      | none => []
      | some (t, addr) => match (s.threads t).waiting with
        | none => []
        | some size => [.chunk t addr, .returned t ((s.threads t).retry cl addr size).1 size]

def rootPtrPtr (treeID : BitVec 16) : GlobalAddress where
  nodeID := 0
  offset := kRootPointerStoreOffset + 8 * treeID.toNat

end Sherman.Alloc
