import Mathlib.Logic.Function.Basic
import Sherman.Concurrency.Transition
import Sherman.Basic

/-!
# Registered buffers

`include/RdmaBuffer.h`, and what the operations of one coroutine of one thread do with it. Contents of
remote memory are whatever the reads return.
-/

namespace Sherman.Buffer

open Concurrency

/-- The bytes of a buffer slot, read as one number; 0 is the free lock word. -/
abbrev Bytes := Nat

def kPageBufferCnt : Nat := 8
def kSiblingBufferCnt : Nat := 8
def kCasBufferCnt : Nat := 8

inductive Slot where
  | page (i : Nat)
  | sibling (i : Nat)
  | cas (i : Nat)
  | entry (i : Nat)
  deriving DecidableEq

structure RdmaBuffer where
  content : Slot → Bytes
  pageBufferCur : Nat
  siblingBufferCur : Nat
  casBufferCur : Nat

namespace RdmaBuffer

def new : RdmaBuffer := ⟨fun _ => 0, 0, 0, 0⟩

def getCasBuffer (b : RdmaBuffer) : RdmaBuffer :=
  { b with casBufferCur := (b.casBufferCur + 1) % kCasBufferCnt }

def getPageBuffer (b : RdmaBuffer) : RdmaBuffer :=
  { b with pageBufferCur := (b.pageBufferCur + 1) % kPageBufferCnt }

def getSiblingBuffer (b : RdmaBuffer) : RdmaBuffer :=
  { b with siblingBufferCur := (b.siblingBufferCur + 1) % kSiblingBufferCnt }

def casBuffer (b : RdmaBuffer) : Slot := .cas b.casBufferCur
def pageBuffer (b : RdmaBuffer) : Slot := .page b.pageBufferCur
def siblingBuffer (b : RdmaBuffer) : Slot := .sibling b.siblingBufferCur

def fill (b : RdmaBuffer) (slot : Slot) (bytes : Bytes) : RdmaBuffer :=
  { b with content := Function.update b.content slot bytes }

end RdmaBuffer

/-- The page that starts `i` pages behind `get_range_buffer`: the page slots, the sibling slots, and
the memory from the entry buffer on. -/
def rangeSlot (i : Nat) : Slot :=
  if i < kPageBufferCnt then .page i
  else if i < kPageBufferCnt + kSiblingBufferCnt then .sibling (i - kPageBufferCnt)
  else .entry (i - kPageBufferCnt - kSiblingBufferCnt)

/-! ## The steps of the thread -/

/-- What the code does with the buffers. Verbs that are waited for name the node they go to. -/
inductive Step where
  | getPageBuffer
  | getCasBuffer
  | getSiblingBuffer
  | read (node : NodeID) (bytes : Bytes)
  | cas (node : NodeID) (bytes : Bytes)
  | makePage (bytes : Bytes)
  | makeSibling (bytes : Bytes)
  | write (node : NodeID)
  /-- `*cas_buf = 0` and a write of it, alone or after a page, that is waited for. -/
  | writeUnlock (node : NodeID)
  /-- `*cas_buf = 0` and an unsignalled write of it. -/
  | postUnlock (node : NodeID)
  /-- `*cas_buf = 0` and an unsignalled batch of the page buffer and it. -/
  | postBatch (node : NodeID)
  | postRead (i : Nat) (node : NodeID) (bytes : Bytes)
  | poll
  deriving DecidableEq

def lockAndReadPage (node : NodeID) (tries : List Bytes) (page : Bytes) : List Step :=
  [.getCasBuffer, .getPageBuffer] ++ tries.map (.cas node) ++ [.read node page]

def unlockAddr (node : NodeID) (handOver async : Bool) : List Step :=
  if handOver then []
  else [.getCasBuffer, if async then .postUnlock node else .writeUnlock node]

def writePageAndUnlock (node : NodeID) (handOver async : Bool) : List Step :=
  if handOver then [.write node]
  else [.getCasBuffer, if async then .postBatch node else .writeUnlock node]

def getRootPtr : Option Bytes → List Step
  | none => []
  | some bytes => [.getPageBuffer, .read 0 bytes]

def pageSearch (visit : NodeID × List Bytes) : List Step :=
  .getPageBuffer :: visit.2.map (.read visit.1)

def pageSearches (visits : List (NodeID × List Bytes)) : List Step := visits.flatMap pageSearch

def updateNewRoot (node : NodeID) (page old : Bytes) : List Step :=
  [.getPageBuffer, .getCasBuffer, .makePage page, .write node, .cas 0 old]

/-- How a split finds the page to store its sibling in: after an `update_new_root` that failed or
without one, on the path or, in `insert_internal`, from the root. -/
def UpRun (up : List Step) : Prop :=
  ∃ failed path, up = failed ++ path ∧
    (failed = [] ∨ ∃ node page old, failed = updateNewRoot node page old) ∧
    (path = [] ∨ ∃ root visits, path = getRootPtr root ++ pageSearches visits)

def splitAndUnlock (siblingNode : NodeID) (sibling : Bytes) (node : NodeID) (page : Bytes)
    (handOver : Bool) : List Step :=
  [.getSiblingBuffer, .makeSibling sibling, .write siblingNode, .makePage page] ++
    writePageAndUnlock node handOver true

inductive StoreRun : List Step → Prop
  | stale (node tries page handOver) :
      StoreRun (lockAndReadPage node tries page ++ unlockAddr node handOver true)
  | turnRight {rest} (node tries page handOver) : StoreRun rest →
      StoreRun (lockAndReadPage node tries page ++ unlockAddr node handOver true ++ rest)
  | absent (node tries page handOver) :
      StoreRun (lockAndReadPage node tries page ++ unlockAddr node handOver false)
  | stored (node tries page page' handOver) :
      StoreRun (lockAndReadPage node tries page ++
        .makePage page' :: writePageAndUnlock node handOver false)
  | splitRoot (node tries page page' handOver siblingNode sibling rootNode root old) :
      StoreRun (lockAndReadPage node tries page ++
        splitAndUnlock siblingNode sibling node page' handOver ++ updateNewRoot rootNode root old)
  | splitUp {up rest} (node tries page page' handOver siblingNode sibling) : UpRun up → StoreRun rest →
      StoreRun (lockAndReadPage node tries page ++
        splitAndUnlock siblingNode sibling node page' handOver ++ up ++ rest)

def fetch : Nat → List (NodeID × Bytes) → List Step
  | i, [] => if i = 0 then [] else [.poll]
  | i, (node, bytes) :: leaves =>
      if i = 32 then .poll :: .postRead 0 node bytes :: fetch 1 leaves
      else .postRead i node bytes :: fetch (i + 1) leaves

inductive OpRun : List Step → Prop
  | search (root visits) : OpRun (getRootPtr root ++ pageSearches visits)
  | update {store} (root visits) : StoreRun store →
      OpRun (getRootPtr root ++ pageSearches visits ++ store)
  | updateStale {store} (cachedRoot node tries page handOver root visits) : StoreRun store →
      OpRun (getRootPtr cachedRoot ++ lockAndReadPage node tries page ++ unlockAddr node handOver true ++
        getRootPtr root ++ pageSearches visits ++ store)
  | rangeQuery (leaves) : OpRun (fetch 0 leaves)

structure Operation where
  steps : List Step
  run : OpRun steps

/-! ## The queue pairs -/

inductive Kind where
  /-- An unsignalled write of the bytes a slot held when it was posted, after so many calls of
  `get_page_buffer` or `get_cas_buffer`. -/
  | write (source : Slot) (bytes : Bytes) (calls : Nat)
  | read (dest : Slot) (bytes : Bytes)
  deriving DecidableEq

def Kind.isRead : Kind → Bool
  | .read _ _ => true
  | .write _ _ _ => false

structure Posted where
  node : NodeID
  kind : Kind
  deriving DecidableEq

structure State where
  buf : RdmaBuffer
  pageCalls : Nat
  casCalls : Nat
  pending : List Posted
  todo : List Step

def State.init (ops : List Operation) : State where
  buf := .new
  pageCalls := 0
  casCalls := 0
  pending := []
  todo := ops.flatMap Operation.steps

namespace State

def drained (s : State) (n : NodeID) : Prop := ∀ x ∈ s.pending, x.node ≠ n

instance (s : State) (n : NodeID) : Decidable (s.drained n) :=
  inferInstanceAs (Decidable (∀ x ∈ s.pending, x.node ≠ n))

def post (s : State) (n : NodeID) (k : Kind) : State := { s with pending := s.pending ++ [⟨n, k⟩] }

def fill (s : State) (slot : Slot) (bytes : Bytes) : State := { s with buf := s.buf.fill slot bytes }

def postPage (s : State) (n : NodeID) : State :=
  s.post n (.write s.buf.pageBuffer (s.buf.content s.buf.pageBuffer) s.pageCalls)

def postCas (s : State) (n : NodeID) : State :=
  (s.fill s.buf.casBuffer 0).post n (.write s.buf.casBuffer 0 s.casCalls)

def perform (s : State) : Step → Option State
  | .getPageBuffer => some { s with buf := s.buf.getPageBuffer, pageCalls := s.pageCalls + 1 }
  | .getCasBuffer => some { s with buf := s.buf.getCasBuffer, casCalls := s.casCalls + 1 }
  | .getSiblingBuffer => some { s with buf := s.buf.getSiblingBuffer }
  | .read n bytes => if s.drained n then some (s.fill s.buf.pageBuffer bytes) else none
  | .cas n bytes => if s.drained n then some (s.fill s.buf.casBuffer bytes) else none
  | .makePage bytes => some (s.fill s.buf.pageBuffer bytes)
  | .makeSibling bytes => some (s.fill s.buf.siblingBuffer bytes)
  | .write n => if s.drained n then some s else none
  | .writeUnlock n => if s.drained n then some (s.fill s.buf.casBuffer 0) else none
  | .postUnlock n => some (s.postCas n)
  | .postBatch n => some ((s.postPage n).postCas n)
  | .postRead i n bytes => some (s.post n (.read (rangeSlot i) bytes))
  | .poll =>
      if s.pending.any fun x => x.kind.isRead then none else some s

end State

inductive Action where
  | thread
  | execute (i : Nat)
  deriving DecidableEq

def step (s : State) : Action → Option State
  | .thread => match s.todo with
      | [] => none
      | x :: rest => State.perform { s with todo := rest } x
  | .execute i => match s.pending[i]? with
      | none => none
      | some x =>
          if ∀ y ∈ s.pending.take i, y.node ≠ x.node then
            let s := { s with pending := s.pending.eraseIdx i }
            match x.kind with
            | .write _ _ _ => some s
            | .read dest bytes => some (s.fill dest bytes)
          else none

def machine : Machine State Action where
  step := step

structure Executed where
  source : Slot
  posted : Bytes
  written : Bytes
  deriving DecidableEq

def event (s : State) : Action → List Executed
  | .thread => []
  | .execute i => match s.pending[i]? with
      | some ⟨_, .write source bytes _⟩ => [⟨source, bytes, s.buf.content source⟩]
      | _ => []

end Sherman.Buffer
