import Mathlib.Data.List.Count
import Mathlib.Logic.Function.Basic
import Sherman.Concurrency.Transition

/-!
# Coroutines

`run_coroutine` with its workers and its master, and what the calls of `search` and `insert` do to the
completion queue and to `hot_wait_queue`. Which calls an operation makes depends on the tree; here a
worker makes any calls in any order.
-/

namespace Sherman.Coroutine

open Concurrency

inductive Place where
  | verb
  | lock
  deriving DecidableEq

inductive Effect where
  | post (signaled : Bool) (wrID : Nat)
  | pollCQ
  | message
  | pollRpc
  | hotWaitPush (id : Nat)
  | yield (place : Place)
  deriving DecidableEq

/-! ## The verbs of `DSM` -/

/-- The shape the verbs share: without a context the caller says whether the verb is signalled, with
one it is signalled with the id of the coroutine, which yields to the master. -/
def verb (signal : Bool) : Option Nat → List Effect
  | none => [.post signal 0]
  | some id => [.post true id, .yield .verb]

def verbSync (ctx : Option Nat) : List Effect :=
  verb true ctx ++ if ctx = none then [.pollCQ] else []

def readSync (ctx : Option Nat) : List Effect := verbSync ctx
def writeSync (ctx : Option Nat) : List Effect := verbSync ctx
def writeBatch (signal : Bool) (ctx : Option Nat) : List Effect := verb signal ctx
def writeBatchSync (ctx : Option Nat) : List Effect := verbSync ctx
def writeDm (signal : Bool) (ctx : Option Nat) : List Effect := verb signal ctx
def writeDmSync (ctx : Option Nat) : List Effect := verbSync ctx
def casSync (ctx : Option Nat) : List Effect := verbSync ctx
def casDmSync (ctx : Option Nat) : List Effect := verbSync ctx

def alloc (needChunk : Bool) : List Effect := if needChunk then [.message, .pollRpc] else []

/-! ## The calls of `search` and `insert` -/

inductive Call where
  | getRootPtr
  | pageSearch
  | acquireLocalLock
  | tryLockAddr
  | lockAndReadPage
  | unlockAddr (async : Bool)
  | writePageAndUnlock (handOver async : Bool)
  | storeAlloc (needChunk : Bool)
  | storeSibling
  | newRootAlloc (needChunk : Bool)
  | newRootWrite
  | newRootCas
  | broadcastNewRoot
  deriving DecidableEq

/-- What a call does when a worker makes it, with the context of the worker where the source passes
it on. -/
def Call.effects (id : Nat) : Call → List Effect
  | getRootPtr => readSync (some id)
  | pageSearch => readSync (some id)
  | acquireLocalLock => [.hotWaitPush id, .yield .lock]
  | tryLockAddr => casDmSync (some id)
  | lockAndReadPage => readSync (some id)
  | unlockAddr async => if async then writeDm false none else writeDmSync (some id)
  | writePageAndUnlock handOver async =>
      if handOver then writeSync (some id)
      else if async then writeBatch false none
      else writeBatchSync (some id)
  | storeAlloc needChunk => alloc needChunk
  | storeSibling => writeSync (some id)
  | newRootAlloc needChunk => alloc needChunk
  | newRootWrite => writeSync (some id)
  | newRootCas => casSync (some id)
  | broadcastNewRoot => [.message]

/-! ## The scheduler -/

inductive Master where
  | start (i : Nat)
  | poll
  | hotWait
  deriving DecidableEq

structure State where
  master : Master
  running : Option Nat
  /-- Where a worker that has been started and does not run gave up the processor. -/
  place : Nat → Option Place
  todo : Nat → List Effect
  /-- Signalled verbs that have not completed, by `wr_id`. -/
  outstanding : List Nat
  cq : List Nat
  hotWaitQueue : List Nat

def State.init : State where
  master := .start 0
  running := none
  place := fun _ => none
  todo := fun _ => []
  outstanding := []
  cq := []
  hotWaitQueue := []

namespace State

/-- `yield(worker[id])` by the master. -/
def resume (s : State) (id : Nat) : State :=
  { s with running := some id, place := Function.update s.place id none }

def perform (s : State) (id : Nat) : Effect → Option State
  | .post signaled wrID =>
      some (if signaled then { s with outstanding := s.outstanding ++ [wrID] } else s)
  | .pollCQ => match s.cq with
      | [] => none
      | _ :: rest => some { s with cq := rest }
  | .message => some s
  | .pollRpc => some s
  | .hotWaitPush i => some { s with hotWaitQueue := s.hotWaitQueue ++ [i] }
  | .yield place =>
      some { s with running := none, place := Function.update s.place id (some place) }

end State

inductive Action where
  | call (c : Call)
  | work
  | master
  | complete (i : Nat)
  deriving DecidableEq

def step (coroCnt : Nat) (s : State) : Action → Option State
  | .call c => match s.running with
      | none => none
      | some id =>
          if s.todo id = [] then some { s with todo := Function.update s.todo id (c.effects id) }
          else none
  | .work => match s.running with
      | none => none
      | some id => match s.todo id with
          | [] => none
          | e :: rest => State.perform { s with todo := Function.update s.todo id rest } id e
  | .master => match s.running with
      | some _ => none
      | none => match s.master with
          | .start i =>
              if i < coroCnt then some (State.resume { s with master := .start (i + 1) } i)
              else some { s with master := .poll }
          | .poll => match s.cq with
              | [] => some { s with master := .hotWait }
              | id :: rest =>
                  if id < coroCnt then some (State.resume { s with master := .hotWait, cq := rest } id) else none
          | .hotWait => match s.hotWaitQueue with
              | [] => some { s with master := .poll }
              | id :: rest =>
                  if id < coroCnt then some (State.resume { s with master := .poll, hotWaitQueue := rest } id)
                  else none
  | .complete i => match s.outstanding[i]? with
      | none => none
      | some id => some { s with outstanding := s.outstanding.eraseIdx i, cq := s.cq ++ [id] }

def machine (coroCnt : Nat) : Machine State Action where
  step := step coroCnt

/-- What the master resumes a worker for, and where the worker waits. -/
structure Resumed where
  id : Nat
  reason : Place
  place : Option Place
  deriving DecidableEq

def event (s : State) : Action → List Resumed
  | .master => match s.running, s.master with
      | none, .poll => match s.cq with
          | [] => []
          | id :: _ => [⟨id, .verb, s.place id⟩]
      | none, .hotWait => match s.hotWaitQueue with
          | [] => []
          | id :: _ => [⟨id, .lock, s.place id⟩]
      | _, _ => []
  | _ => []

end Sherman.Coroutine
