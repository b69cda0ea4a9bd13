import Sherman.Cache.Accounting
import Sherman.Concurrency.Interleaving

/-!
# The index cache under concurrent threads

`add_to_cache`, `search_from_cache`, `invalidate` and the eviction of `include/IndexCache.h`, with one step
for each access to shared memory. The skip list is the sorted list of its entries.
-/

namespace Sherman.CacheThreads

open Concurrency Program CachePages

abbrev Tid := Nat

/-- The `CacheEntry*` of the skip list: entries are never removed, and their interval does not change. -/
structure EntryPtr where
  fromKey : Key
  toKey : Key
  deriving DecidableEq

def delayCycles : Nat := 3000 * 10

structure Shared where
  cache : CachePages.State
  freeLock : Option Tid
  clock : Nat
  /-- How often `malloc` has returned an address. -/
  born : Address → Nat
  loadedAt : Tid → Nat
  loadedBorn : Tid → Nat

def Shared.init (allPageCnt : Nat) : Shared := ⟨.init allPageCnt, none, 0, fun _ => 0, fun _ => 0, fun _ => 0⟩

inductive Field where
  | lastIndex
  | leftmostPtr
  | key (i : Nat)
  | ptr (i : Nat)

@[reducible] def Field.Val : Field → Type
  | .lastIndex => Int
  | .key _ => Key
  | _ => GlobalAddress

def Field.get (p : InternalPage) : (f : Field) → f.Val
  | .lastIndex => p.hdr.lastIndex
  | .leftmostPtr => p.hdr.leftmostPtr
  | .key i => (p.records.getD i default).key
  | .ptr i => (p.records.getD i default).ptr

/-! ## Verbs -/

inductive Verb where
  | getMyThreadID
  | malloc (p : InternalPage)
  | free (a : Address)
  | addEntry (fromKey toKey : Key) (a : Address)
  | findEntry (fromKey toKey : Key)
  | loadPtr (e : EntryPtr)
  | casPtr (e : EntryPtr) (expected new : Option Address)
  | load (a : Address) (f : Field)
  | readFreq (a : Address)
  | writeFreq (a : Address) (freq : Nat)
  | fetchAddNodeCnt
  | fetchAddFreePageCnt (delta : Int)
  | rdtsc
  | delayFront
  | delayPush (a : Address) (since : Nat)
  | delayPop
  | wLock
  | wUnlock
  | rand

@[reducible] def Resp : Verb → Type
  | .getMyThreadID => Tid
  | .malloc _ => Address
  | .free _ | .addEntry _ _ _ | .casPtr _ _ _ | .writeFreq _ _ => Bool
  | .findEntry _ _ => Option EntryPtr
  | .loadPtr _ => Option Address
  | .load _ f => Option f.Val
  | .readFreq _ => Option Nat
  | .fetchAddFreePageCnt _ => Int
  | .rdtsc | .rand => Nat
  | .delayFront => Option (Address × Nat)
  | _ => Unit

inductive Proc where
  | getARandomEntry

@[reducible] def Ret : Proc → Type
  | .getARandomEntry => EntryPtr × Nat

/-- A page is used after it was freed, also where its address has been allocated again, or freed twice. -/
inductive Fault where
  | useAfterFree
  | doubleFree
  deriving DecidableEq, Repr

@[reducible] def signature : Signature where
  Verb := Verb
  Resp := Resp
  Proc := Proc
  Ret := Ret
  Fault := Fault

inductive Choice where
  | none
  | address (a : Address)
  | random (r : Nat)

namespace Shared

def ptr (s : Shared) (e : EntryPtr) : Option Address := (s.cache.slot e.fromKey e.toKey).bind Slot.ptr

def setPtr (s : Shared) (e : EntryPtr) (ptr : Option Address) : Shared :=
  { s with cache.entries := State.setPtr e.fromKey e.toKey ptr s.cache.entries }

def setHeap (s : Shared) (a : Address) (c : Option CachedPage) : Shared :=
  { s with cache.heap := Function.update s.cache.heap a c }

def loaded (s : Shared) (t : Tid) (a : Address) : Option CachedPage :=
  if s.born a = s.loadedBorn t then s.cache.heap a else none

end Shared

def seekEntry (entries : List Slot) (fromKey toKey : Key) : Option EntryPtr :=
  (entries.find? fun x => ¬ x.key.less ⟨fromKey, toKey, none⟩).map fun x => ⟨x.fromKey, x.toKey⟩

def perform (t : Tid) : (v : Verb) → Choice → Shared → Option (Resp v × Shared)
  | .getMyThreadID, _, s => some (t, s)
  | .malloc p, .address a, s =>
      if (s.cache.heap a).isSome then none
      else some (a, { s.setHeap a (some ⟨p, 0⟩) with born := Function.update s.born a (s.born a + 1) })
  | .malloc _, _, _ => none
  | .free a, _, s => if (s.cache.heap a).isSome then some (true, s.setHeap a none) else some (false, s)
  | .addEntry fromKey toKey a, _, s =>
      if s.cache.entries.any (Slot.isFor fromKey toKey) then some (false, s)
      else some (true, { s with cache.entries := State.insertSlot ⟨fromKey, toKey, some a⟩ s.cache.entries })
  | .findEntry fromKey toKey, _, s => some (seekEntry s.cache.entries fromKey toKey, s)
  | .loadPtr e, _, s =>
      some (s.ptr e, { s with
        loadedAt := Function.update s.loadedAt t s.clock
        loadedBorn := Function.update s.loadedBorn t ((s.ptr e).elim 0 s.born) })
  | .casPtr e expected new, _, s =>
      if (s.cache.slot e.fromKey e.toKey).isSome ∧ s.ptr e = expected then some (true, s.setPtr e new)
      else some (false, s)
  | .load a f, _, s => some ((s.loaded t a).map fun c => f.get c.page, s)
  | .readFreq a, _, s => some ((s.loaded t a).map CachedPage.indexCacheFreq, s)
  | .writeFreq a freq, _, s => match s.loaded t a with
      | some c => some (true, s.setHeap a (some { c with indexCacheFreq := freq }))
      | none => some (false, s)
  | .fetchAddNodeCnt, _, s => some ((), { s with cache.skiplistNodeCnt := s.cache.skiplistNodeCnt + 1 })
  | .fetchAddFreePageCnt delta, _, s =>
      some (s.cache.freePageCnt, { s with cache.freePageCnt := s.cache.freePageCnt + delta })
  | .rdtsc, _, s => some (s.clock, s)
  | .delayFront, _, s => some (s.cache.delayFreeList.head?, s)
  | .delayPush a since, _, s =>
      some ((), { s with cache.delayFreeList := s.cache.delayFreeList ++ [(a, since)] })
  | .delayPop, _, s => some ((), { s with cache.delayFreeList := s.cache.delayFreeList.tail })
  | .wLock, _, s => if s.freeLock = none then some ((), { s with freeLock := some t }) else none
  | .wUnlock, _, s => some ((), { s with freeLock := none })
  | .rand, .random r, s => some (r, s)
  | .rand, _, _ => none

/-! ## Programs -/

abbrev Code := Program signature

def verb (v : Verb) : Code (Resp v) := Program.perform (S := signature) v
def call (p : Proc) : Code (Ret p) := Program.invoke (S := signature) p
def stop {α : Type} (error : Fault) : Code α := .fault error

def used {α : Type} : Option α → Code α
  | some value => pure value
  | none => stop .useAfterFree

def freePage (a : Address) : Code Unit := do
  let freed ← verb (.free a)
  if freed then return () else stop .doubleFree

def freeDelayed : Code Unit := do
  match ← verb .delayFront with
  | none => return ()
  | some (a, since) =>
      let now ← verb .rdtsc
      if delayCycles < (now + (2 ^ 64 - since % 2 ^ 64)) % 2 ^ 64 then
        freePage a
        let _ ← verb (.fetchAddFreePageCnt 1)
        verb .wLock
        verb .delayPop
        verb .wUnlock

def loadChildFrom (a : Address) (k : Key) : Nat → Nat → Code GlobalAddress
  | 0, i => do used (← verb (.load a (.ptr (i - 1))))
  | fuel + 1, i => do
      let key ← used (← verb (.load a (.key i)))
      if k < key then used (← verb (.load a (.ptr (i - 1))))
      else loadChildFrom a k fuel (i + 1)

def loadChild (a : Address) (k : Key) : Code GlobalAddress := do
  let lastIndex ← used (← verb (.load a .lastIndex))
  let key ← used (← verb (.load a (.key 0)))
  if k < key then used (← verb (.load a .leftmostPtr))
  else loadChildFrom a k ((lastIndex + 1).toNat - 1) 1

def searchFromCache (k : Key) (isLeader : Bool) : Code (Option (EntryPtr × GlobalAddress)) := do
  if isLeader then freeDelayed
  match ← verb (.findEntry k k) with
  | none => return none
  | some e =>
      match ← verb (.loadPtr e) with
      | none => return none
      | some a =>
          if e.fromKey ≤ k ∧ k ≤ e.toKey then
            let freq ← used (← verb (.readFreq a))
            let written ← verb (.writeFreq a (freq + 1))
            if written then
              let child ← loadChild a k
              let again ← verb (.loadPtr e)
              if again.isSome then return some (e, child) else return none
            else stop .useAfterFree
          else return none

def invalidate (e : EntryPtr) : Code Bool := do
  match ← verb (.loadPtr e) with
  | none => return false
  | some a =>
      let taken ← verb (.casPtr e (some a) none)
      if taken then
        verb .wLock
        let now ← verb .rdtsc
        verb (.delayPush a now)
        verb .wUnlock
        return true
      else return false

def getARandomEntry : Code (EntryPtr × Nat) := do
  let r ← verb .rand
  match ← searchFromCache (r % IndexCache.sampleSpace) false with
  | none => call .getARandomEntry
  | some (e, _) =>
      match ← verb (.loadPtr e) with
      | none => call .getARandomEntry
      | some a =>
          let freq ← used (← verb (.readFreq a))
          let again ← verb (.loadPtr e)
          if again ≠ some a then call .getARandomEntry else return (e, freq)

def evictOne : Code Unit := do
  let (e₁, freq₁) ← call .getARandomEntry
  let (e₂, freq₂) ← call .getARandomEntry
  if freq₁ < freq₂ then
    let _ ← invalidate e₁
  else
    let _ ← invalidate e₂

def takePage : Code Unit := do
  let v ← verb (.fetchAddFreePageCnt (-1))
  if v ≤ 0 then evictOne

def addToCache (p : InternalPage) : Code Bool := do
  let newPage ← verb (.malloc p)
  let added ← verb (.addEntry p.hdr.lowest (p.hdr.highest - 1) newPage)
  if added then
    verb .fetchAddNodeCnt
    takePage
    return true
  else
    -- conflicted
    match ← verb (.findEntry p.hdr.lowest (p.hdr.highest - 1)) with
    | none =>
        freePage newPage
        return false
    | some e =>
        if e = ⟨p.hdr.lowest, p.hdr.highest - 1⟩ then
          match ← verb (.loadPtr e) with
          | some _ =>
              freePage newPage
              return false
          | none =>
              let refilled ← verb (.casPtr e none (some newPage))
              if refilled then
                takePage
                return true
              else
                freePage newPage
                return false
        else
          freePage newPage
          return false

inductive Op where
  | addToCache (p : InternalPage)
  | searchFromCache (k : Key)
  | invalidate (e : EntryPtr)
  deriving DecidableEq

inductive Result where
  | flag (b : Bool)
  | found (r : Option (EntryPtr × GlobalAddress))
  deriving DecidableEq

/-- The thread with id 0 is the leader in the calls of `Tree.cpp`. -/
def main : Op → Code Result
  | .addToCache p => do return .flag (← addToCache p)
  | .searchFromCache k => do
      let id ← verb .getMyThreadID
      return .found (← searchFromCache k (id = 0))
  | .invalidate e => do return .flag (← invalidate e)

/-- Any number of threads; the environment lets the clock advance. -/
def system : System signature Tid Op Result Shared Choice Nat where
  body := fun .getARandomEntry => getARandomEntry
  main := main
  perform := perform
  interfere cycles s := some { s with clock := s.clock + cycles }

end Sherman.CacheThreads
