import Sherman.Tree.Machine

/-!
# The operations of the tree

The functions of `src/Tree.cpp` as programs over the machine.
-/

namespace Sherman

open Concurrency Program

inductive Op where
  | insert (k : Key) (v : Value)
  | del (k : Key)
  | search (k : Key)
  deriving DecidableEq, Repr

def Op.key : Op → Key
  | insert k _ => k
  | del k => k
  | search k => k

inductive Result where
  | done
  | value (v : Option Value)
  deriving DecidableEq, Repr

abbrev Code := Program signature

def verb (v : Verb) : Code (Resp v) := Program.perform (S := signature) v
def call (p : Proc) : Code (Ret p) := Program.invoke (S := signature) p
def stop {α : Type} (error : Fault) : Code α := .fault error
def assert (condition : Prop) [Decidable condition] (fn : Fn) (which : Check) : Code Unit :=
  Program.check (S := signature) condition (.assertion fn which)

/-! ## Locks and writes -/

def unlockAddr (la : GlobalAddress) (async : Bool) : Code Unit := do
  let handOverOther ← verb (.canHandOver la)
  if handOverOther then
    verb (.releaseLocalLock la)
  else
    verb (.post [.unlock la])
    unless async do verb (.poll la.nodeID)
    verb (.releaseLocalLock la)

def writePageAndUnlock (w : Write) (la : GlobalAddress) (async : Bool) : Code Unit := do
  let handOverOther ← verb (.canHandOver la)
  if handOverOther then
    verb (.post [w])
    verb (.poll w.node)
    verb (.releaseLocalLock la)
  else
    verb (.post [w, .unlock la])
    unless async do verb (.poll w.node)
    verb (.releaseLocalLock la)

def lockAndReadPage (pageAddr la : GlobalAddress) : Code (Option Page) := do
  verb (.tryLock la)
  verb (.readPage pageAddr)

def writeSync (a : GlobalAddress) (p : Page) : Code Unit := do
  verb (.post [.page a p])
  verb (.poll a.nodeID)

/-! ## The root pointer and `path_stack` -/

def getRootPtr : Code GlobalAddress := do
  let g ← verb .loadRoot
  if g = .null then verb .readRoot else verb .loadRoot

def loadPath (level : Nat) : Code GlobalAddress :=
  if level < kMaxLevelOfTree then verb (.loadPath level) else stop .pathStackOverflow

def storePath (level : Nat) (a : GlobalAddress) : Code Unit :=
  if level < kMaxLevelOfTree then verb (.storePath level a) else stop .pathStackOverflow

def updateNewRoot (left : GlobalAddress) (k : Key) (right : GlobalAddress) (level : Nat)
    (oldRoot : GlobalAddress) : Code Bool := do
  let newRootAddr ← verb .alloc
  writeSync newRootAddr (.internal (InternalPage.newRoot left k right level).setConsistent)
  let swapped ← verb (.casRoot oldRoot newRootAddr)
  if swapped then
    verb (.broadcastNewRoot newRootAddr level)
    return true
  else
    return false

/-! ## Searching a page -/

def cacheLevelOne (p : InternalPage) : Code Unit := do
  if p.hdr.level = 1 then
    let enableCache ← verb .loadEnableCache
    if enableCache then verb (.addToCache p)

def searchLeaf (p : LeafPage) (pageAddr : GlobalAddress) (k : Key) (fromCache : Bool) :
    Code (Option SearchResult) := do
  if ¬ p.checkConsistent then
    call (.pageSearch pageAddr k fromCache)
  else if fromCache ∧ (k < p.hdr.lowest ∨ p.hdr.highest ≤ k) then
    return none
  else
    assert (p.hdr.level = 0) .pageSearch .level
    if p.hdr.highest ≤ k then
      return some ⟨true, p.hdr.level, p.hdr.siblingPtr, .null, kValueNull⟩
    else if k < p.hdr.lowest then
      stop (.assertion .pageSearch .lowest)
    else
      return some ⟨true, p.hdr.level, .null, .null, p.search k⟩

def searchInternal (p : InternalPage) (pageAddr : GlobalAddress) (k : Key) (fromCache : Bool) :
    Code (Option SearchResult) := do
  assert (p.hdr.level ≠ 0) .pageSearch .level
  assert (fromCache = false) .pageSearch .notFromCache
  if ¬ p.checkConsistent then
    call (.pageSearch pageAddr k fromCache)
  else
    cacheLevelOne p
    if p.hdr.highest ≤ k then
      return some ⟨false, p.hdr.level, p.hdr.siblingPtr, .null, kValueNull⟩
    else if k < p.hdr.lowest then
      stop (.assertion .pageSearch .lowest)
    else
      let nextLevel ← ofExcept (S := signature) (p.search k)
      return some ⟨false, p.hdr.level, .null, nextLevel, kValueNull⟩

def pageSearch (pageAddr : GlobalAddress) (k : Key) (fromCache : Bool) :
    Code (Option SearchResult) := do
  let page ← verb (.readPage pageAddr)
  match page with
  | none => stop .wildAccess
  | some page =>
      storePath page.hdr.level pageAddr
      -- the buffer is taken for a leaf when its leftmost pointer is null
      match page, decide (page.hdr.leftmostPtr = .null) with
      | .leaf p, true => searchLeaf p pageAddr k fromCache
      | .internal p, false => searchInternal p pageAddr k fromCache
      | _, _ => stop .wildAccess

/-! ## Storing into a page -/

def internalPageStore (cfg : Config) (pageAddr : GlobalAddress) (k : Key) (v root : GlobalAddress)
    (level : Nat) : Code Unit := do
  let la := cfg.lockAddr pageAddr
  let page ← lockAndReadPage pageAddr la
  match page with
  | some (.internal page) =>
      assert (page.hdr.level = level) .internalPageStore .level
      assert page.checkConsistent .internalPageStore .consistent
      if page.hdr.highest ≤ k then
        unlockAddr la true
        assert (page.hdr.siblingPtr ≠ .null) .internalPageStore .siblingPtr
        call (.internalPageStore page.hdr.siblingPtr k v root level)
      else
        assert (page.hdr.lowest ≤ k) .internalPageStore .lowest
        let page ← ofExcept (S := signature) (page.store k v)
        if page.cnt = kInternalCardinality then
          let siblingAddr ← verb .alloc
          let (page, sibling, splitKey) ← ofExcept (S := signature) (page.split siblingAddr)
          writeSync siblingAddr (.internal sibling.setConsistent)
          writePageAndUnlock (.page pageAddr (.internal page.setConsistent)) la true
          call (.internalSplitUp pageAddr splitKey siblingAddr root level)
        else
          writePageAndUnlock (.page pageAddr (.internal page.setConsistent)) la false
  | _ => stop .wildAccess

def internalParentStore (splitKey : Key) (sibling root : GlobalAddress) (level : Nat) :
    Code Unit := do
  let upLevel ← loadPath (level + 1)
  if upLevel ≠ .null then
    call (.internalPageStore upLevel splitKey sibling root (level + 1))
  else
    stop (.assertion .internalPageStore .parent)

def internalSplitUp (pageAddr : GlobalAddress) (splitKey : Key) (sibling root : GlobalAddress)
    (level : Nat) : Code Unit := do
  if root = pageAddr then
    let updated ← updateNewRoot pageAddr splitKey sibling (level + 1) root
    if updated then return ()
    else internalParentStore splitKey sibling root level
  else internalParentStore splitKey sibling root level

def insertInternal (k : Key) (v : GlobalAddress) (level : Nat) : Code Unit := do
  let root ← getRootPtr
  call (.insertInternalNext root k v root level)

def leafParentStore (splitKey : Key) (sibling root : GlobalAddress) (level : Nat)
    (fromCache : Bool) : Code Unit := do
  let upLevel ← loadPath (level + 1)
  if upLevel ≠ .null then
    call (.internalPageStore upLevel splitKey sibling root (level + 1))
  else
    assert (fromCache = true) .leafPageStore .notFromCache
    insertInternal splitKey sibling (level + 1)

def leafSplitUp (pageAddr : GlobalAddress) (splitKey : Key) (sibling root : GlobalAddress)
    (level : Nat) (fromCache : Bool) : Code Unit := do
  if root = pageAddr then
    let updated ← updateNewRoot pageAddr splitKey sibling (level + 1) root
    if updated then return ()
    else leafParentStore splitKey sibling root level fromCache
  else leafParentStore splitKey sibling root level fromCache

def leafPageStore (cfg : Config) (pageAddr : GlobalAddress) (k : Key) (v : Value)
    (root : GlobalAddress) (level : Nat) (fromCache : Bool) : Code Bool := do
  let la := cfg.lockAddr pageAddr
  let page ← lockAndReadPage pageAddr la
  match page with
  | some (.leaf page) =>
      assert (page.hdr.level = level) .leafPageStore .level
      assert page.checkConsistent .leafPageStore .consistent
      if fromCache ∧ (k < page.hdr.lowest ∨ page.hdr.highest ≤ k) then
        unlockAddr la true
        return false
      else if page.hdr.highest ≤ k then
        unlockAddr la true
        assert (page.hdr.siblingPtr ≠ .null) .leafPageStore .siblingPtr
        let _ ← call (.leafPageStore page.hdr.siblingPtr k v root level false)
        return true
      else
        assert (page.hdr.lowest ≤ k) .leafPageStore .lowest
        let (i, page, cnt) ← ofExcept (S := signature) (page.store k v)
        if cnt ≠ kLeafCardinality then
          writePageAndUnlock (.entry pageAddr i (page.records.getD i default)) la false
          return true
        else
          let siblingAddr ← verb .alloc
          let (page, sibling, splitKey) ← ofExcept (S := signature) (page.split siblingAddr)
          writeSync siblingAddr (.leaf sibling.setConsistent)
          writePageAndUnlock (.page pageAddr (.leaf page.setConsistent)) la true
          call (.leafSplitUp pageAddr splitKey siblingAddr root level fromCache)
          return true
  | _ => stop .wildAccess

def leafPageDel (cfg : Config) (pageAddr : GlobalAddress) (k : Key) (level : Nat)
    (fromCache : Bool) : Code Bool := do
  let la := cfg.lockAddr pageAddr
  let page ← lockAndReadPage pageAddr la
  match page with
  | some (.leaf page) =>
      assert (page.hdr.level = level) .leafPageDel .level
      assert page.checkConsistent .leafPageDel .consistent
      if fromCache ∧ (k < page.hdr.lowest ∨ page.hdr.highest ≤ k) then
        unlockAddr la true
        return false
      else if page.hdr.highest ≤ k then
        unlockAddr la true
        assert (page.hdr.siblingPtr ≠ .null) .leafPageDel .siblingPtr
        let _ ← call (.leafPageDel page.hdr.siblingPtr k level false)
        return true
      else
        assert (page.hdr.lowest ≤ k) .leafPageDel .lowest
        match page.del k with
        | some (i, page) =>
            writePageAndUnlock (.entry pageAddr i (page.records.getD i default)) la false
        | none => unlockAddr la false
        return true
  | _ => stop .wildAccess

/-! ## The loops at the label `next` -/

def insertInternalNext (p : GlobalAddress) (k : Key) (v root : GlobalAddress) (level : Nat) :
    Code Unit := do
  match ← call (.pageSearch p k false) with
  | none =>
      let p ← getRootPtr
      call (.insertInternalNext p k v root level)
  | some result =>
      assert (result.level ≠ 0) .insertInternal .level
      if result.slibing ≠ .null then
        call (.insertInternalNext result.slibing k v root level)
      else if result.level ≠ level + 1 then
        call (.insertInternalNext result.nextLevel k v root level)
      else
        call (.internalPageStore result.nextLevel k v root level)

def insertNext (p : GlobalAddress) (k : Key) (v : Value) (root : GlobalAddress) : Code Unit := do
  match ← call (.pageSearch p k false) with
  | none =>
      let p ← getRootPtr
      call (.insertNext p k v root)
  | some result =>
      if result.isLeaf then
        let _ ← call (.leafPageStore p k v root 0 false)
      else
        assert (result.level ≠ 0) .insert .level
        if result.slibing ≠ .null then
          call (.insertNext result.slibing k v root)
        else if result.level ≠ 1 then
          call (.insertNext result.nextLevel k v root)
        else
          let _ ← call (.leafPageStore result.nextLevel k v root 0 false)

def delNext (p : GlobalAddress) (k : Key) : Code Unit := do
  match ← call (.pageSearch p k false) with
  | none =>
      let p ← getRootPtr
      call (.delNext p k)
  | some result =>
      if result.isLeaf then
        let _ ← call (.leafPageDel p k 0 false)
      else
        assert (result.level ≠ 0) .del .level
        if result.slibing ≠ .null then
          call (.delNext result.slibing k)
        else if result.level ≠ 1 then
          call (.delNext result.nextLevel k)
        else
          let _ ← call (.leafPageDel result.nextLevel k 0 false)

def searchNext (p : GlobalAddress) (k : Key) (root : GlobalAddress) (entry : Option CacheEntry) :
    Code (Option Value) := do
  match ← call (.pageSearch p k entry.isSome) with
  | none => match entry with
    | some e =>
        verb (.invalidate e)
        call (.searchNext root k root none)
    | none => call (.searchNext p k root none)
  | some result =>
      if result.isLeaf then
        if result.val ≠ kValueNull then return some result.val
        else if result.slibing ≠ .null then call (.searchNext result.slibing k root entry)
        else return none
      else
        let next := if result.slibing ≠ .null then result.slibing else result.nextLevel
        call (.searchNext next k root entry)

/-! ## Insert, delete and search -/

def insertFromRoot (k : Key) (v : Value) : Code Unit := do
  let root ← getRootPtr
  call (.insertNext root k v root)

def insert (k : Key) (v : Value) : Code Unit := do
  verb .beforeOperation
  let enableCache ← verb .loadEnableCache
  if enableCache then
    match ← verb (.searchFromCache k) with
    | some (entry, cacheAddr) =>
        let root ← getRootPtr
        let stored ← call (.leafPageStore cacheAddr k v root 0 true)
        if stored then return ()
        else
          verb (.invalidate entry)
          insertFromRoot k v
    | none => insertFromRoot k v
  else insertFromRoot k v

def delFromRoot (k : Key) : Code Unit := do
  let root ← getRootPtr
  call (.delNext root k)

def del (k : Key) : Code Unit := do
  verb .beforeOperation
  let enableCache ← verb .loadEnableCache
  if enableCache then
    match ← verb (.searchFromCache k) with
    | some (entry, cacheAddr) =>
        let deleted ← call (.leafPageDel cacheAddr k 0 true)
        if deleted then return ()
        else
          verb (.invalidate entry)
          delFromRoot k
    | none => delFromRoot k
  else delFromRoot k

def search (k : Key) : Code (Option Value) := do
  let root ← getRootPtr
  let enableCache ← verb .loadEnableCache
  if enableCache then
    match ← verb (.searchFromCache k) with
    | some (entry, cacheAddr) => call (.searchNext cacheAddr k root (some entry))
    | none => call (.searchNext root k root none)
  else call (.searchNext root k root none)

def body (cfg : Config) : (p : Proc) → Code (Ret p)
  | .pageSearch a k fromCache => pageSearch a k fromCache
  | .internalPageStore a k v root level => internalPageStore cfg a k v root level
  | .internalSplitUp a splitKey sibling root level => internalSplitUp a splitKey sibling root level
  | .leafPageStore a k v root level fromCache => leafPageStore cfg a k v root level fromCache
  | .leafSplitUp a splitKey sibling root level fromCache =>
      leafSplitUp a splitKey sibling root level fromCache
  | .leafPageDel a k level fromCache => leafPageDel cfg a k level fromCache
  | .insertInternalNext p k v root level => insertInternalNext p k v root level
  | .insertNext p k v root => insertNext p k v root
  | .delNext p k => delNext p k
  | .searchNext p k root entry => searchNext p k root entry

def main : Op → Code Result
  | .insert k v => do
      insert k v
      return .done
  | .del k => do
      del k
      return .done
  | .search k => do
      let v ← search k
      return .value v

def system (cfg : Config) : System signature Client Op Result Shared Choice Env where
  body := body cfg
  main := main
  perform := perform cfg
  interfere := interfere

abbrev State := Concurrency.State signature Client Op Result Shared

def State.init (root : GlobalAddress) : State where
  shared := .init root
  threads := fun _ => .idle

end Sherman
