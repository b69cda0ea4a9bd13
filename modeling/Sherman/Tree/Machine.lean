import Sherman.Concurrency.Interleaving
import Sherman.Page.Leaf
import Sherman.Cache.IndexCache

/-!
# The machine the tree runs on

Memory nodes, the root pointer, the directories, the locks and the state each compute node keeps.
Posted writes wait in `pending` and are executed later; those of one client to one node are executed
in posting order. A page lock is free, or owned by a client, with the flag that says whether the
owner hands the lock over instead of writing zero to the lock word.
-/

namespace Sherman

open Concurrency

/-- `CityHash64` of an address, and the node each client runs on. -/
structure Config where
  cityHash64 : GlobalAddress → Nat
  nodeOf : Client → NodeID

def Config.lockAddr (cfg : Config) (pageAddr : GlobalAddress) : GlobalAddress where
  nodeID := pageAddr.nodeID
  offset := (cfg.cityHash64 pageAddr % kNumOfLock) * 8

/-- The globals of `src/Directory.cpp` on one node. -/
structure Directory where
  gRootPtr : GlobalAddress
  gRootLevel : Int
  enableCache : Bool

/-- The `NEW_ROOT` case of `process_message`. -/
def Directory.processNewRoot (d : Directory) (addr : GlobalAddress) (level : Nat) : Directory :=
  if d.gRootLevel < level then
    { gRootPtr := addr, gRootLevel := level, enableCache := d.enableCache || decide (3 ≤ level) }
  else d

/-- What a posted RDMA write does: a whole page, one leaf entry, or zero to a lock word. -/
inductive Write where
  | page (a : GlobalAddress) (p : Page)
  | entry (a : GlobalAddress) (i : Nat) (r : LeafEntry)
  | unlock (lockAddr : GlobalAddress)
  deriving DecidableEq

namespace Write

def node : Write → NodeID
  | page a _ => a.nodeID
  | entry a _ _ => a.nodeID
  | unlock la => la.nodeID

def target : Write → Option GlobalAddress
  | page a _ => some a
  | entry a _ _ => some a
  | unlock _ => none

def apply : Write → Option Page → Option Page
  | page _ p, _ => some p
  | entry _ i r, some (.leaf p) => some (.leaf (p.setRecord i r))
  | entry _ _ _, old => old
  | unlock _, old => old

end Write

structure Posted where
  client : Client
  write : Write
  deriving DecidableEq

structure Shared where
  mem : GlobalAddress → Option Page
  rootPtr : GlobalAddress
  pending : List Posted
  lock : GlobalAddress → Option (Client × Bool)
  allocated : List GlobalAddress
  /-- The `NEW_ROOT` messages sent so far; they may be delivered late, twice or never. -/
  sent : List (GlobalAddress × Nat)
  dir : NodeID → Directory
  cache : NodeID → IndexCache
  path : Client → Nat → GlobalAddress

namespace Shared

def drained (s : Shared) (c : Client) (n : NodeID) : Prop :=
  ∀ x ∈ s.pending, x.client = c → x.write.node ≠ n

instance (s : Shared) (c : Client) (n : NodeID) : Decidable (s.drained c n) :=
  inferInstanceAs (Decidable (∀ x ∈ s.pending, x.client = c → x.write.node ≠ n))

def view (s : Shared) (a : GlobalAddress) : Option Page :=
  s.pending.foldl (fun page x => if x.write.target = some a then x.write.apply page else page)
    (s.mem a)

def execute (s : Shared) : Write → Shared
  | .unlock la => { s with lock := Function.update s.lock la none }
  | .page a p => { s with mem := Function.update s.mem a (some p) }
  | .entry a i r =>
      { s with mem := Function.update s.mem a ((Write.entry a i r).apply (s.mem a)) }

def init (root : GlobalAddress) : Shared where
  mem := Function.update (fun _ => none) root (some (.leaf (LeafPage.new 0).setConsistent))
  rootPtr := root
  pending := []
  lock := fun _ => none
  allocated := [root]
  sent := []
  dir := fun _ => { gRootPtr := .null, gRootLevel := -1, enableCache := false }
  cache := fun _ => []
  path := fun _ _ => .null

end Shared

/-! ## Verbs -/

structure SearchResult where
  isLeaf : Bool
  level : Nat
  slibing : GlobalAddress
  nextLevel : GlobalAddress
  val : Value
  deriving DecidableEq

inductive Verb where
  | beforeOperation
  | loadPath (level : Nat)
  | storePath (level : Nat) (a : GlobalAddress)
  | loadRoot
  | readRoot
  | loadEnableCache
  | searchFromCache (k : Key)
  | addToCache (p : InternalPage)
  | invalidate (e : CacheEntry)
  | readPage (a : GlobalAddress)
  | alloc
  | tryLock (la : GlobalAddress)
  | canHandOver (la : GlobalAddress)
  | releaseLocalLock (la : GlobalAddress)
  | post (ws : List Write)
  | poll (n : NodeID)
  | casRoot (old new : GlobalAddress)
  | broadcastNewRoot (a : GlobalAddress) (level : Nat)

@[reducible] def Resp : Verb → Type
  | .loadPath _ | .loadRoot | .readRoot | .alloc => GlobalAddress
  | .loadEnableCache | .canHandOver _ | .casRoot _ _ => Bool
  | .searchFromCache _ => Option (CacheEntry × GlobalAddress)
  | .readPage _ => Option Page
  | _ => Unit

/-- The functions of `src/Tree.cpp` that call each other or loop. A name ending in `Next` is a loop
at the label `next`, one ending in `SplitUp` the end of a store whose page was split. -/
inductive Proc where
  | pageSearch (pageAddr : GlobalAddress) (k : Key) (fromCache : Bool)
  | internalPageStore (pageAddr : GlobalAddress) (k : Key) (v root : GlobalAddress) (level : Nat)
  | internalSplitUp (pageAddr : GlobalAddress) (splitKey : Key) (sibling root : GlobalAddress)
      (level : Nat)
  | leafPageStore (pageAddr : GlobalAddress) (k : Key) (v : Value) (root : GlobalAddress)
      (level : Nat) (fromCache : Bool)
  | leafSplitUp (pageAddr : GlobalAddress) (splitKey : Key) (sibling root : GlobalAddress)
      (level : Nat) (fromCache : Bool)
  | leafPageDel (pageAddr : GlobalAddress) (k : Key) (level : Nat) (fromCache : Bool)
  | insertInternalNext (p : GlobalAddress) (k : Key) (v root : GlobalAddress) (level : Nat)
  | insertNext (p : GlobalAddress) (k : Key) (v : Value) (root : GlobalAddress)
  | delNext (p : GlobalAddress) (k : Key)
  | searchNext (p : GlobalAddress) (k : Key) (root : GlobalAddress) (entry : Option CacheEntry)

@[reducible] def Ret : Proc → Type
  | .pageSearch _ _ _ => Option SearchResult
  | .leafPageStore _ _ _ _ _ _ | .leafPageDel _ _ _ _ => Bool
  | .searchNext _ _ _ _ => Option Value
  | _ => Unit

@[reducible] def signature : Signature where
  Verb := Verb
  Resp := Resp
  Proc := Proc
  Ret := Ret
  Fault := Fault

/-- How the nondeterminism of a verb is resolved: the address an allocation returns, and whether
`can_hand_over` sees a waiter. -/
inductive Choice where
  | none
  | fresh (a : GlobalAddress)
  | waiter (b : Bool)
  deriving DecidableEq

def perform (cfg : Config) (c : Client) :
    (v : Verb) → Choice → Shared → Option (Resp v × Shared)
  | .beforeOperation, _, s =>
      some ((), { s with path := Function.update s.path c fun _ => .null })
  | .loadPath level, _, s => some (s.path c level, s)
  | .storePath level a, _, s =>
      some ((), { s with path := Function.update s.path c (Function.update (s.path c) level a) })
  | .loadRoot, _, s => some ((s.dir (cfg.nodeOf c)).gRootPtr, s)
  | .readRoot, _, s => if s.drained c 0 then some (s.rootPtr, s) else none
  | .loadEnableCache, _, s => some ((s.dir (cfg.nodeOf c)).enableCache, s)
  | .searchFromCache k, _, s => some ((s.cache (cfg.nodeOf c)).searchFromCache k, s)
  | .addToCache p, _, s =>
      let n := cfg.nodeOf c
      some ((), { s with cache := Function.update s.cache n ((s.cache n).addToCache p) })
  | .invalidate e, _, s =>
      let n := cfg.nodeOf c
      some ((), { s with cache := Function.update s.cache n ((s.cache n).invalidate e) })
  | .readPage a, _, s => if s.drained c a.nodeID then some (s.mem a, s) else none
  | .alloc, .fresh a, s =>
      if a ≠ .null ∧ a ∉ s.allocated then some (a, { s with allocated := a :: s.allocated })
      else none
  | .alloc, _, _ => none
  | .tryLock la, _, s =>
      if s.lock la = none then
        some ((), { s with lock := Function.update s.lock la (some (c, false)) })
      else none
  | .canHandOver la, .waiter b, s =>
      some (b, { s with lock := Function.update s.lock la ((s.lock la).map fun o => (o.1, b)) })
  | .canHandOver _, _, _ => none
  | .releaseLocalLock la, _, s =>
      if s.lock la = some (c, true) then
        some ((), { s with lock := Function.update s.lock la none })
      else some ((), s)
  | .post ws, _, s => some ((), { s with pending := s.pending ++ ws.map (⟨c, ·⟩) })
  | .poll n, _, s => if s.drained c n then some ((), s) else none
  | .casRoot old new, _, s =>
      if s.drained c 0 then
        if s.rootPtr = old then some (true, { s with rootPtr := new }) else some (false, s)
      else none
  | .broadcastNewRoot a level, _, s => some ((), { s with sent := (a, level) :: s.sent })

/-- What happens without a client: a memory node executes a posted write, a directory processes a
`NEW_ROOT` message, and a cached page is evicted. -/
inductive Env where
  | execute (i : Nat)
  | deliver (n : NodeID) (i : Nat)
  | evict (n : NodeID) (e : CacheEntry)

def interfere : Env → Shared → Option Shared
  | .execute i, s => match s.pending[i]? with
      | none => none
      | some x =>
          if ∀ y ∈ s.pending.take i, y.client = x.client → y.write.node ≠ x.write.node then
            some ({ s with pending := s.pending.eraseIdx i }.execute x.write)
          else none
  | .deliver n i, s => match s.sent[i]? with
      | none => none
      | some (a, level) =>
          some { s with dir := Function.update s.dir n ((s.dir n).processNewRoot a level) }
  | .evict n e, s => some { s with cache := Function.update s.cache n ((s.cache n).invalidate e) }

end Sherman
