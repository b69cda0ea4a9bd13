import Mathlib.Data.Finset.Card
import Mathlib.Data.Fintype.Card
import Mathlib.Data.List.Range
import Mathlib.Algebra.Group.Nat.Defs
import Mathlib.Logic.Function.Basic
import Std.Data.String.ToNat
import Sherman.Concurrency.Transition

/-!
# The wiring of the queue pairs

`DSMKeeper` of every server: `serverEnter`, `serverConnect` and `connectMySelf`, with one access to memcached at a
time.
-/

namespace Sherman.Wiring

open Concurrency

abbrev MAX_APP_THREAD : Nat := 26
abbrev NR_DIRECTORY : Nat := 1

abbrev Thread := Fin MAX_APP_THREAD
abbrev Directory := Fin NR_DIRECTORY

structure RdmaContext where
  lid : BitVec 16
  gid : BitVec 128
  deriving DecidableEq

structure ThreadConnection where
  ctx : RdmaContext
  cachePool : BitVec 64
  cacheRKey : BitVec 32
  messageQPN : BitVec 32
  /-- `data[d][remoteID]->qp_num`. -/
  data : Directory → Nat → BitVec 32

structure DirectoryConnection where
  ctx : RdmaContext
  dsmPool : BitVec 64
  lockPool : BitVec 64
  dsmRKey : BitVec 32
  lockRKey : BitVec 32
  messageQPN : BitVec 32
  /-- `data2app[t][remoteID]->qp_num`. -/
  data2app : Thread → Nat → BitVec 32

structure ExPerThread where
  lid : BitVec 16
  gid : BitVec 128
  rKey : BitVec 32
  lock_rkey : BitVec 32

structure ExchangeMeta where
  dsmBase : BitVec 64
  cacheBase : BitVec 64
  lockBase : BitVec 64
  appTh : Thread → ExPerThread
  dirTh : Directory → ExPerThread
  appUdQpn : Thread → BitVec 32
  dirUdQpn : Directory → BitVec 32
  appRcQpn2dir : Thread → Directory → BitVec 32
  dirRcQpn2app : Directory → Thread → BitVec 32

/-- A server when its keeper is built; `memory` is what `localMeta` holds before. -/
structure Server where
  thCon : Thread → ThreadConnection
  dirCon : Directory → DirectoryConnection
  memory : ExchangeMeta

structure Peer where
  dest_qp_num : BitVec 32
  dlid : BitVec 16
  dgid : BitVec 128
  deriving DecidableEq

structure RemoteConnection where
  dsmBase : BitVec 64
  cacheBase : BitVec 64
  lockBase : BitVec 64
  dsmRKey : Directory → BitVec 32
  lockRKey : Directory → BitVec 32
  dirMessageQPN : Directory → BitVec 32
  appToDirAh : Thread → Directory → RdmaContext
  appRKey : Thread → BitVec 32
  appMessageQPN : Thread → BitVec 32
  dirToAppAh : Directory → Thread → RdmaContext

namespace Server

def initLocalMeta (server : Server) : ExchangeMeta :=
  { server.memory with
    dsmBase := (server.dirCon 0).dsmPool
    lockBase := (server.dirCon 0).lockPool
    cacheBase := (server.thCon 0).cachePool
    appTh := fun i =>
      { server.memory.appTh i with
        lid := (server.thCon i).ctx.lid
        rKey := (server.thCon i).cacheRKey
        gid := (server.thCon i).ctx.gid }
    appUdQpn := fun i => (server.thCon i).messageQPN
    dirTh := fun i =>
      { lid := (server.dirCon i).ctx.lid
        rKey := (server.dirCon i).dsmRKey
        lock_rkey := (server.dirCon i).lockRKey
        gid := (server.dirCon i).ctx.gid }
    dirUdQpn := fun i => (server.dirCon i).messageQPN }

def setDataToRemote (server : Server) (localMeta : ExchangeMeta) (remoteID : Nat) : ExchangeMeta :=
  { localMeta with
    dirRcQpn2app := fun i k => (server.dirCon i).data2app k remoteID
    appRcQpn2dir := fun i k => (server.thCon i).data k remoteID }

def threadEnd (server : Server) (t : Thread) (d : Directory) (remoteID : Nat) : Peer :=
  ⟨(server.thCon t).data d remoteID, (server.thCon t).ctx.lid, (server.thCon t).ctx.gid⟩

def directoryEnd (server : Server) (d : Directory) (t : Thread) (remoteID : Nat) : Peer :=
  ⟨(server.dirCon d).data2app t remoteID, (server.dirCon d).ctx.lid, (server.dirCon d).ctx.gid⟩

end Server

/-- Where a node is: before `serverEnter`, before the test of the loop of `serverConnect`, in its inner loop at
node `k`, before the `memGet` of `connectNode(k)`, before `connectMySelf`, or behind it. -/
inductive Phase where
  | serverEnter
  | serverConnect
  | connect (k serverNum : Nat)
  | memGet (k serverNum : Nat)
  | connectMySelf
  | finished
  deriving DecidableEq

structure Node where
  phase : Phase
  myNodeID : Nat
  curServer : Nat
  localMeta : ExchangeMeta
  data : Thread → Directory → Nat → Option Peer
  data2app : Directory → Thread → Nat → Option Peer
  remoteCon : Nat → Option RemoteConnection
  /-- The nodes `connectNode` was called for. -/
  connected : List Nat

namespace Node

def init (server : Server) : Node :=
  ⟨.serverEnter, 0, 0, server.initLocalMeta, fun _ _ _ => none, fun _ _ _ => none, fun _ => none, []⟩

def setDataFromRemote (n : Node) (remoteID : Nat) (remoteMeta : ExchangeMeta) : Node :=
  { n with
    data2app := fun i k => Function.update (n.data2app i k) remoteID
      (some ⟨remoteMeta.appRcQpn2dir k i, (remoteMeta.appTh k).lid, (remoteMeta.appTh k).gid⟩)
    data := fun i k => Function.update (n.data i k) remoteID
      (some ⟨remoteMeta.dirRcQpn2app k i, (remoteMeta.dirTh k).lid, (remoteMeta.dirTh k).gid⟩)
    remoteCon := Function.update n.remoteCon remoteID (some
      { dsmBase := remoteMeta.dsmBase
        cacheBase := remoteMeta.cacheBase
        lockBase := remoteMeta.lockBase
        dsmRKey := fun i => (remoteMeta.dirTh i).rKey
        lockRKey := fun i => (remoteMeta.dirTh i).lock_rkey
        dirMessageQPN := remoteMeta.dirUdQpn
        appToDirAh := fun _ i => ⟨(remoteMeta.dirTh i).lid, (remoteMeta.dirTh i).gid⟩
        appRKey := fun i => (remoteMeta.appTh i).rKey
        appMessageQPN := remoteMeta.appUdQpn
        dirToAppAh := fun _ i => ⟨(remoteMeta.appTh i).lid, (remoteMeta.appTh i).gid⟩ }) }

end Node

def key (a b : Nat) : String := Nat.repr a ++ "-" ++ Nat.repr b

structure State (maxServer : Nat) where
  serverNum : Nat
  store : String → Option ExchangeMeta
  nodes : Fin maxServer → Node

variable {maxServer : Nat}

def State.init (servers : Fin maxServer → Server) : State maxServer :=
  ⟨0, fun _ => none, fun i => .init (servers i)⟩

def State.setNode (s : State maxServer) (i : Fin maxServer) (n : Node) : State maxServer :=
  { s with nodes := Function.update s.nodes i n }

def machine (servers : Fin maxServer → Server) : Machine (State maxServer) (Fin maxServer) where
  step s i :=
    let n := s.nodes i
    match n.phase with
    | .serverEnter =>
        some { s.setNode i { n with myNodeID := s.serverNum % 2 ^ 16, phase := .serverConnect } with
          serverNum := s.serverNum + 1 }
    | .serverConnect =>
        if n.curServer < maxServer then
          some (s.setNode i { n with phase := .connect n.curServer (s.serverNum % 2 ^ 32) })
        else some (s.setNode i { n with phase := .connectMySelf })
    | .connect k serverNum =>
        if k < serverNum then
          if k ≠ n.myNodeID then
            let remoteID := k % 2 ^ 16
            let localMeta := (servers i).setDataToRemote n.localMeta remoteID
            some { s.setNode i { n with
                localMeta := localMeta
                connected := n.connected ++ [remoteID]
                phase := .memGet k serverNum } with
              store := Function.update s.store (key n.myNodeID remoteID) (some localMeta) }
          else some (s.setNode i { n with phase := .connect (k + 1) serverNum })
        else some (s.setNode i { n with curServer := serverNum % 2 ^ 16, phase := .serverConnect })
    | .memGet k serverNum =>
        let remoteID := k % 2 ^ 16
        match s.store (key remoteID n.myNodeID) with
        | none => none
        | some remoteMeta =>
            some (s.setNode i { n.setDataFromRemote remoteID remoteMeta with phase := .connect (k + 1) serverNum })
    | .connectMySelf =>
        let localMeta := (servers i).setDataToRemote n.localMeta n.myNodeID
        some (s.setNode i
          { { n with localMeta := localMeta }.setDataFromRemote n.myNodeID localMeta with phase := .finished })
    | .finished => none

def State.Known (s : State maxServer) (i : Fin maxServer) (a : Nat) : Prop :=
  (s.nodes i).phase ≠ .serverEnter ∧ (s.nodes i).myNodeID = a

def Holds (servers : Fin maxServer → Server) (n : Node) (j : Fin maxServer) (b : Nat) : Prop :=
  ∀ t d, n.data t d b = some ((servers j).directoryEnd d t n.myNodeID) ∧
    n.data2app d t b = some ((servers j).threadEnd t d n.myNodeID)

/-- Each node is connected to every other one once, and the two nodes hold each other's queue pairs. -/
structure Sound (servers : Fin maxServer → Server) (s : State maxServer) : Prop where
  distinct : ∀ i j, (s.nodes i).myNodeID = (s.nodes j).myNodeID → i = j
  once : ∀ i j, (s.nodes i).connected.count (s.nodes j).myNodeID = if i = j then 0 else 1
  others : ∀ i, ∀ a ∈ (s.nodes i).connected, ∃ j, (s.nodes j).myNodeID = a
  thread : ∀ i j t d, (s.nodes i).data t d (s.nodes j).myNodeID =
    some ((servers j).directoryEnd d t (s.nodes i).myNodeID)
  directory : ∀ i j t d, (s.nodes j).data2app d t (s.nodes i).myNodeID =
    some ((servers i).threadEnd t d (s.nodes j).myNodeID)

/-! ## The nodes reached so far -/

def others (a k : Nat) : List Nat := (List.range k).filter (· ≠ a)

section
variable (servers : Fin maxServer → Server) (s : State maxServer)

def Linked (n : Node) (k : Nat) : Prop :=
  ∀ b < k, b ≠ n.myNodeID → ∃ j, s.Known j b ∧ Holds servers n j b

def Reached (n : Node) (k : Nat) : Prop := n.connected = others n.myNodeID k ∧ Linked servers s n k

def AtPhase (i : Fin maxServer) (n : Node) : Phase → Prop
  | .serverEnter => n.curServer = 0 ∧ n.connected = []
  | .serverConnect => n.curServer ≤ s.serverNum ∧ Reached servers s n n.curServer
  | .connect k serverNum => k ≤ serverNum ∧ serverNum ≤ s.serverNum ∧ Reached servers s n k
  | .memGet k serverNum => k < serverNum ∧ serverNum ≤ s.serverNum ∧
      n.connected = others n.myNodeID (k + 1) ∧ Linked servers s n k
  | .connectMySelf => maxServer ≤ n.curServer ∧ n.curServer ≤ s.serverNum ∧ Reached servers s n n.curServer
  | .finished => (maxServer ≤ n.curServer ∧ n.curServer ≤ s.serverNum ∧ Reached servers s n n.curServer) ∧
      Holds servers n i n.myNodeID

def described (i : Fin maxServer) (b : Nat) : ExchangeMeta :=
  (servers i).setDataToRemote (servers i).initLocalMeta b

structure Inv : Prop where
  count : s.serverNum = (Finset.univ.filter fun i => (s.nodes i).phase ≠ .serverEnter).card
  bound : ∀ i a, s.Known i a → a < s.serverNum
  distinct : ∀ i j a, s.Known i a → s.Known j a → i = j
  localMeta : ∀ i b, (servers i).setDataToRemote (s.nodes i).localMeta b = described servers i b
  store : ∀ a b remoteMeta, s.store (key a b) = some remoteMeta →
    ∃ i, s.Known i a ∧ remoteMeta = described servers i b
  phase : ∀ i, AtPhase servers s i (s.nodes i) (s.nodes i).phase

end

variable {servers : Fin maxServer → Server} {s t : State maxServer} {i j : Fin maxServer} {n : Node} {a b k : Nat}

theorem key_injective {a b c d : Nat} (same : key a b = key c d) : a = c ∧ b = d := by
  have dash : ∀ m, '-' ∉ (Nat.repr m).toList := by
    intro m
    rw [Nat.toList_repr]
    intro digit
    have := Nat.isDigit_of_mem_toDigits (by decide) (by decide) digit
    exact absurd this (by decide)
  have lists : (Nat.repr a).toList ++ '-' :: (Nat.repr b).toList =
      (Nat.repr c).toList ++ '-' :: (Nat.repr d).toList := by
    simpa [key] using congrArg String.toList same
  obtain ⟨first, -, second⟩ := (List.append_cons_inj_of_notMem (dash a) (dash b)).mp lists
  exact ⟨Nat.repr_injective (String.toList_inj.mp first), Nat.repr_injective (String.toList_inj.mp second)⟩

@[simp] theorem setNode_nodes_self (s : State maxServer) (i : Fin maxServer) (n : Node) :
    (s.setNode i n).nodes i = n :=
  Function.update_self ..

@[simp] theorem setNode_nodes_ne (s : State maxServer) (n : Node) (ne : j ≠ i) :
    (s.setNode i n).nodes j = s.nodes j :=
  Function.update_of_ne ne ..

theorem others_succ (ne : k ≠ a) : others a (k + 1) = others a k ++ [k] := by
  simp [others, List.range_succ, ne]

theorem others_self : others a (a + 1) = others a a := by
  simp [others, List.range_succ]

theorem count_others (less : b < k) : (others a k).count b = if b = a then 0 else 1 := by
  split
  · rename_i same
    subst same
    exact List.count_eq_zero.mpr (by simp [others])
  · rename_i ne
    rw [others, List.count_filter (by simpa using ne)]
    exact List.count_eq_one_of_mem List.nodup_range (List.mem_range.mpr less)

theorem Holds.stored (n : Node) (j : Fin maxServer) (b : Nat) :
    Holds servers (n.setDataFromRemote b (described servers j n.myNodeID)) j b :=
  fun _ _ => ⟨Function.update_self .., Function.update_self ..⟩

theorem Holds.frame (h : Holds servers n j b) (ne : b ≠ k) (remoteMeta : ExchangeMeta) :
    Holds servers (n.setDataFromRemote k remoteMeta) j b :=
  fun t d => ⟨(Function.update_of_ne ne ..).trans (h t d).1, (Function.update_of_ne ne ..).trans (h t d).2⟩

/-! ## The steps -/

theorem AtPhase.mono (h : AtPhase servers s i n n.phase) (known : ∀ j b, s.Known j b → t.Known j b)
    (more : s.serverNum ≤ t.serverNum) : AtPhase servers t i n n.phase := by
  have linked : ∀ k, Linked servers s n k → Linked servers t n k := by
    intro k linked b less ne
    obtain ⟨j, hj, holds⟩ := linked b less ne
    exact ⟨j, known j b hj, holds⟩
  cases at' : n.phase with
  | serverEnter =>
      rw [at'] at h
      exact h
  | serverConnect =>
      rw [at'] at h
      exact ⟨h.1.trans more, h.2.1, linked _ h.2.2⟩
  | connect k serverNum =>
      rw [at'] at h
      exact ⟨h.1, h.2.1.trans more, h.2.2.1, linked _ h.2.2.2⟩
  | memGet k serverNum =>
      rw [at'] at h
      exact ⟨h.1, h.2.1.trans more, h.2.2.1, linked _ h.2.2.2⟩
  | connectMySelf =>
      rw [at'] at h
      exact ⟨h.1, h.2.1.trans more, h.2.2.1, linked _ h.2.2.2⟩
  | finished =>
      rw [at'] at h
      exact ⟨⟨h.1.1, h.1.2.1.trans more, h.1.2.2.1, linked _ h.1.2.2.2⟩, h.2⟩

theorem Inv.serverNum_le (h : Inv servers s) : s.serverNum ≤ maxServer := by
  rw [h.count]
  exact (Finset.card_le_univ _).trans_eq (Fintype.card_fin maxServer)

theorem init_inv (servers : Fin maxServer → Server) : Inv servers (.init servers) where
  count := by simp [State.init, Node.init]
  bound i a known := absurd rfl known.1
  distinct i j a known := absurd rfl known.1
  localMeta i b := rfl
  store a b remoteMeta stored := by cases stored
  phase i := ⟨rfl, rfl⟩

theorem known_setNode (entered : (s.nodes i).phase ≠ .serverEnter) (entered' : n.phase ≠ .serverEnter)
    (same : n.myNodeID = (s.nodes i).myNodeID) (j : Fin maxServer) (b : Nat) :
    (s.setNode i n).Known j b ↔ s.Known j b := by
  by_cases self : j = i
  · subst self
    simp [State.Known, entered, entered', same]
  · simp [State.Known, setNode_nodes_ne s n self]

theorem Inv.move (h : Inv servers s) (entered : (s.nodes i).phase ≠ .serverEnter)
    (entered' : n.phase ≠ .serverEnter) (same : n.myNodeID = (s.nodes i).myNodeID)
    (localMeta : ∀ b, (servers i).setDataToRemote n.localMeta b = described servers i b)
    (phase : AtPhase servers s i n n.phase) : Inv servers (s.setNode i n) := by
  have known := known_setNode entered entered' same
  refine ⟨?_, fun j a hj => h.bound j a ((known j a).mp hj),
    fun j j' a hj hj' => h.distinct j j' a ((known j a).mp hj) ((known j' a).mp hj'), fun j b => ?_, ?_, fun j => ?_⟩
  · refine h.count.trans (congrArg Finset.card (Finset.filter_congr fun j _ => ?_))
    by_cases self : j = i
    · subst self
      simp [entered, entered']
    · rw [setNode_nodes_ne s n self]
  · by_cases self : j = i
    · subst self
      rw [setNode_nodes_self]
      exact localMeta b
    · rw [setNode_nodes_ne s n self]
      exact h.localMeta j b
  · intro a b remoteMeta stored
    obtain ⟨j, hj, content⟩ := h.store a b remoteMeta stored
    exact ⟨j, (known j a).mpr hj, content⟩
  · have stays : ∀ j b, s.Known j b → (s.setNode i n).Known j b := fun j b => (known j b).mpr
    by_cases self : j = i
    · subst self
      rw [setNode_nodes_self]
      exact phase.mono stays le_rfl
    · rw [setNode_nodes_ne s n self]
      exact (h.phase j).mono stays le_rfl

theorem Inv.memSet (h : Inv servers s) (known : s.Known i a) (b : Nat) :
    Inv servers { s with store := Function.update s.store (key a b) (some (described servers i b)) } := by
  refine ⟨h.count, h.bound, h.distinct, h.localMeta, fun c d remoteMeta stored => ?_, fun j => ?_⟩
  · by_cases same : key c d = key a b
    · obtain ⟨rfl, rfl⟩ := key_injective same
      simp only [Function.update_self, Option.some.injEq] at stored
      exact ⟨i, known, stored.symm⟩
    · simp only [Function.update_of_ne same] at stored
      exact h.store c d remoteMeta stored
  · exact (h.phase j).mono (fun _ _ known => known) le_rfl

theorem Inv.serverEnter (h : Inv servers s) (few : maxServer < 2 ^ 16) (phase : (s.nodes i).phase = .serverEnter) :
    Inv servers { s.setNode i { s.nodes i with myNodeID := s.serverNum % 2 ^ 16, phase := .serverConnect } with
      serverNum := s.serverNum + 1 } := by
  have small : s.serverNum % 2 ^ 16 = s.serverNum := Nat.mod_eq_of_lt (h.serverNum_le.trans_lt few)
  rw [small]
  generalize entered : ({ s.nodes i with myNodeID := s.serverNum, phase := .serverConnect } : Node) = n
  have known : ∀ j b, State.Known { s.setNode i n with serverNum := s.serverNum + 1 } j b ↔
      s.Known j b ∨ j = i ∧ b = s.serverNum := by
    intro j b
    by_cases self : j = i
    · subst self
      simp [State.Known, phase, ← entered, eq_comm]
    · simp [State.Known, self]
  have stays : ∀ j b, s.Known j b → State.Known { s.setNode i n with serverNum := s.serverNum + 1 } j b :=
    fun j b old => (known j b).mpr (.inl old)
  refine ⟨?_, fun j a hj => ?_, fun j j' a hj hj' => ?_, fun j b => ?_, fun a b remoteMeta stored => ?_,
    fun j => ?_⟩
  · have grows : (Finset.univ.filter fun j => ((s.setNode i n).nodes j).phase ≠ .serverEnter) =
        insert i (Finset.univ.filter fun j => (s.nodes j).phase ≠ .serverEnter) := by
      ext j
      by_cases self : j = i
      · subst self
        simp [← entered]
      · simp [self]
    have fresh : i ∉ Finset.univ.filter fun j => (s.nodes j).phase ≠ .serverEnter := by simp [phase]
    simp only [grows, Finset.card_insert_of_notMem fresh, ← h.count]
  · rcases (known j a).mp hj with old | ⟨-, rfl⟩
    · exact (h.bound j a old).trans (Nat.lt_succ_self _)
    · exact Nat.lt_succ_self _
  · rcases (known j a).mp hj with old | ⟨self, new⟩ <;> rcases (known j' a).mp hj' with old' | ⟨self', new'⟩
    · exact h.distinct j j' a old old'
    · exact absurd (h.bound j a old) (by omega)
    · exact absurd (h.bound j' a old') (by omega)
    · exact self.trans self'.symm
  · by_cases self : j = i
    · subst self
      simp only [setNode_nodes_self, ← entered]
      exact h.localMeta j b
    · simp only [setNode_nodes_ne s n self]
      exact h.localMeta j b
  · obtain ⟨j, hj, content⟩ := h.store a b remoteMeta stored
    exact ⟨j, stays j a hj, content⟩
  · by_cases self : j = i
    · subst self
      have start := h.phase j
      rw [phase] at start
      simp only [setNode_nodes_self, ← entered]
      rw [AtPhase, start.1]
      refine ⟨Nat.zero_le _, ?_, fun b less => absurd less (Nat.not_lt_zero b)⟩
      simpa [others] using start.2
    · simp only [setNode_nodes_ne s n self]
      exact (h.phase j).mono stays (Nat.le_succ _)

theorem Inv.connect {serverNum : Nat} (h : Inv servers s) (few : maxServer < 2 ^ 16)
    (phase : (s.nodes i).phase = .connect k serverNum) (less : k < serverNum) (ne : k ≠ (s.nodes i).myNodeID) :
    Inv servers { s.setNode i { s.nodes i with
        localMeta := (servers i).setDataToRemote (s.nodes i).localMeta (k % 2 ^ 16)
        connected := (s.nodes i).connected ++ [k % 2 ^ 16]
        phase := .memGet k serverNum } with
      store := Function.update s.store (key (s.nodes i).myNodeID (k % 2 ^ 16))
        (some ((servers i).setDataToRemote (s.nodes i).localMeta (k % 2 ^ 16))) } := by
  have at' := h.phase i
  rw [phase] at at'
  obtain ⟨-, bound, connected, linked⟩ := at'
  have remoteID : k % 2 ^ 16 = k := Nat.mod_eq_of_lt (by have := h.serverNum_le; omega)
  rw [remoteID, h.localMeta]
  have moved : Inv servers (s.setNode i { s.nodes i with
      localMeta := described servers i k
      connected := (s.nodes i).connected ++ [k]
      phase := .memGet k serverNum }) := by
    refine h.move (by simp [phase]) (by simp) rfl (fun b => rfl) ⟨less, bound, ?_, linked⟩
    simp only [connected, others_succ ne]
  refine moved.memSet ?_ k
  simp [State.Known]

theorem Inv.memGet {serverNum : Nat} {remoteMeta : ExchangeMeta} (h : Inv servers s) (few : maxServer < 2 ^ 16)
    (phase : (s.nodes i).phase = .memGet k serverNum)
    (stored : s.store (key (k % 2 ^ 16) (s.nodes i).myNodeID) = some remoteMeta) :
    Inv servers (s.setNode i
      { (s.nodes i).setDataFromRemote (k % 2 ^ 16) remoteMeta with phase := .connect (k + 1) serverNum }) := by
  have at' := h.phase i
  rw [phase] at at'
  obtain ⟨less, bound, connected, linked⟩ := at'
  have remoteID : k % 2 ^ 16 = k := Nat.mod_eq_of_lt (by have := h.serverNum_le; omega)
  rw [remoteID] at stored ⊢
  obtain ⟨j, known, rfl⟩ := h.store k _ remoteMeta stored
  refine h.move (by simp [phase]) (by simp) rfl (h.localMeta i) ⟨less, bound, connected, fun b before ne => ?_⟩
  rcases Nat.lt_or_eq_of_le (Nat.le_of_lt_succ before) with earlier | rfl
  · obtain ⟨j', known', holds⟩ := linked b earlier ne
    exact ⟨j', known', holds.frame earlier.ne _⟩
  · exact ⟨j, known, Holds.stored (s.nodes i) j b⟩

theorem Inv.connectMySelf (h : Inv servers s) (phase : (s.nodes i).phase = .connectMySelf) :
    Inv servers (s.setNode i
      { { s.nodes i with localMeta := (servers i).setDataToRemote (s.nodes i).localMeta (s.nodes i).myNodeID
          }.setDataFromRemote (s.nodes i).myNodeID
            ((servers i).setDataToRemote (s.nodes i).localMeta (s.nodes i).myNodeID) with
        phase := .finished }) := by
  have at' := h.phase i
  rw [phase] at at'
  obtain ⟨all, bound, connected, linked⟩ := at'
  rw [h.localMeta]
  refine h.move (by simp [phase]) (by simp) rfl (fun b => rfl)
    ⟨⟨all, bound, connected, fun b less ne => ?_⟩, Holds.stored (s.nodes i) i _⟩
  obtain ⟨j, known, holds⟩ := linked b less ne
  exact ⟨j, known, holds.frame ne _⟩

theorem step_inv (few : maxServer < 2 ^ 16) (h : Inv servers s) (step : (machine servers).step s i = some t) :
    Inv servers t := by
  have at' := h.phase i
  have bound := h.serverNum_le
  simp only [machine] at step
  split at step
  · rename_i phase
    cases step
    exact h.serverEnter few phase
  · rename_i phase
    rw [phase] at at'
    split at step
    · cases step
      have value : s.serverNum % 2 ^ 32 = s.serverNum := Nat.mod_eq_of_lt (by omega)
      rw [value]
      exact h.move (by simp [phase]) (by simp) rfl (h.localMeta i) ⟨at'.1, le_rfl, at'.2⟩
    · rename_i all
      cases step
      exact h.move (by simp [phase]) (by simp) rfl (h.localMeta i) ⟨Nat.le_of_not_lt all, at'⟩
  · rename_i k serverNum phase
    rw [phase] at at'
    obtain ⟨le, known, connected, linked⟩ := at'
    split at step
    · rename_i less
      split at step
      · rename_i ne
        cases step
        exact h.connect few phase less ne
      · rename_i same
        cases step
        have self : k = (s.nodes i).myNodeID := not_not.mp same
        refine h.move (by simp [phase]) (by simp) rfl (h.localMeta i) ⟨less, known, ?_, fun b before ne => ?_⟩
        · simp only [connected, self, others_self]
        · exact linked b (Nat.lt_of_le_of_ne (Nat.le_of_lt_succ before) fun eq => ne (eq.trans self)) ne
    · rename_i done
      cases step
      have value : serverNum % 2 ^ 16 = serverNum := Nat.mod_eq_of_lt (by omega)
      have last : k = serverNum := by omega
      rw [value]
      exact h.move (by simp [phase]) (by simp) rfl (h.localMeta i) ⟨known, last ▸ ⟨connected, linked⟩⟩
  · rename_i k serverNum phase
    split at step
    · cases step
    · rename_i remoteMeta stored
      cases step
      exact h.memGet few phase stored
  · rename_i phase
    cases step
    exact h.connectMySelf phase
  · cases step

/-! ## When all have finished -/

/-- `serverConnect` ends only if `curServer` can reach `maxServer`. -/
def InRange (s : State maxServer) : Prop :=
  ∀ i, (s.nodes i).curServer < 2 ^ 16 ∧
    ((s.nodes i).phase = .connectMySelf ∨ (s.nodes i).phase = .finished → maxServer ≤ (s.nodes i).curServer)

theorem step_inRange (h : InRange s) (step : (machine servers).step s i = some t) : InRange t := by
  have moved : ∀ n : Node, n.curServer < 2 ^ 16 →
      (n.phase = .connectMySelf ∨ n.phase = .finished → maxServer ≤ n.curServer) → InRange (s.setNode i n) := by
    intro n small reached j
    by_cases self : j = i
    · subst self
      simp only [setNode_nodes_self]
      exact ⟨small, reached⟩
    · simp only [setNode_nodes_ne s n self]
      exact h j
  have small := (h i).1
  simp only [machine] at step
  split at step
  · cases step
    exact moved _ small (by simp)
  · split at step
    · cases step
      exact moved _ small (by simp)
    · rename_i all
      cases step
      exact moved _ small fun _ => Nat.le_of_not_lt all
  · split at step
    · split at step
      · cases step
        exact moved _ small (by simp)
      · cases step
        exact moved _ small (by simp)
    · cases step
      exact moved _ (Nat.mod_lt _ (by decide)) (by simp)
  · split at step
    · cases step
    · cases step
      exact moved _ small (by simp)
  · rename_i phase
    cases step
    exact moved _ small fun _ => (h i).2 (.inl phase)
  · cases step

theorem Inv.sound (h : Inv servers s) (finished : ∀ i, (s.nodes i).phase = .finished) : Sound servers s := by
  have known : ∀ i, s.Known i (s.nodes i).myNodeID := fun i => ⟨by simp [finished], rfl⟩
  have distinct : ∀ i j, (s.nodes i).myNodeID = (s.nodes j).myNodeID → i = j :=
    fun i j same => h.distinct i j _ (known i) ⟨by simp [finished], same.symm⟩
  have total := h.serverNum_le
  have place : ∀ i, maxServer ≤ (s.nodes i).curServer ∧ (s.nodes i).curServer ≤ s.serverNum ∧
      Reached servers s (s.nodes i) (s.nodes i).curServer ∧ Holds servers (s.nodes i) i (s.nodes i).myNodeID := by
    intro i
    have at' := h.phase i
    rw [finished] at at'
    exact ⟨at'.1.1, at'.1.2.1, at'.1.2.2, at'.2⟩
  have below : ∀ i j, (s.nodes j).myNodeID < (s.nodes i).curServer := by
    intro i j
    have := h.bound j _ (known j)
    have := (place i).1
    omega
  -- what a node holds for the ID of another is for that node
  have holds : ∀ i j, Holds servers (s.nodes i) j (s.nodes j).myNodeID := by
    intro i j
    by_cases same : i = j
    · subst same
      exact (place i).2.2.2
    · obtain ⟨j', known', holds⟩ := (place i).2.2.1.2 _ (below i j) fun eq => same (distinct j i eq).symm
      exact distinct j' j known'.2 ▸ holds
  refine ⟨distinct, fun i j => ?_, fun i a member => ?_, fun i j t d => (holds i j t d).1,
    fun i j t d => (holds j i t d).2⟩
  · rw [(place i).2.2.1.1, count_others (below i j)]
    by_cases same : i = j
    · simp [same]
    · rw [if_neg fun eq => same (distinct j i eq).symm, if_neg same]
  · rw [(place i).2.2.1.1, others, List.mem_filter, List.mem_range] at member
    obtain ⟨j, hj, -⟩ := (place i).2.2.1.2 a member.1 (by simpa using member.2)
    exact ⟨j, hj.2⟩

/-- In every run of any number of nodes, in any order: when all have finished, the queue pairs are wired. -/
theorem wiring_sound (servers : Fin maxServer → Server) (as : List (Fin maxServer)) (s : State maxServer)
    (run : (machine servers).run (.init servers) as = some s) (finished : ∀ i, (s.nodes i).phase = .finished) :
    Sound servers s := by
  rcases Nat.lt_or_ge maxServer (2 ^ 16) with few | many
  · exact (Machine.run_always (I := Inv servers) (fun _ _ _ => step_inv few) (init_inv servers) run).sound finished
  · have inRange : InRange s :=
      Machine.run_always (fun _ _ _ => step_inRange) (fun i => by simp [State.init, Node.init]) run
    -- the loop of `serverConnect` does not end
    have first := inRange ⟨0, by omega⟩
    have := first.2 (.inr (finished _))
    omega

def sampleServer (i : Nat) : Server where
  thCon t := ⟨⟨i, i⟩, 0, 0, 0, fun _ remoteID => BitVec.ofNat 32 (1000 * i + 10 * t + remoteID)⟩
  dirCon _ := ⟨⟨i, i⟩, 0, 0, 0, 0, 0, fun t remoteID => BitVec.ofNat 32 (1000 * i + 500 + 10 * t + remoteID)⟩
  memory :=
    ⟨0, 0, 0, fun _ => ⟨0, 0, 0, 0⟩, fun _ => ⟨0, 0, 0, 0⟩, fun _ => 0, fun _ => 0, fun _ _ => 0, fun _ _ => 0⟩

def pair : Fin 2 → Server := fun i => sampleServer i

theorem wiring_sound_pair :
    ∃ s, (machine pair).run (.init pair) [1, 1, 1, 1, 0, 0, 0, 1, 1, 1, 1, 0, 1, 1, 0, 0, 0, 0] = some s ∧
      Sound pair s :=
  ⟨_, rfl, wiring_sound pair [1, 1, 1, 1, 0, 0, 0, 1, 1, 1, 1, 0, 1, 1, 0, 0, 0, 0] _ rfl (by decide +kernel)⟩

end Sherman.Wiring
