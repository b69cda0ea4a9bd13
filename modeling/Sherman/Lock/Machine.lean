import Sherman.Concurrency.Transition
import Sherman.Tree.Machine

/-!
# The hierarchical lock

`try_lock_addr`, `unlock_addr`, `write_page_and_unlock` and `lock_and_read_page` of `src/Tree.cpp`
with the local ticket lock under them, run by the coroutines of a cluster. An operation locks a page,
reads it, and leaves with or without a write of that page.
-/

namespace Sherman.Lock

open Concurrency

def kMaxHandOverTime : BitVec 8 := 8

/-- A thread of the cluster; the bounds are those of `getMyNodeID` and `thread_id`. -/
structure Thread where
  nodeID : Nat
  threadID : Nat
  node_lt : nodeID < 2 ^ 16
  thread_lt : threadID < 2 ^ 31
  deriving DecidableEq

def Thread.tag (t : Thread) : BitVec 64 := BitVec.ofNat 64 (t.threadID + t.nodeID * 2 ^ 32 + 1)

structure Coro where
  thread : Thread
  coroID : Nat
  deriving DecidableEq

abbrev Coro.node (c : Coro) : NodeID := c.thread.nodeID

/-! ## The ticket word -/

def ticketOf (lockVal : BitVec 64) : BitVec 32 := ((lockVal <<< 32) >>> 32).setWidth 32

def currentOf (lockVal : BitVec 64) : BitVec 32 := (lockVal >>> 32).setWidth 32

theorem ticketOf_toNat (v : BitVec 64) : (ticketOf v).toNat = v.toNat % 2 ^ 32 := by
  simp only [ticketOf, BitVec.toNat_setWidth, BitVec.toNat_ushiftRight, BitVec.toNat_shiftLeft,
    Nat.shiftLeft_eq, Nat.shiftRight_eq_div_pow]
  omega

theorem currentOf_toNat (v : BitVec 64) : (currentOf v).toNat = v.toNat / 2 ^ 32 := by
  have := v.isLt
  simp only [currentOf, BitVec.toNat_setWidth, BitVec.toNat_ushiftRight, Nat.shiftRight_eq_div_pow]
  omega

def serveNext (lockVal : BitVec 64) : BitVec 64 := lockVal + 0x100000000#64

theorem serveNext_toNat (v : BitVec 64) : (serveNext v).toNat = (v.toNat + 2 ^ 32) % 2 ^ 64 := by
  have unit : (0x100000000#64).toNat = 2 ^ 32 := by decide
  rw [serveNext, BitVec.toNat_add, unit]

-- unfolding an addition of `2 ^ 32` never ends
attribute [irreducible] serveNext

structure LocalLockNode where
  ticketLock : BitVec 64
  handOver : Bool
  handTime : BitVec 8

namespace LocalLockNode

def init : LocalLockNode := ⟨0, false, 0⟩

def takeTicket (n : LocalLockNode) : LocalLockNode := { n with ticketLock := n.ticketLock + 1 }

def entered (n : LocalLockNode) : LocalLockNode := { n with handTime := n.handTime + 1 }

def noPending (n : LocalLockNode) : Prop := ticketOf n.ticketLock ≤ currentOf n.ticketLock + 1

instance (n : LocalLockNode) : Decidable n.noPending := by unfold noPending; infer_instance

def canHandOver (n : LocalLockNode) : LocalLockNode :=
  let handOver := if n.noPending then false else decide (n.handTime < kMaxHandOverTime)
  { n with handOver := handOver, handTime := if handOver then n.handTime else 0 }

def releaseLocalLock (n : LocalLockNode) : LocalLockNode :=
  { n with ticketLock := serveNext n.ticketLock }

@[simp] theorem canHandOver_ticketLock (n : LocalLockNode) :
    n.canHandOver.ticketLock = n.ticketLock := by simp only [canHandOver]

@[simp] theorem entered_ticketLock (n : LocalLockNode) : n.entered.ticketLock = n.ticketLock := by
  simp only [entered]
@[simp] theorem entered_handOver (n : LocalLockNode) : n.entered.handOver = n.handOver := by
  simp only [entered]
@[simp] theorem takeTicket_handOver (n : LocalLockNode) : n.takeTicket.handOver = n.handOver := by
  simp only [takeTicket]
@[simp] theorem takeTicket_handTime (n : LocalLockNode) : n.takeTicket.handTime = n.handTime := by
  simp only [takeTicket]

@[simp] theorem releaseLocalLock_ticketLock (n : LocalLockNode) :
    n.releaseLocalLock.ticketLock = serveNext n.ticketLock := by cases n; rfl

@[simp] theorem releaseLocalLock_handOver (n : LocalLockNode) :
    n.releaseLocalLock.handOver = n.handOver := by cases n; rfl

@[simp] theorem releaseLocalLock_handTime (n : LocalLockNode) :
    n.releaseLocalLock.handTime = n.handTime := by cases n; rfl

end LocalLockNode

/-! ## The machine -/

inductive Pc (Data : Type) where
  | idle
  | waiting (a : GlobalAddress) (ticket current : BitVec 32)
  | casing (a : GlobalAddress)
  | locked (a : GlobalAddress)
  | holding (a : GlobalAddress) (read : Data)
  | leaving (a : GlobalAddress) (w : Option Data) (async handOver : Bool)
  | polling (a : GlobalAddress) (handOver : Bool)
  | releasing (a : GlobalAddress) (handOver : Bool)

/-- A handed over lock is released after a synchronous write, if any; the other writes are
synchronous unless `async`. -/
def Pc.posted {Data : Type} (a : GlobalAddress) (w : Option Data) (async handOver : Bool) : Pc Data :=
  if (if handOver then w.isSome else !async) then .polling a handOver else .releasing a handOver

inductive Write (Data : Type) where
  | page (a : GlobalAddress) (data : Data)
  | zero (la : GlobalAddress)

structure Posted (Data : Type) where
  coro : Coro
  write : Write Data

structure State (Data : Type) where
  mem : GlobalAddress → Data
  word : GlobalAddress → BitVec 64
  localLock : NodeID → GlobalAddress → LocalLockNode
  pending : List (Posted Data)
  pc : Coro → Pc Data

inductive Action (Data : Type) where
  | acquire (c : Coro) (a : GlobalAddress)
  | recheck (c : Coro)
  | enter (c : Coro)
  | cas (c : Coro)
  | read (c : Coro)
  | decide (c : Coro) (w : Option Data) (async : Bool)
  | post (c : Coro)
  | poll (c : Coro)
  | release (c : Coro)
  | execute (i : Nat)

variable {Data : Type}

def Write.node : Write Data → NodeID
  | page a _ => a.nodeID
  | zero la => la.nodeID

def Write.applyTo (a : GlobalAddress) : Write Data → Data → Data
  | page b new, data => if b = a then new else data
  | zero _, data => data

namespace State

def init (mem : GlobalAddress → Data) : State Data where
  mem := mem
  word := fun _ => 0
  localLock := fun _ _ => .init
  pending := []
  pc := fun _ => .idle

def drained (s : State Data) (t : Thread) (n : NodeID) : Prop :=
  ∀ x ∈ s.pending, x.coro.thread = t → x.write.node ≠ n

instance (s : State Data) (t : Thread) (n : NodeID) : Decidable (s.drained t n) := by
  unfold drained; infer_instance

def setPc (s : State Data) (c : Coro) (pc : Pc Data) : State Data :=
  { s with pc := Function.update s.pc c pc }

def setLocal (s : State Data) (n : NodeID) (la : GlobalAddress) (l : LocalLockNode) : State Data :=
  { s with localLock := Function.update s.localLock n (Function.update (s.localLock n) la l) }

def execute (s : State Data) : Write Data → State Data
  | .page a data => { s with mem := Function.update s.mem a data }
  | .zero la => { s with word := Function.update s.word la 0 }

def view (s : State Data) (a : GlobalAddress) : Data :=
  s.pending.foldl (fun data x => x.write.applyTo a data) (s.mem a)

@[simp] theorem setPc_mem (s : State Data) (c : Coro) (pc : Pc Data) : (s.setPc c pc).mem = s.mem := rfl
@[simp] theorem setPc_word (s : State Data) (c : Coro) (pc : Pc Data) : (s.setPc c pc).word = s.word := rfl
@[simp] theorem setPc_localLock (s : State Data) (c : Coro) (pc : Pc Data) :
    (s.setPc c pc).localLock = s.localLock := rfl
@[simp] theorem setPc_pending (s : State Data) (c : Coro) (pc : Pc Data) :
    (s.setPc c pc).pending = s.pending := rfl
@[simp] theorem setPc_pc (s : State Data) (c : Coro) (pc : Pc Data) :
    (s.setPc c pc).pc = Function.update s.pc c pc := rfl

@[simp] theorem setLocal_mem (s : State Data) (n : NodeID) (la : GlobalAddress) (l : LocalLockNode) :
    (s.setLocal n la l).mem = s.mem := rfl
@[simp] theorem setLocal_word (s : State Data) (n : NodeID) (la : GlobalAddress) (l : LocalLockNode) :
    (s.setLocal n la l).word = s.word := rfl
@[simp] theorem setLocal_pending (s : State Data) (n : NodeID) (la : GlobalAddress)
    (l : LocalLockNode) : (s.setLocal n la l).pending = s.pending := rfl
@[simp] theorem setLocal_pc (s : State Data) (n : NodeID) (la : GlobalAddress) (l : LocalLockNode) :
    (s.setLocal n la l).pc = s.pc := rfl

theorem setLocal_localLock (s : State Data) (n m : NodeID) (la lb : GlobalAddress)
    (l : LocalLockNode) : (s.setLocal n la l).localLock m lb =
      if m = n ∧ lb = la then l else s.localLock m lb := by
  simp only [setLocal, Function.update_apply]
  by_cases node : m = n
  · subst node
    by_cases same : lb = la <;> simp [same]
  · simp [node]

@[simp] theorem execute_localLock (s : State Data) (w : Write Data) :
    (s.execute w).localLock = s.localLock := by cases w <;> rfl

@[simp] theorem execute_pending (s : State Data) (w : Write Data) :
    (s.execute w).pending = s.pending := by cases w <;> rfl

@[simp] theorem execute_pc (s : State Data) (w : Write Data) : (s.execute w).pc = s.pc := by
  cases w <;> rfl

end State

def batch (cfg : Config) (c : Coro) (a : GlobalAddress) (w : Option Data) (handOver : Bool) :
    List (Posted Data) :=
  w.toList.map (fun data => ⟨c, .page a data⟩) ++
    if handOver then [] else [⟨c, .zero (cfg.lockAddr a)⟩]

def step (cfg : Config) (s : State Data) : Action Data → Option (State Data)
  | .acquire c a =>
      match s.pc c with
      | .idle =>
          let node := s.localLock c.node (cfg.lockAddr a)
          some ((s.setLocal c.node (cfg.lockAddr a) node.takeTicket).setPc c
            (.waiting a (ticketOf node.ticketLock) (currentOf node.ticketLock)))
      | _ => none
  | .recheck c =>
      match s.pc c with
      | .waiting a ticket current =>
          if ticket ≠ current then
            some (s.setPc c
              (.waiting a ticket (currentOf (s.localLock c.node (cfg.lockAddr a)).ticketLock)))
          else none
      | _ => none
  | .enter c =>
      match s.pc c with
      | .waiting a ticket current =>
          if ticket = current then
            let node := s.localLock c.node (cfg.lockAddr a)
            some ((s.setLocal c.node (cfg.lockAddr a) node.entered).setPc c
              (if node.handOver then .locked a else .casing a))
          else none
      | _ => none
  | .cas c =>
      match s.pc c with
      | .casing a =>
          if s.drained c.thread a.nodeID then
            if s.word (cfg.lockAddr a) = 0 then
              some ({ s with word := Function.update s.word (cfg.lockAddr a) c.thread.tag }.setPc c
                (.locked a))
            else some s
          else none
      | _ => none
  | .read c =>
      match s.pc c with
      | .locked a =>
          if s.drained c.thread a.nodeID then some (s.setPc c (.holding a (s.mem a))) else none
      | _ => none
  | .decide c w async =>
      match s.pc c with
      | .holding a _ =>
          let node := (s.localLock c.node (cfg.lockAddr a)).canHandOver
          some ((s.setLocal c.node (cfg.lockAddr a) node).setPc c (.leaving a w async node.handOver))
      | _ => none
  | .post c =>
      match s.pc c with
      | .leaving a w async handOver =>
          some ({ s with pending := s.pending ++ batch cfg c a w handOver }.setPc c
            (Pc.posted a w async handOver))
      | _ => none
  | .poll c =>
      match s.pc c with
      | .polling a handOver =>
          if s.drained c.thread a.nodeID then some (s.setPc c (.releasing a handOver)) else none
      | _ => none
  | .release c =>
      match s.pc c with
      | .releasing a _ =>
          let node := (s.localLock c.node (cfg.lockAddr a)).releaseLocalLock
          some ((s.setLocal c.node (cfg.lockAddr a) node).setPc c .idle)
      | _ => none
  | .execute i =>
      match s.pending[i]? with
      | none => none
      | some x =>
          if ∀ y ∈ s.pending.take i, y.coro.thread = x.coro.thread → y.write.node ≠ x.write.node then
            some ({ s with pending := s.pending.eraseIdx i }.execute x.write)
          else none

def machine (Data : Type) (cfg : Config) : Machine (State Data) (Action Data) where
  step := step cfg

/-! ## What a step does -/

inductive Moves (cfg : Config) (s : State Data) : Action Data → State Data → Prop where
  | acquire {c : Coro} {a : GlobalAddress} (pc : s.pc c = .idle) :
      Moves cfg s (.acquire c a)
        ((s.setLocal c.node (cfg.lockAddr a) (s.localLock c.node (cfg.lockAddr a)).takeTicket).setPc c
          (.waiting a (ticketOf (s.localLock c.node (cfg.lockAddr a)).ticketLock)
            (currentOf (s.localLock c.node (cfg.lockAddr a)).ticketLock)))
  | recheck {c : Coro} {a : GlobalAddress} {ticket current : BitVec 32}
      (pc : s.pc c = .waiting a ticket current) (waits : ticket ≠ current) :
      Moves cfg s (.recheck c) (s.setPc c
        (.waiting a ticket (currentOf (s.localLock c.node (cfg.lockAddr a)).ticketLock)))
  | handed {c : Coro} {a : GlobalAddress} {ticket : BitVec 32}
      (pc : s.pc c = .waiting a ticket ticket)
      (handOver : (s.localLock c.node (cfg.lockAddr a)).handOver = true) :
      Moves cfg s (.enter c)
        ((s.setLocal c.node (cfg.lockAddr a) (s.localLock c.node (cfg.lockAddr a)).entered).setPc c
          (.locked a))
  | enter {c : Coro} {a : GlobalAddress} {ticket : BitVec 32}
      (pc : s.pc c = .waiting a ticket ticket)
      (handOver : (s.localLock c.node (cfg.lockAddr a)).handOver = false) :
      Moves cfg s (.enter c)
        ((s.setLocal c.node (cfg.lockAddr a) (s.localLock c.node (cfg.lockAddr a)).entered).setPc c
          (.casing a))
  | cas {c : Coro} {a : GlobalAddress} (pc : s.pc c = .casing a)
      (drained : s.drained c.thread a.nodeID) (free : s.word (cfg.lockAddr a) = 0) :
      Moves cfg s (.cas c)
        ({ s with word := Function.update s.word (cfg.lockAddr a) c.thread.tag }.setPc c (.locked a))
  | retry {c : Coro} {a : GlobalAddress} (pc : s.pc c = .casing a)
      (taken : s.word (cfg.lockAddr a) ≠ 0) : Moves cfg s (.cas c) s
  | read {c : Coro} {a : GlobalAddress} (pc : s.pc c = .locked a)
      (drained : s.drained c.thread a.nodeID) :
      Moves cfg s (.read c) (s.setPc c (.holding a (s.mem a)))
  | decide {c : Coro} {a : GlobalAddress} {d : Data} {w : Option Data} {async : Bool}
      (pc : s.pc c = .holding a d) :
      Moves cfg s (.decide c w async)
        ((s.setLocal c.node (cfg.lockAddr a)
          (s.localLock c.node (cfg.lockAddr a)).canHandOver).setPc c
          (.leaving a w async (s.localLock c.node (cfg.lockAddr a)).canHandOver.handOver))
  | post {c : Coro} {a : GlobalAddress} {w : Option Data} {async handOver : Bool}
      (pc : s.pc c = .leaving a w async handOver) :
      Moves cfg s (.post c)
        ({ s with pending := s.pending ++ batch cfg c a w handOver }.setPc c
          (Pc.posted a w async handOver))
  | poll {c : Coro} {a : GlobalAddress} {handOver : Bool} (pc : s.pc c = .polling a handOver)
      (drained : s.drained c.thread a.nodeID) :
      Moves cfg s (.poll c) (s.setPc c (.releasing a handOver))
  | release {c : Coro} {a : GlobalAddress} {handOver : Bool} (pc : s.pc c = .releasing a handOver) :
      Moves cfg s (.release c)
        ((s.setLocal c.node (cfg.lockAddr a)
          (s.localLock c.node (cfg.lockAddr a)).releaseLocalLock).setPc c .idle)
  | execute {i : Nat} {x : Posted Data} (found : s.pending[i]? = some x)
      (first : ∀ y ∈ s.pending.take i, y.coro.thread = x.coro.thread → y.write.node ≠ x.write.node) :
      Moves cfg s (.execute i) ({ s with pending := s.pending.eraseIdx i }.execute x.write)

theorem moves_of_step {cfg : Config} {s s' : State Data} {a : Action Data}
    (h : step cfg s a = some s') : Moves cfg s a s' := by
  cases a with
  | acquire c a =>
      simp only [step] at h
      split at h
      case h_1 pc => cases h; exact .acquire pc
      case h_2 => cases h
  | recheck c =>
      simp only [step] at h
      split at h
      case h_2 => cases h
      case h_1 a ticket current pc =>
        split at h
        · cases h; exact .recheck pc ‹_›
        · cases h
  | enter c =>
      simp only [step] at h
      split at h
      case h_2 => cases h
      case h_1 a ticket current pc =>
        split at h
        case isFalse => cases h
        case isTrue same =>
          subst same
          cases h
          cases handOver : (s.localLock c.node (cfg.lockAddr a)).handOver with
          | true => simpa [handOver] using Moves.handed pc handOver
          | false => simpa [handOver] using Moves.enter pc handOver
  | cas c =>
      simp only [step] at h
      split at h
      case h_2 => cases h
      case h_1 a pc =>
        split at h
        case isFalse => cases h
        case isTrue drained =>
          split at h
          case isTrue free => cases h; exact .cas pc drained free
          case isFalse taken => cases h; exact .retry pc taken
  | read c =>
      simp only [step] at h
      split at h
      case h_2 => cases h
      case h_1 a pc =>
        split at h
        · cases h; exact .read pc ‹_›
        · cases h
  | decide c w async =>
      simp only [step] at h
      split at h
      case h_2 => cases h
      case h_1 a d pc => cases h; exact .decide pc
  | post c =>
      simp only [step] at h
      split at h
      case h_2 => cases h
      case h_1 a w async handOver pc => cases h; exact .post pc
  | poll c =>
      simp only [step] at h
      split at h
      case h_2 => cases h
      case h_1 a handOver pc =>
        split at h
        · cases h; exact .poll pc ‹_›
        · cases h
  | release c =>
      simp only [step] at h
      split at h
      case h_2 => cases h
      case h_1 a handOver pc => cases h; exact .release pc
  | execute i =>
      simp only [step] at h
      split at h
      case h_1 => cases h
      case h_2 x found =>
        split at h
        · cases h; exact .execute found ‹_›
        · cases h

end Sherman.Lock
