import Mathlib.Data.Set.Card
import Sherman.Lock.Exclusion

namespace Sherman.Lock

open Concurrency

variable {Data : Type} {cfg : Config}

inductive LocalEvent where
  | took (c : Coro)
  | entered (c : Coro)

def LocalEvent.taker? : LocalEvent → Option Coro
  | took c => some c
  | entered _ => none

def LocalEvent.entrant? : LocalEvent → Option Coro
  | took _ => none
  | entered c => some c

def localEvents (cfg : Config) (n : NodeID) (la : GlobalAddress) (s : State Data) :
    Action Data → List LocalEvent
  | .acquire c a => if c.node = n ∧ cfg.lockAddr a = la then [.took c] else []
  | .enter c => match s.pc c with
      | .waiting a _ _ => if c.node = n ∧ cfg.lockAddr a = la then [.entered c] else []
      | _ => []
  | _ => []

def takers (h : List LocalEvent) : List Coro := h.filterMap LocalEvent.taker?
def entrants (h : List LocalEvent) : List Coro := h.filterMap LocalEvent.entrant?

def Pc.Waits (cfg : Config) (la : GlobalAddress) : Pc Data → Prop
  | .waiting a _ _ => cfg.lockAddr a = la
  | _ => False

/-- The next ticket does not carry into the ticket being served. -/
def NoCarry (cfg : Config) (s : State Data) : Action Data → Prop
  | .acquire c a =>
      (ticketOf (s.localLock c.node (cfg.lockAddr a)).ticketLock).toNat + 1 < 2 ^ 32
  | _ => True

namespace LocalLockNode

def next (n : LocalLockNode) : Nat := n.ticketLock.toNat % 2 ^ 32
def served (n : LocalLockNode) : Nat := n.ticketLock.toNat / 2 ^ 32

theorem ticketOf_eq (n : LocalLockNode) : (ticketOf n.ticketLock).toNat = n.next :=
  ticketOf_toNat n.ticketLock

theorem currentOf_eq (n : LocalLockNode) : (currentOf n.ticketLock).toNat = n.served :=
  currentOf_toNat n.ticketLock

theorem takeTicket_counts (n : LocalLockNode) (noCarry : n.next + 1 < 2 ^ 32) :
    n.takeTicket.next = n.next + 1 ∧ n.takeTicket.served = n.served := by
  have := n.ticketLock.isLt
  have unit : (1 : BitVec 64).toNat = 1 := rfl
  simp only [next, served, takeTicket, BitVec.toNat_add, unit] at *
  omega

theorem releaseLocalLock_counts (n : LocalLockNode) (noWrap : n.served + 1 < 2 ^ 32) :
    n.releaseLocalLock.next = n.next ∧ n.releaseLocalLock.served = n.served + 1 := by
  have := n.ticketLock.isLt
  simp only [next, served, releaseLocalLock_ticketLock, serveNext_toNat] at *
  omega

end LocalLockNode

structure Queue (cfg : Config) (n : NodeID) (la : GlobalAddress) (s : State Data)
    (h : List LocalEvent) : Prop where
  next : (takers h).length = (s.localLock n la).next
  order : entrants h <+: takers h
  served : (s.localLock n la).served ≤ (entrants h).length ∧
    (entrants h).length ≤ (s.localLock n la).served + 1
  node : ∀ c ∈ takers h, c.node = n
  holder : ∀ c, c.node = n → ((s.pc c).Holds cfg la ↔
    (entrants h).length = (s.localLock n la).served + 1 ∧
      (takers h)[(s.localLock n la).served]? = some c)
  waiting : ∀ c a ticket current, c.node = n → s.pc c = .waiting a ticket current →
    cfg.lockAddr a = la → (takers h)[ticket.toNat]? = some c ∧
      (entrants h).length ≤ ticket.toNat ∧ current.toNat ≤ (s.localLock n la).served
  waiter : ∀ i c, (entrants h).length ≤ i → (takers h)[i]? = some c →
    ∃ a ticket current, s.pc c = .waiting a ticket current ∧ cfg.lockAddr a = la ∧ ticket.toNat = i

theorem init_queue (n : NodeID) (la : GlobalAddress) (mem : GlobalAddress → Data) :
    Queue cfg n la (.init mem) [] := by
  constructor <;> simp [takers, entrants, State.init, LocalLockNode.init, LocalLockNode.next,
    LocalLockNode.served, Pc.Holds]

theorem Queue.frame {n : NodeID} {la : GlobalAddress} {s s' : State Data} {h : List LocalEvent}
    (queue : Queue cfg n la s h)
    (word : (s'.localLock n la).ticketLock = (s.localLock n la).ticketLock)
    (holds : ∀ c, c.node = n → ((s'.pc c).Holds cfg la ↔ (s.pc c).Holds cfg la))
    (waits : ∀ c a ticket current, c.node = n → cfg.lockAddr a = la →
      (s'.pc c = .waiting a ticket current ↔ s.pc c = .waiting a ticket current)) :
    Queue cfg n la s' h := by
  have next : (s'.localLock n la).next = (s.localLock n la).next := by
    simp only [LocalLockNode.next, word]
  have served : (s'.localLock n la).served = (s.localLock n la).served := by
    simp only [LocalLockNode.served, word]
  refine ⟨by rw [next]; exact queue.next, queue.order, by rw [served]; exact queue.served, queue.node,
    fun c node => by rw [served, holds c node]; exact queue.holder c node,
    fun c a ticket current node pc under => ?_, fun i c later at_ => ?_⟩
  · rw [served]
    exact queue.waiting c a ticket current node ((waits c a ticket current node under).mp pc) under
  · obtain ⟨a, ticket, current, pc, under, eq⟩ := queue.waiter i c later at_
    have node := queue.node c (List.mem_of_getElem? at_)
    exact ⟨a, ticket, current, (waits c a ticket current node under).mpr pc, under, eq⟩

theorem Queue.frame_move {n : NodeID} {la : GlobalAddress} {s s' : State Data} {h : List LocalEvent}
    (queue : Queue cfg n la s h) (c : Coro)
    (word : (s'.localLock n la).ticketLock = (s.localLock n la).ticketLock)
    (others : ∀ d, d ≠ c → s'.pc d = s.pc d)
    (holds : c.node = n → ((s'.pc c).Holds cfg la ↔ (s.pc c).Holds cfg la))
    (waits : c.node = n → ∀ a ticket current, cfg.lockAddr a = la →
      (s'.pc c = .waiting a ticket current ↔ s.pc c = .waiting a ticket current)) :
    Queue cfg n la s' h := by
  refine queue.frame word (fun d node => ?_) (fun d a ticket current node under => ?_)
  · by_cases same : d = c
    · subst same; exact holds node
    · rw [others d same]
  · by_cases same : d = c
    · subst same; exact waits node a ticket current under
    · rw [others d same]

theorem Queue.entrants_le {n : NodeID} {la : GlobalAddress} {s : State Data} {h : List LocalEvent}
    (queue : Queue cfg n la s h) : (entrants h).length ≤ (s.localLock n la).next := by
  rw [← queue.next]
  exact queue.order.length_le

@[simp] theorem takers_took (h : List LocalEvent) (c : Coro) :
    takers (h ++ [.took c]) = takers h ++ [c] := by simp [takers, LocalEvent.taker?]
@[simp] theorem takers_entered (h : List LocalEvent) (c : Coro) :
    takers (h ++ [.entered c]) = takers h := by simp [takers, LocalEvent.taker?]
@[simp] theorem entrants_took (h : List LocalEvent) (c : Coro) :
    entrants (h ++ [.took c]) = entrants h := by simp [entrants, LocalEvent.entrant?]
@[simp] theorem entrants_entered (h : List LocalEvent) (c : Coro) :
    entrants (h ++ [.entered c]) = entrants h ++ [c] := by simp [entrants, LocalEvent.entrant?]

theorem Queue.take {c : Coro} {a : GlobalAddress} {s : State Data} {h : List LocalEvent}
    (queue : Queue cfg c.node (cfg.lockAddr a) s h) (pc : s.pc c = .idle)
    (noCarry : (s.localLock c.node (cfg.lockAddr a)).next + 1 < 2 ^ 32) :
    Queue cfg c.node (cfg.lockAddr a)
      ((s.setLocal c.node (cfg.lockAddr a) (s.localLock c.node (cfg.lockAddr a)).takeTicket).setPc c
          (.waiting a (ticketOf (s.localLock c.node (cfg.lockAddr a)).ticketLock)
            (currentOf (s.localLock c.node (cfg.lockAddr a)).ticketLock))) (h ++ [.took c]) := by
  obtain ⟨next, served⟩ := (s.localLock c.node (cfg.lockAddr a)).takeTicket_counts noCarry
  have le := queue.entrants_le
  have length := queue.next
  have ticket := (s.localLock c.node (cfg.lockAddr a)).ticketOf_eq
  have current := (s.localLock c.node (cfg.lockAddr a)).currentOf_eq
  have bounds := queue.served
  constructor <;> simp only [State.setPc_localLock, State.setLocal_localLock, and_self, if_true,
    takers_took, entrants_took, next, served, List.length_append, List.length_singleton, State.setPc_pc,
    State.setLocal_pc]
  · omega
  · exact queue.order.trans (List.prefix_append _ _)
  · exact bounds
  · intro d member
    rw [List.mem_append, List.mem_singleton] at member
    obtain old | rfl := member
    · exact queue.node d old
    · rfl
  · intro d node
    by_cases same : d = c
    · subst same
      refine iff_of_false (by simp [Pc.Holds]) ?_
      rintro ⟨inside, at_⟩
      -- the holder cannot be the coroutine that was idle
      have old := (queue.holder d rfl).mpr ⟨inside, ?_⟩
      · rw [pc] at old; exact old
      · rwa [List.getElem?_append_left (by omega)] at at_
    · rw [Function.update_of_ne same, queue.holder d node]
      refine and_congr_right fun inside => ?_
      rw [List.getElem?_append_left (by omega)]
  · intro d b t cur node at_ under
    by_cases same : d = c
    · subst same
      simp only [Function.update_self, Pc.waiting.injEq] at at_
      obtain ⟨rfl, rfl, rfl⟩ := at_
      rw [ticket, current]
      refine ⟨?_, le, le_refl _⟩
      rw [← length]
      simp
    · rw [Function.update_of_ne same] at at_
      obtain ⟨taker, later, seen⟩ := queue.waiting d b t cur node at_ under
      refine ⟨?_, later, seen⟩
      rw [List.getElem?_append_left (List.getElem?_eq_some_iff.mp taker).1]
      exact taker
  · intro i d later at_
    by_cases last : i = (takers h).length
    · subst last
      simp only [List.getElem?_append_right (le_refl _), Nat.sub_self, List.getElem?_cons_zero,
        Option.some.injEq] at at_
      subst at_
      exact ⟨a, _, _, Function.update_self _ _ _, rfl, by rw [ticket, length]⟩
    · have bound : i < (takers h).length := by
        have := (List.getElem?_eq_some_iff.mp at_).1
        simp only [List.length_append, List.length_singleton] at this
        omega
      rw [List.getElem?_append_left bound] at at_
      obtain ⟨b, t, cur, at', under, eq⟩ := queue.waiter i d later at_
      have same : d ≠ c := by rintro rfl; simp [pc] at at'
      exact ⟨b, t, cur, by rw [Function.update_of_ne same]; exact at', under, eq⟩

theorem Queue.enter {c : Coro} {a : GlobalAddress} {ticket : BitVec 32} {s s' : State Data}
    {h : List LocalEvent} (queue : Queue cfg c.node (cfg.lockAddr a) s h)
    (pc : s.pc c = .waiting a ticket ticket)
    (word : (s'.localLock c.node (cfg.lockAddr a)).ticketLock =
      (s.localLock c.node (cfg.lockAddr a)).ticketLock)
    (others : ∀ d, d ≠ c → s'.pc d = s.pc d) (holds : (s'.pc c).Holds cfg (cfg.lockAddr a)) :
    Queue cfg c.node (cfg.lockAddr a) s' (h ++ [.entered c]) := by
  have next : (s'.localLock c.node (cfg.lockAddr a)).next =
      (s.localLock c.node (cfg.lockAddr a)).next := by simp only [LocalLockNode.next, word]
  have served : (s'.localLock c.node (cfg.lockAddr a)).served =
      (s.localLock c.node (cfg.lockAddr a)).served := by simp only [LocalLockNode.served, word]
  have bounds := queue.served
  obtain ⟨taker, later, seen⟩ := queue.waiting c a ticket ticket rfl pc rfl
  have turn : ticket.toNat = (s.localLock c.node (cfg.lockAddr a)).served := by omega
  have count : (entrants h).length = (s.localLock c.node (cfg.lockAddr a)).served := by omega
  rw [turn] at taker
  have notWaiting : ∀ b t cur, s'.pc c ≠ .waiting b t cur := by
    intro b t cur at_
    rw [at_] at holds
    exact holds
  constructor <;> simp only [takers_entered, entrants_entered, List.length_append,
    List.length_singleton, next, served]
  · exact queue.next
  · obtain ⟨rest, eq⟩ := queue.order
    cases rest with
    | nil =>
        rw [List.append_nil] at eq
        rw [← eq, ← count] at taker
        simp at taker
    | cons d rest =>
        rw [← eq, ← count] at taker
        simp only [List.getElem?_append_right (le_refl _), Nat.sub_self, List.getElem?_cons_zero,
          Option.some.injEq] at taker
        exact ⟨rest, by rw [← eq, taker]; simp⟩
  · omega
  · exact queue.node
  · intro d node
    by_cases same : d = c
    · subst same
      exact iff_of_true holds ⟨by omega, taker⟩
    · rw [others d same]
      refine iff_of_false (fun h' => ?_) (fun h' => ?_)
      · have := ((queue.holder d node).mp h').1
        omega
      · rw [taker] at h'
        exact same (Option.some.inj h'.2).symm
  · intro d b t cur node at_ under
    by_cases same : d = c
    · subst same; exact absurd at_ (notWaiting b t cur)
    · rw [others d same] at at_
      obtain ⟨taker', later', seen'⟩ := queue.waiting d b t cur node at_ under
      refine ⟨taker', ?_, seen'⟩
      rcases Nat.lt_or_ge (entrants h).length t.toNat with lt | ge
      · exact lt
      · have eq : t.toNat = (s.localLock c.node (cfg.lockAddr a)).served := by omega
        rw [eq, taker] at taker'
        exact absurd (Option.some.inj taker').symm same
  · intro i d later' at_
    obtain ⟨b, t, cur, at', under, eq⟩ := queue.waiter i d (by omega) at_
    have same : d ≠ c := by
      rintro rfl
      rw [pc] at at'
      cases at'
      omega
    exact ⟨b, t, cur, by rw [others d same]; exact at', under, eq⟩

theorem Queue.release {c : Coro} {a : GlobalAddress} {s s' : State Data} {h : List LocalEvent}
    (queue : Queue cfg c.node (cfg.lockAddr a) s h) (holds : (s.pc c).Holds cfg (cfg.lockAddr a))
    (word : s'.localLock c.node (cfg.lockAddr a) =
      (s.localLock c.node (cfg.lockAddr a)).releaseLocalLock)
    (others : ∀ d, d ≠ c → s'.pc d = s.pc d) (pc : s'.pc c = .idle) :
    Queue cfg c.node (cfg.lockAddr a) s' h := by
  obtain ⟨count, taker⟩ := (queue.holder c rfl).mp holds
  have le := queue.entrants_le
  have bound : (s.localLock c.node (cfg.lockAddr a)).next < 2 ^ 32 := Nat.mod_lt _ (by decide)
  obtain ⟨next, served⟩ :=
    (s.localLock c.node (cfg.lockAddr a)).releaseLocalLock_counts (by omega)
  have next' : (s'.localLock c.node (cfg.lockAddr a)).next =
      (s.localLock c.node (cfg.lockAddr a)).next := by rw [word, next]
  have served' : (s'.localLock c.node (cfg.lockAddr a)).served =
      (s.localLock c.node (cfg.lockAddr a)).served + 1 := by rw [word, served]
  constructor <;> try simp only [next', served']
  · exact queue.next
  · exact queue.order
  · omega
  · exact queue.node
  · intro d node
    refine iff_of_false ?_ (by omega)
    by_cases same : d = c
    · subst same; rw [pc]; exact id
    · rw [others d same]
      intro h'
      have := ((queue.holder d node).mp h').2
      rw [taker] at this
      exact same (Option.some.inj this).symm
  · intro d b t cur node at_ under
    have same : d ≠ c := by rintro rfl; simp [pc] at at_
    rw [others d same] at at_
    obtain ⟨taker', later, seen⟩ := queue.waiting d b t cur node at_ under
    exact ⟨taker', later, by omega⟩
  · intro i d later at_
    obtain ⟨b, t, cur, at', under, eq⟩ := queue.waiter i d later at_
    have same : d ≠ c := by
      rintro rfl
      rw [at'] at holds
      exact holds
    exact ⟨b, t, cur, by rw [others d same]; exact at', under, eq⟩

theorem Queue.recheck {c : Coro} {a : GlobalAddress} {ticket current : BitVec 32} {s : State Data}
    {h : List LocalEvent} (queue : Queue cfg c.node (cfg.lockAddr a) s h)
    (pc : s.pc c = .waiting a ticket current) :
    Queue cfg c.node (cfg.lockAddr a) (s.setPc c
      (.waiting a ticket (currentOf (s.localLock c.node (cfg.lockAddr a)).ticketLock))) h := by
  refine ⟨queue.next, queue.order, queue.served, queue.node, fun d node => ?_,
    fun d b t cur node at_ under => ?_, fun i d later at_ => ?_⟩
  · rw [State.setPc_localLock, ← queue.holder d node]
    by_cases same : d = c
    · subst same; simp [pc, Pc.Holds]
    · simp [Function.update_of_ne same]
  · by_cases same : d = c
    · subst same
      simp only [State.setPc_pc, Function.update_self, Pc.waiting.injEq] at at_
      obtain ⟨rfl, rfl, rfl⟩ := at_
      obtain ⟨taker, later, -⟩ := queue.waiting d a ticket current rfl pc rfl
      exact ⟨taker, later, (LocalLockNode.currentOf_eq _).le⟩
    · rw [State.setPc_pc, Function.update_of_ne same] at at_
      exact queue.waiting d b t cur node at_ under
  · obtain ⟨b, t, cur, at', under, eq⟩ := queue.waiter i d later at_
    by_cases same : d = c
    · subst same
      rw [pc] at at'
      cases at'
      exact ⟨a, ticket, _, Function.update_self _ _ _, under, eq⟩
    · exact ⟨b, t, cur, by rw [State.setPc_pc, Function.update_of_ne same]; exact at', under, eq⟩

theorem Queue.step {n : NodeID} {la : GlobalAddress} {s s' : State Data} {h : List LocalEvent}
    {act : Action Data} (queue : Queue cfg n la s h) (noCarry : NoCarry cfg s act)
    (moves : Moves cfg s act s') : Queue cfg n la s' (h ++ localEvents cfg n la s act) := by
  -- the ticket word of another lock stays
  have elsewhere : ∀ {c : Coro} {a : GlobalAddress} {l : LocalLockNode} {pc : Pc Data},
      ¬ (c.node = n ∧ cfg.lockAddr a = la) →
      (((s.setLocal c.node (cfg.lockAddr a) l).setPc c pc).localLock n la).ticketLock =
        (s.localLock n la).ticketLock := by
    intro c a l pc other
    rw [State.setPc_localLock, State.setLocal_localLock]
    split
    case isTrue h' => exact absurd ⟨h'.1.symm, h'.2.symm⟩ other
    case isFalse => rfl
  have others : ∀ {c : Coro} {pc : Pc Data} (d : Coro), d ≠ c → Function.update s.pc c pc d = s.pc d :=
    fun d other => Function.update_of_ne other _ _
  cases moves with
  | @acquire c a pc =>
      simp only [localEvents]
      split
      case isTrue here =>
        obtain ⟨rfl, rfl⟩ := here
        refine queue.take pc ?_
        rw [← LocalLockNode.ticketOf_eq]
        exact noCarry
      case isFalse away =>
        rw [List.append_nil]
        refine queue.frame_move c (elsewhere away) others (fun _ => ?_) (fun node => ?_)
        · simp [pc, Pc.Holds]
        · rintro b t cur rfl
          simp only [State.setPc_pc, Function.update_self, pc, reduceCtorEq, iff_false,
            Pc.waiting.injEq, not_and]
          rintro rfl
          exact absurd ⟨node, rfl⟩ away
  | @recheck c a ticket current pc waits =>
      simp only [localEvents, List.append_nil]
      by_cases here : c.node = n ∧ cfg.lockAddr a = la
      · obtain ⟨rfl, rfl⟩ := here
        exact queue.recheck pc
      · refine queue.frame_move c rfl others (fun _ => ?_) (fun node => ?_)
        · simp [pc, Pc.Holds]
        · rintro b t cur rfl
          have away : b ≠ a := by rintro rfl; exact here ⟨node, rfl⟩
          simp [pc, Ne.symm away]
  | @handed c a ticket pc handOver =>
      simp only [localEvents, pc]
      split
      case isTrue here =>
        obtain ⟨rfl, rfl⟩ := here
        exact queue.enter pc (by simp [State.setLocal_localLock]) others (by simp [Pc.Holds])
      case isFalse away =>
        rw [List.append_nil]
        refine queue.frame_move c (elsewhere away) others (fun node => ?_) (fun node => ?_)
        · simpa [pc, Pc.Holds] using fun under => away ⟨node, under⟩
        · rintro b t cur rfl
          have away : a ≠ b := by rintro rfl; exact away ⟨node, rfl⟩
          simp [pc, away]
  | @enter c a ticket pc handOver =>
      simp only [localEvents, pc]
      split
      case isTrue here =>
        obtain ⟨rfl, rfl⟩ := here
        exact queue.enter pc (by simp [State.setLocal_localLock]) others (by simp [Pc.Holds])
      case isFalse away =>
        rw [List.append_nil]
        refine queue.frame_move c (elsewhere away) others (fun node => ?_) (fun node => ?_)
        · simpa [pc, Pc.Holds] using fun under => away ⟨node, under⟩
        · rintro b t cur rfl
          have away : a ≠ b := by rintro rfl; exact away ⟨node, rfl⟩
          simp [pc, away]
  | @cas c a pc drained free =>
      simp only [localEvents, List.append_nil]
      refine queue.frame_move c rfl others ?_ ?_ <;> simp [pc, Pc.Holds]
  | @retry c a pc taken =>
      simp only [localEvents, List.append_nil]
      exact queue
  | @read c a pc drained =>
      simp only [localEvents, List.append_nil]
      refine queue.frame_move c rfl others ?_ ?_ <;> simp [pc, Pc.Holds]
  | @decide c a d w async pc =>
      simp only [localEvents, List.append_nil]
      refine queue.frame_move c ?_ others ?_ ?_
      · rw [State.setPc_localLock, State.setLocal_localLock]
        split
        case isTrue h' => rw [h'.1, h'.2, LocalLockNode.canHandOver_ticketLock]
        case isFalse => rfl
      all_goals simp [pc, Pc.Holds]
  | @post c a w async handOver pc =>
      simp only [localEvents, List.append_nil]
      refine queue.frame_move c rfl others ?_ ?_
      · rw [pc, State.setPc_pc, Function.update_self, Pc.posted_holds]
        exact fun _ => Iff.rfl
      · rw [pc, State.setPc_pc, Function.update_self]
        cases w <;> cases async <;> cases handOver <;> simp [Pc.posted]
  | @poll c a handOver pc drained =>
      simp only [localEvents, List.append_nil]
      refine queue.frame_move c rfl others ?_ ?_ <;> simp [pc, Pc.Holds]
  | @release c a handOver pc =>
      simp only [localEvents, List.append_nil]
      by_cases here : c.node = n ∧ cfg.lockAddr a = la
      · obtain ⟨rfl, rfl⟩ := here
        exact queue.release (by simp [pc, Pc.Holds]) (by simp [State.setLocal_localLock]) others
          (by simp)
      · refine queue.frame_move c (elsewhere here) others (fun node => ?_) (by simp [pc])
        simpa [pc, Pc.Holds] using fun under => here ⟨node, under⟩
  | @execute i x found first =>
      simp only [localEvents, List.append_nil]
      exact queue.frame (by simp) (by simp) (by simp)

/-! ## Runs -/

theorem run_queue {mem : GlobalAddress → Data} {as : List (Action Data)} {s : State Data}
    (run : (machine Data cfg).run (.init mem) as = some s)
    (noCarry : (machine Data cfg).Throughout (NoCarry cfg) (.init mem) as) (n : NodeID)
    (la : GlobalAddress) :
    Queue cfg n la s ((machine Data cfg).history (localEvents cfg n la) (.init mem) as) :=
  Machine.run_history (I := Queue cfg n la)
    (fun _ _ _ _ queue noCarry step => queue.step noCarry (moves_of_step step))
    (init_queue n la mem) noCarry run

/-- What the ticket lock of a word promises on a node after a run: at most one coroutine is past the
waiting loop, the coroutines leave the loop in the order of their tickets, and when nobody holds or
waits the next ticket is the one being served. -/
def TicketLockCorrect (cfg : Config) (n : NodeID) (la : GlobalAddress) (mem : GlobalAddress → Data)
    (as : List (Action Data)) (s : State Data) : Prop :=
  (∀ c d, c.node = n → d.node = n → (s.pc c).Holds cfg la → (s.pc d).Holds cfg la → c = d) ∧
  entrants ((machine Data cfg).history (localEvents cfg n la) (.init mem) as) <+:
    takers ((machine Data cfg).history (localEvents cfg n la) (.init mem) as) ∧
  ((∀ c, c.node = n → ¬ (s.pc c).Holds cfg la ∧ ¬ (s.pc c).Waits cfg la) →
    ticketOf (s.localLock n la).ticketLock = currentOf (s.localLock n la).ticketLock)

theorem Queue.exclusive {n : NodeID} {la : GlobalAddress} {s : State Data} {h : List LocalEvent}
    (queue : Queue cfg n la s h) {c d : Coro} (hc : c.node = n) (hd : d.node = n)
    (holds : (s.pc c).Holds cfg la) (holds' : (s.pc d).Holds cfg la) : c = d := by
  have first := ((queue.holder c hc).mp holds).2
  have second := ((queue.holder d hd).mp holds').2
  rw [first] at second
  exact Option.some.inj second

theorem Queue.quiet {n : NodeID} {la : GlobalAddress} {s : State Data} {h : List LocalEvent}
    (queue : Queue cfg n la s h)
    (quiet : ∀ c, c.node = n → ¬ (s.pc c).Holds cfg la ∧ ¬ (s.pc c).Waits cfg la) :
    (s.localLock n la).next = (s.localLock n la).served := by
  have le := queue.order.length_le
  have length := queue.next
  have bounds := queue.served
  have noWaiter : (takers h).length ≤ (entrants h).length := by
    by_contra more
    obtain ⟨c, taker⟩ : ∃ c, (takers h)[(entrants h).length]? = some c :=
      ⟨_, List.getElem?_eq_getElem (by omega)⟩
    obtain ⟨a, ticket, current, at_, under, -⟩ := queue.waiter _ c (le_refl _) taker
    refine (quiet c (queue.node c (List.mem_of_getElem? taker))).2 ?_
    rw [at_]
    exact under
  have noHolder : (entrants h).length ≠ (s.localLock n la).served + 1 := by
    intro inside
    obtain ⟨c, taker⟩ : ∃ c, (takers h)[(s.localLock n la).served]? = some c :=
      ⟨_, List.getElem?_eq_getElem (by omega)⟩
    have node := queue.node c (List.mem_of_getElem? taker)
    exact (quiet c node).1 ((queue.holder c node).mpr ⟨inside, taker⟩)
  omega

/-- As long as no ticket carries into the upper half of the word, the lock is a fair mutex. -/
theorem ticket_lock_correct (mem : GlobalAddress → Data) (as : List (Action Data)) (s : State Data)
    (run : (machine Data cfg).run (.init mem) as = some s)
    (noCarry : (machine Data cfg).Throughout (NoCarry cfg) (.init mem) as) (n : NodeID)
    (la : GlobalAddress) : TicketLockCorrect cfg n la mem as s := by
  have queue := run_queue run noCarry n la
  refine ⟨fun c d hc hd => queue.exclusive hc hd, queue.order, fun quiet => ?_⟩
  apply BitVec.eq_of_toNat_eq
  rw [LocalLockNode.ticketOf_eq, LocalLockNode.currentOf_eq, queue.quiet quiet]

instance (s : State Data) : (a : Action Data) → Decidable (NoCarry cfg s a)
  | .acquire _ _ => inferInstanceAs (Decidable (_ < _))
  | .recheck _ | .enter _ | .cas _ | .read _ | .decide _ _ _ | .post _ | .poll _ | .release _ | .execute _ => isTrue trivial

theorem handedOver_noCarry : (machine Nat oneLock).Throughout (NoCarry oneLock) (.init fun _ => 0) handedOver :=
  Machine.throughout_of_passes (fun s a (h : decide (NoCarry oneLock s a) = true) => of_decide_eq_true h)
    (by decide +kernel)

theorem ticket_lock_correct_first : ∃ s : State Nat,
    (machine Nat oneLock).run (.init fun _ => 0) handedOver = some s ∧ (s.pc second).Holds oneLock ⟨0, 0⟩ ∧
    TicketLockCorrect oneLock 0 ⟨0, 0⟩ (fun _ => 0) handedOver s := by
  obtain ⟨s, run, reads⟩ := handedOver_run
  refine ⟨s, run, ?_, ticket_lock_correct (fun _ => 0) handedOver s run handedOver_noCarry 0 ⟨0, 0⟩⟩
  rw [reads]
  rfl

/-! ## The carry -/

def lockUnlock (c : Coro) (a : GlobalAddress) : List (Action Data) :=
  [.acquire c a, .enter c, .cas c, .read c, .decide c none true, .post c, .execute 0, .release c]

structure Rested (cfg : Config) (a : GlobalAddress) (count : Nat) (s : State Data) : Prop where
  idle : ∀ c, s.pc c = .idle
  pending : s.pending = []
  word : s.word (cfg.lockAddr a) = 0
  handOver : (s.localLock first.node (cfg.lockAddr a)).handOver = false
  next : (s.localLock first.node (cfg.lockAddr a)).next = count
  served : (s.localLock first.node (cfg.lockAddr a)).served = count

theorem noPending_of_holder {n : LocalLockNode} (counts : n.next = n.served + 1) :
    n.noPending := by
  have bound : n.next < 2 ^ 32 := Nat.mod_lt _ (by decide)
  rw [LocalLockNode.noPending, BitVec.le_def, BitVec.toNat_add, LocalLockNode.ticketOf_eq,
    LocalLockNode.currentOf_eq]
  have unit : (1 : BitVec 32).toNat = 1 := rfl
  omega

theorem Rested.lockUnlock {a : GlobalAddress} {count : Nat} {s : State Data}
    (rested : Rested cfg a count s) (room : count + 1 < 2 ^ 32) :
    ∃ s', (machine Data cfg).run s (lockUnlock first a) = some s' ∧ Rested cfg a (count + 1) s' := by
  obtain ⟨idle, pending, word, handOver, next, served⟩ := rested
  generalize lock : s.localLock first.node (cfg.lockAddr a) = l at *
  obtain ⟨next', served'⟩ := l.takeTicket_counts (by omega)
  have turn : ticketOf l.ticketLock = currentOf l.ticketLock := by
    apply BitVec.eq_of_toNat_eq
    rw [LocalLockNode.ticketOf_eq, LocalLockNode.currentOf_eq, next, served]
  have alone : l.takeTicket.entered.noPending := by
    apply noPending_of_holder
    change l.takeTicket.next = l.takeTicket.served + 1
    omega
  have release := l.takeTicket.entered.canHandOver.releaseLocalLock_counts (by
    change l.takeTicket.served + 1 < 2 ^ 32
    omega)
  have down : l.takeTicket.entered.canHandOver.handOver = false := by
    simp [LocalLockNode.canHandOver, alone]
  simp [Lock.lockUnlock, Machine.run, machine, step, idle, lock, State.setLocal_localLock, turn,
    handOver, word, State.drained, pending, down, batch, Pc.posted, State.execute, Write.node]
  refine ⟨fun c => ?_, rfl, ?_, ?_, ?_, ?_⟩
  · by_cases same : c = first
    · simp [same]
    · simp [Function.update_of_ne same, idle]
  · simp
  · simp [State.setLocal_localLock, down]
  · simp only [State.setPc_localLock, State.setLocal_localLock, and_self, if_true, release]
    change l.takeTicket.next = count + 1
    omega
  · simp only [State.setPc_localLock, State.setLocal_localLock, and_self, if_true, release]
    change l.takeTicket.served + 1 = count + 1
    omega

def Action.Ours (act : Action Data) : Prop :=
  ∀ c, act.coro? = some c → c = first ∨ c = second

theorem rested_run (a : GlobalAddress) (mem : GlobalAddress → Data) (count : Nat)
    (room : count < 2 ^ 32) : ∃ as s, (machine Data cfg).run (.init mem) as = some s ∧
      Rested cfg a count s ∧ ∀ act ∈ as, act.Ours := by
  induction count with
  | zero =>
      refine ⟨[], _, rfl, ⟨fun _ => rfl, rfl, rfl, rfl, ?_, ?_⟩, by simp⟩ <;>
        simp [State.init, LocalLockNode.init, LocalLockNode.next, LocalLockNode.served]
  | succ count ih =>
      obtain ⟨as, s, run, rested, ours⟩ := ih (by omega)
      obtain ⟨s', once, rested'⟩ := rested.lockUnlock room
      refine ⟨as ++ Lock.lockUnlock first a, s', ?_, rested', fun act member => ?_⟩
      · exact (machine Data cfg).run_append.mpr ⟨s, run, once⟩
      · rw [List.mem_append] at member
        obtain old | new := member
        · exact ours act old
        · simp only [Lock.lockUnlock, List.mem_cons, List.not_mem_nil, or_false] at new
          obtain rfl | rfl | rfl | rfl | rfl | rfl | rfl | rfl := new <;>
            simp [Action.Ours, Action.coro?]

/-- Fewer than `2 ^ 32` coroutines ever wait for one lock at once. -/
def FewWaiting (cfg : Config) (mem : GlobalAddress → Data) (as : List (Action Data)) : Prop :=
  ∀ front t, front <+: as → (machine Data cfg).run (.init mem) front = some t →
    ∀ n la, {c : Coro | c.node = n ∧ (t.pc c).Waits cfg la}.encard < 2 ^ 32

theorem fewWaiting_of_ours {mem : GlobalAddress → Data} {as : List (Action Data)}
    (ours : ∀ act ∈ as, act.Ours) : FewWaiting cfg mem as := by
  intro front t front_as run n la
  have idle := idle_of_coros (p := fun c => c = first ∨ c = second)
    (fun act member => ours act (front_as.subset member)) (fun _ _ => rfl) run
  have two : {c : Coro | c.node = n ∧ (t.pc c).Waits cfg la} ⊆ {first, second} := by
    rintro c ⟨-, waits⟩
    by_contra other
    simp only [Set.mem_insert_iff, Set.mem_singleton_iff, not_or] at other
    rw [idle c (not_or.mpr other)] at waits
    exact waits
  calc {c : Coro | c.node = n ∧ (t.pc c).Waits cfg la}.encard
      ≤ ({first, second} : Set Coro).encard := Set.encard_le_encard two
    _ = 2 := Set.encard_pair (by decide)
    _ < 2 ^ 32 := by decide

theorem both_enter {a : GlobalAddress} {s : State Data} (rested : Rested cfg a (2 ^ 32 - 1) s) :
    ∃ s', (machine Data cfg).run s [.acquire first a, .enter first, .acquire second a, .enter second] =
        some s' ∧
      (s'.pc first).Holds cfg (cfg.lockAddr a) ∧ (s'.pc second).Holds cfg (cfg.lockAddr a) := by
  obtain ⟨idle, pending, word, handOver, next, served⟩ := rested
  generalize lock : s.localLock first.node (cfg.lockAddr a) = l at *
  have turn : ticketOf l.ticketLock = currentOf l.ticketLock := by
    apply BitVec.eq_of_toNat_eq
    rw [LocalLockNode.ticketOf_eq, LocalLockNode.currentOf_eq, next, served]
  have carried : l.takeTicket.ticketLock.toNat = 0 := by
    have unit : (1 : BitVec 64).toNat = 1 := rfl
    simp only [LocalLockNode.next, LocalLockNode.served, LocalLockNode.takeTicket] at *
    rw [BitVec.toNat_add]
    omega
  have turn' : ticketOf l.takeTicket.ticketLock = currentOf l.takeTicket.ticketLock := by
    apply BitVec.eq_of_toNat_eq
    simp only [ticketOf_toNat, currentOf_toNat, carried, Nat.zero_mod, Nat.zero_div]
  have node : second.node = first.node := rfl
  have other : second ≠ first := by decide
  simp [Machine.run, machine, step, idle, lock, State.setLocal_localLock, turn, handOver, node, other,
    turn', Pc.Holds, Ne.symm other]

/-- The lock of `ticket_lock_correct` fails once enough tickets have been taken. -/
theorem ticket_lock_carry : ¬ ∀ (as : List (Action Unit)) (s : State Unit),
    (machine Unit oneLock).run (.init fun _ => ()) as = some s →
    FewWaiting oneLock (fun _ => ()) as →
    ∀ n la, TicketLockCorrect oneLock n la (fun _ => ()) as s := by
  intro claim
  obtain ⟨as, s, run, rested, ours⟩ :=
    @rested_run Unit oneLock ⟨0, 1024⟩ (fun _ => ()) (2 ^ 32 - 1) (by decide)
  obtain ⟨s', enter, holds, holds'⟩ := both_enter rested
  have whole := (machine Unit oneLock).run_append.mpr ⟨s, run, enter⟩
  have few : FewWaiting oneLock (fun _ => ())
      (as ++ [.acquire first ⟨0, 1024⟩, .enter first, .acquire second ⟨0, 1024⟩, .enter second]) := by
    refine fewWaiting_of_ours fun act member => ?_
    rw [List.mem_append] at member
    obtain old | new := member
    · exact ours act old
    · simp only [List.mem_cons, List.not_mem_nil, or_false] at new
      obtain rfl | rfl | rfl | rfl := new <;> simp [Action.Ours, Action.coro?]
  have same := (claim _ s' whole few 0 (oneLock.lockAddr ⟨0, 1024⟩)).1 first second rfl rfl holds holds'
  exact absurd same (by decide)

end Sherman.Lock
