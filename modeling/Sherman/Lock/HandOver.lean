import Sherman.Lock.TicketLock

namespace Sherman.Lock

open Concurrency

variable {Data : Type} {cfg : Config}

inductive WordEvent where
  | locked
  | handed
  | zeroed
  deriving DecidableEq

def wordEvents (cfg : Config) (n : NodeID) (la : GlobalAddress) (s : State Data) :
    Action Data → List WordEvent
  | .enter c => match s.pc c with
      | .waiting a _ _ =>
          if c.node = n ∧ cfg.lockAddr a = la ∧ (s.localLock n la).handOver = true then [.handed]
          else []
      | _ => []
  | .cas c => match s.pc c with
      | .casing a => if c.node = n ∧ cfg.lockAddr a = la ∧ s.word la = 0 then [.locked] else []
      | _ => []
  | .execute i => match s.pending[i]? with
      | some ⟨c, .zero lb⟩ => if c.node = n ∧ lb = la then [.zeroed] else []
      | _ => []
  | _ => []

def spell (h : List WordEvent) : Nat :=
  h.foldl (fun k e => match e with
    | .locked | .handed => k + 1
    | .zeroed => 0) 0

/-- No stretch of a history without a write of zero has more than `bound` entries. -/
def Bounded (bound : Nat) (h : List WordEvent) : Prop :=
  ∀ before stretch after, h = before ++ stretch ++ after → .zeroed ∉ stretch → stretch.length ≤ bound

theorem spell_append (h : List WordEvent) (e : WordEvent) : spell (h ++ [e]) = match e with
    | .locked | .handed => spell h + 1
    | .zeroed => 0 := by simp [spell]

theorem length_le_spell {before stretch : List WordEvent} (h : .zeroed ∉ stretch) :
    stretch.length ≤ spell (before ++ stretch) := by
  induction stretch using List.reverseRecOn with
  | nil => simp
  | append_singleton stretch e ih =>
      rw [← List.append_assoc, spell_append, List.length_append, List.length_singleton]
      have := ih fun member => h (by simp [member])
      cases e with
      | locked => exact Nat.succ_le_succ this
      | handed => exact Nat.succ_le_succ this
      | zeroed => simp at h

theorem Bounded.append {bound : Nat} {h : List WordEvent} (bounded : Bounded bound h) {e : WordEvent}
    (last : spell (h ++ [e]) ≤ bound) : Bounded bound (h ++ [e]) := by
  intro before stretch after eq noZero
  cases after using List.reverseRecOn with
  | nil =>
      rw [List.append_nil] at eq
      exact (@length_le_spell before stretch noZero).trans (eq ▸ last)
  | append_singleton after f =>
      rw [← List.append_assoc] at eq
      exact bounded before stretch after (List.append_inj_left' eq rfl) noZero

/-! ## Hand time and entries -/

def Pc.Pace (cfg : Config) (la : GlobalAddress) (l : LocalLockNode) (entries : Nat) :
    Pc Data → Prop
  | .idle | .waiting _ _ _ => True
  | .casing a => cfg.lockAddr a = la → l.handTime.toNat = 1
  | .locked a | .holding a _ => cfg.lockAddr a = la →
      1 ≤ l.handTime.toNat ∧ l.handTime.toNat ≤ 8 ∧ entries = l.handTime.toNat
  | .leaving a _ _ b | .polling a b | .releasing a b => cfg.lockAddr a = la →
      if b = true then 1 ≤ l.handTime.toNat ∧ l.handTime.toNat ≤ 7 ∧ entries = l.handTime.toNat ∧
        l.served + 1 < l.next
      else l.handTime.toNat = 0

theorem Pc.pace_of_not_holds {la : GlobalAddress} {l : LocalLockNode} {entries : Nat} {pc : Pc Data}
    (h : ¬ pc.Holds cfg la) : pc.Pace cfg la l entries := by
  cases pc <;> simp only [Holds] at h <;> simp [Pace, h]

theorem Pc.Pace.decided {a : GlobalAddress} {l : LocalLockNode} {entries : Nat} {pc : Pc Data}
    {b : Bool} (pace : pc.Pace cfg (cfg.lockAddr a) l entries) (at_ : pc.decided = some (a, b)) :
    if b = true then 1 ≤ l.handTime.toNat ∧ l.handTime.toNat ≤ 7 ∧ entries = l.handTime.toNat ∧
        l.served + 1 < l.next
      else l.handTime.toNat = 0 := by
  cases pc <;> simp only [Pc.decided, reduceCtorEq, Option.some.injEq, Prod.mk.injEq] at at_ <;>
    obtain ⟨rfl, rfl⟩ := at_ <;> exact pace rfl

theorem Pc.Pace.mono {la : GlobalAddress} {l l' : LocalLockNode} {entries : Nat} {pc : Pc Data}
    (pace : pc.Pace cfg la l entries) (time : l'.handTime = l.handTime) (served : l'.served = l.served)
    (next : l.next ≤ l'.next) : pc.Pace cfg la l' entries := by
  cases pc <;> simp only [Pc.Pace, time, served] at * <;> intro under <;> have := pace under
  all_goals first
    | exact this
    | (split
       · rename_i bit; rw [if_pos bit] at this; omega
       · rename_i bit; rw [if_neg bit] at this; exact this)

structure Spell (cfg : Config) (n : NodeID) (la : GlobalAddress) (s : State Data) (entries : Nat) :
    Prop where
  word : entries ≠ 0 → ∃ t : Thread, t.nodeID = n ∧ s.word la = t.tag
  bound : entries ≤ 8
  pace : ∀ c, c.node = n → (s.pc c).Pace cfg la (s.localLock n la) entries
  rest : (∀ c, c.node = n → ¬ (s.pc c).Holds cfg la) →
    if (s.localLock n la).handOver = true then
      1 ≤ (s.localLock n la).handTime.toNat ∧ (s.localLock n la).handTime.toNat ≤ 7 ∧
        entries = (s.localLock n la).handTime.toNat ∧
        (s.localLock n la).served < (s.localLock n la).next
    else (s.localLock n la).handTime.toNat = 0

theorem init_spell (n : NodeID) (la : GlobalAddress) (mem : GlobalAddress → Data) :
    Spell cfg n la (.init mem) 0 := by
  constructor <;> simp [State.init, LocalLockNode.init, Pc.Pace]

theorem Spell.frame {n : NodeID} {la : GlobalAddress} {s s' : State Data} {entries : Nat}
    (spell : Spell cfg n la s entries) (word : entries ≠ 0 → s'.word la = s.word la)
    (time : (s'.localLock n la).handTime = (s.localLock n la).handTime)
    (flag : (s'.localLock n la).handOver = (s.localLock n la).handOver)
    (served : (s'.localLock n la).served = (s.localLock n la).served)
    (next : (s.localLock n la).next ≤ (s'.localLock n la).next)
    (pcs : ∀ c, c.node = n → s'.pc c = s.pc c ∨
      ((s'.pc c).Holds cfg la ↔ (s.pc c).Holds cfg la) ∧
        ((s.pc c).Pace cfg la (s.localLock n la) entries →
          (s'.pc c).Pace cfg la (s.localLock n la) entries)) :
    Spell cfg n la s' entries where
  word some := by rw [word some]; exact spell.word some
  bound := spell.bound
  pace c node := by
    obtain same | ⟨-, keeps⟩ := pcs c node
    · rw [same]; exact (spell.pace c node).mono time served next
    · exact (keeps (spell.pace c node)).mono time served next
  rest nobody := by
    have := spell.rest fun c node holds => nobody c node (by
      obtain same | ⟨iff, -⟩ := pcs c node
      · rwa [same]
      · exact iff.mpr holds)
    rw [flag, time, served]
    split
    case isTrue up => rw [if_pos up] at this; omega
    case isFalse down => rw [if_neg down] at this; exact this

theorem Spell.move {la : GlobalAddress} {s' : State Data} {entries' : Nat} {c : Coro}
    (exclusive : s'.LocalExclusive cfg) (holds : (s'.pc c).Holds cfg la)
    (word : entries' ≠ 0 → ∃ t : Thread, t.nodeID = c.node ∧ s'.word la = t.tag)
    (bound : entries' ≤ 8) (pace : (s'.pc c).Pace cfg la (s'.localLock c.node la) entries') :
    Spell cfg c.node la s' entries' where
  word := word
  bound := bound
  pace d node := by
    by_cases same : d = c
    · subst same; exact pace
    · exact Pc.pace_of_not_holds (exclusive.alone holds node same)
  rest nobody := absurd holds (nobody c rfl)

theorem Owned.word_of_zero {s : State Data} {la : GlobalAddress} {owner : Owner}
    (owned : Owned cfg s la owner) {c : Coro} (member : (⟨c, .zero la⟩ : Posted Data) ∈ s.pending) :
    owner = .flying c := by
  have posted : (⟨c, .zero la⟩ : Posted Data) ∈ s.posts cfg la := mem_posts.mpr ⟨member, rfl⟩
  have posts := owned.posts
  cases owner with
  | passing d =>
      obtain none | ⟨a, data, writes, -⟩ := posts
      · rw [none] at posted; cases posted
      · rw [writes] at posted; simp at posted
  | flying d =>
      obtain zero | ⟨a, data, -, writes⟩ := posts
      · rw [zero] at posted; simp at posted; rw [posted]
      · rw [writes] at posted; simp at posted; rw [posted]
  | _ => rw [show s.posts cfg la = [] from posts] at posted; cases posted

namespace LocalLockNode

theorem entered_handTime {n : LocalLockNode} (small : n.handTime.toNat ≤ 7) :
    n.entered.handTime.toNat = n.handTime.toNat + 1 := by
  have unit : (1 : BitVec 8).toNat = 1 := rfl
  simp only [entered, BitVec.toNat_add, unit]
  omega

theorem canHandOver_up {n : LocalLockNode} (up : n.canHandOver.handOver = true) :
    ¬ n.noPending ∧ n.handTime.toNat ≤ 7 ∧ n.canHandOver.handTime = n.handTime := by
  simp only [canHandOver] at up ⊢
  split at up
  · cases up
  · rename_i pending
    refine ⟨pending, ?_, by simp [pending, decide_eq_true_eq.mp up]⟩
    have := BitVec.lt_def.mp (decide_eq_true_eq.mp up)
    have limit : kMaxHandOverTime.toNat = 8 := rfl
    omega

theorem canHandOver_down {n : LocalLockNode} (down : n.canHandOver.handOver = false) :
    n.canHandOver.handTime.toNat = 0 := by
  simp only [canHandOver] at down ⊢
  simp [down]

theorem canHandOver_served (n : LocalLockNode) : n.canHandOver.served = n.served := by
  simp only [served, canHandOver_ticketLock]

theorem canHandOver_next (n : LocalLockNode) : n.canHandOver.next = n.next := by
  simp only [next, canHandOver_ticketLock]

theorem served_lt_next {n : LocalLockNode} (pending : ¬ n.noPending)
    (room : n.served + 1 < 2 ^ 32) : n.served + 1 < n.next := by
  have unit : (1 : BitVec 32).toNat = 1 := rfl
  rw [noPending, BitVec.le_def, BitVec.toNat_add, ticketOf_eq, currentOf_eq, unit] at pending
  omega

end LocalLockNode

theorem Queue.room {n : NodeID} {la : GlobalAddress} {s : State Data} {h : List LocalEvent}
    (queue : Queue cfg n la s h) {c : Coro} (node : c.node = n) (holds : (s.pc c).Holds cfg la) :
    (s.localLock n la).served + 1 ≤ (s.localLock n la).next := by
  rw [← ((queue.holder c node).mp holds).1]
  exact queue.entrants_le

theorem LocalLockNode.next_lt (n : LocalLockNode) : n.next < 2 ^ 32 := Nat.mod_lt _ (by decide)

theorem Pc.pace_posted {la : GlobalAddress} {l : LocalLockNode} {entries : Nat} {a : GlobalAddress}
    {w : Option Data} {async b : Bool} : (Pc.posted a w async b).Pace cfg la l entries ↔
      (Pc.leaving a w async b).Pace cfg la l entries := by
  cases w <;> cases async <;> cases b <;> simp [Pc.posted, Pc.Pace]

theorem Pc.Pace.forget {la : GlobalAddress} {l : LocalLockNode} {entries : Nat} {pc : Pc Data}
    (pace : pc.Pace cfg la l entries) (notInside : ¬ pc.Inside cfg la)
    (notPassing : ¬ pc.Passing cfg la) : pc.Pace cfg la l 0 := by
  cases pc with
  | idle | waiting => trivial
  | casing => exact pace
  | locked | holding | leaving => exact fun under => absurd under notInside
  | polling a b | releasing a b =>
      cases b with
      | true => exact fun under => absurd under notPassing
      | false => exact pace

theorem nobody_holds {s s' : State Data} {c : Coro} {la : GlobalAddress}
    (exclusive' : s'.LocalExclusive cfg) (others : ∀ d, d ≠ c → s'.pc d = s.pc d)
    (before : ¬ (s.pc c).Holds cfg la) (after : (s'.pc c).Holds cfg la) :
    ∀ d, d.node = c.node → ¬ (s.pc d).Holds cfg la := by
  intro d node holds
  have other : d ≠ c := by rintro rfl; exact before holds
  exact exclusive'.alone after node other (by rwa [others d other])

theorem Spell.step {n : NodeID} {la : GlobalAddress} {s s' : State Data} {h : List WordEvent}
    {q : List LocalEvent} {act : Action Data} (spells : Spell cfg n la s (spell h))
    (inv : Consistent cfg s) (queue : Queue cfg n la s q) (exclusive : s.LocalExclusive cfg)
    (exclusive' : s'.LocalExclusive cfg) (noCarry : NoCarry cfg s act) (moves : Moves cfg s act s') :
    Spell cfg n la s' (spell (h ++ wordEvents cfg n la s act)) := by
  have others : ∀ {c : Coro} {pc : Pc Data} (d : Coro), d ≠ c → Function.update s.pc c pc d = s.pc d :=
    fun d other => Function.update_of_ne other _ _
  -- a coroutine moves while the lock of the node stays, or keeps what matters of it
  have still : ∀ {s₁ : State Data} {c : Coro},
      (∀ d, d ≠ c → s₁.pc d = s.pc d) → (spell h ≠ 0 → s₁.word la = s.word la) →
      s₁.localLock n la = s.localLock n la →
      (c.node = n → ((s₁.pc c).Holds cfg la ↔ (s.pc c).Holds cfg la) ∧
        ((s.pc c).Pace cfg la (s.localLock n la) (spell h) →
          (s₁.pc c).Pace cfg la (s.localLock n la) (spell h))) → Spell cfg n la s₁ (spell h) := by
    intro s₁ c elsewhere word lock own
    refine spells.frame word (by rw [lock]) (by rw [lock]) (by rw [lock]) (by rw [lock])
      (fun d node => ?_)
    by_cases same : d = c
    · subst same; exact .inr (own node)
    · exact .inl (elsewhere d same)
  have away : ∀ {c : Coro} {a : GlobalAddress} {l : LocalLockNode},
      ¬ (c.node = n ∧ cfg.lockAddr a = la) →
      (s.setLocal c.node (cfg.lockAddr a) l).localLock n la = s.localLock n la := by
    intro c a l other
    rw [State.setLocal_localLock]
    split
    case isTrue h' => exact absurd ⟨h'.1.symm, h'.2.symm⟩ other
    case isFalse => rfl
  cases moves with
  | @acquire c a pc =>
      simp only [wordEvents, List.append_nil]
      by_cases here : c.node = n ∧ cfg.lockAddr a = la
      case neg =>
        refine still (c := c) others (fun _ => rfl) (away here) fun node => ?_
        simp [pc, Pc.Holds, Pc.Pace]
      obtain ⟨rfl, rfl⟩ := here
      obtain ⟨next, served⟩ := (s.localLock c.node (cfg.lockAddr a)).takeTicket_counts (by
        rw [← LocalLockNode.ticketOf_eq]; exact noCarry)
      refine spells.frame (fun _ => rfl) ?_ ?_ ?_ ?_ (fun d node => ?_)
      · simp [State.setLocal_localLock]
      · simp [State.setLocal_localLock]
      · simp [State.setLocal_localLock, served]
      · simp [State.setLocal_localLock, next]
      · by_cases same : d = c
        · subst same; exact .inr (by simp [pc, Pc.Holds, Pc.Pace])
        · exact .inl (others d same)
  | @recheck c a ticket current pc waits =>
      simp only [wordEvents, List.append_nil]
      refine still (c := c) others (fun _ => rfl) rfl fun node => ?_
      simp [pc, Pc.Holds, Pc.Pace]
  | @handed c a ticket pc handOver =>
      simp only [wordEvents, pc]
      by_cases here : c.node = n ∧ cfg.lockAddr a = la
      case neg =>
        have none : ¬ (c.node = n ∧ cfg.lockAddr a = la ∧ (s.localLock n la).handOver = true) :=
          fun h' => here ⟨h'.1, h'.2.1⟩
        rw [if_neg none, List.append_nil]
        refine still (c := c) others (fun _ => rfl) (away here) fun node => ?_
        have under : cfg.lockAddr a ≠ la := fun under => here ⟨node, under⟩
        simp [pc, Pc.Holds, Pc.Pace, under]
      obtain ⟨rfl, rfl⟩ := here
      rw [if_pos ⟨rfl, rfl, handOver⟩, spell_append]
      have rest := spells.rest (nobody_holds exclusive' others (by simp [pc, Pc.Holds])
        (by simp [Pc.Holds]))
      rw [if_pos handOver] at rest
      obtain ⟨low, high, eq, -⟩ := rest
      have time := LocalLockNode.entered_handTime high
      refine Spell.move exclusive' (by simp [Pc.Holds]) (fun _ => ?_) (by simp only; omega) ?_
      · exact spells.word (by omega)
      · simp only [State.setPc_pc, Function.update_self, Pc.Pace, State.setPc_localLock,
          State.setLocal_localLock, and_self, if_true, time]
        omega
  | @enter c a ticket pc handOver =>
      simp only [wordEvents, pc]
      by_cases here : c.node = n ∧ cfg.lockAddr a = la
      case neg =>
        have none : ¬ (c.node = n ∧ cfg.lockAddr a = la ∧ (s.localLock n la).handOver = true) :=
          fun h' => here ⟨h'.1, h'.2.1⟩
        rw [if_neg none, List.append_nil]
        refine still (c := c) others (fun _ => rfl) (away here) fun node => ?_
        have under : cfg.lockAddr a ≠ la := fun under => here ⟨node, under⟩
        simp [pc, Pc.Holds, Pc.Pace, under]
      obtain ⟨rfl, rfl⟩ := here
      rw [if_neg (by simp [handOver]), List.append_nil]
      have rest := spells.rest (nobody_holds exclusive' others (by simp [pc, Pc.Holds])
        (by simp [Pc.Holds]))
      rw [if_neg (by simp [handOver])] at rest
      have time := LocalLockNode.entered_handTime (n := s.localLock c.node (cfg.lockAddr a)) (by omega)
      refine Spell.move exclusive' (by simp [Pc.Holds]) spells.word spells.bound ?_
      simp only [State.setPc_pc, Function.update_self, Pc.Pace, State.setPc_localLock,
        State.setLocal_localLock, and_self, if_true, time, rest]
      exact fun _ => trivial
  | @cas c a pc drained free =>
      simp only [wordEvents, pc]
      have unlocked : ∀ lb, s.word lb = 0 → ¬ ∃ t : Thread, t.nodeID = n ∧ s.word lb = t.tag := by
        rintro lb zero ⟨t, -, eq⟩
        exact t.tag_ne_zero (eq.symm.trans zero)
      by_cases here : c.node = n ∧ cfg.lockAddr a = la
      case neg =>
        have none : ¬ (c.node = n ∧ cfg.lockAddr a = la ∧ s.word la = 0) :=
          fun h' => here ⟨h'.1, h'.2.1⟩
        rw [if_neg none, List.append_nil]
        refine still (c := c) others (fun some => ?_) rfl fun node => ?_
        · refine Function.update_of_ne ?_ _ _
          rintro rfl
          exact unlocked _ free (spells.word some)
        · have under : cfg.lockAddr a ≠ la := fun under => here ⟨node, under⟩
          simp [pc, Pc.Holds, Pc.Pace, under]
      obtain ⟨rfl, rfl⟩ := here
      have fresh : spell h = 0 := by
        by_contra some
        exact unlocked _ free (spells.word some)
      rw [if_pos ⟨rfl, rfl, free⟩, spell_append, fresh]
      have pace := spells.pace c rfl
      rw [pc] at pace
      have time := pace rfl
      refine Spell.move exclusive' (by simp [Pc.Holds]) (fun _ => ⟨c.thread, rfl, by simp⟩)
        (by decide) ?_
      simp only [State.setPc_pc, Function.update_self, Pc.Pace, State.setPc_localLock]
      omega
  | @retry c a pc taken =>
      simp only [wordEvents, pc]
      have none : ¬ (c.node = n ∧ cfg.lockAddr a = la ∧ s.word la = 0) := by
        rintro ⟨-, rfl, zero⟩
        exact taken zero
      rw [if_neg none, List.append_nil]
      exact spells
  | @read c a pc drained =>
      simp only [wordEvents, List.append_nil]
      refine still (c := c) others (fun _ => rfl) rfl fun node => ?_
      simp [pc, Pc.Holds, Pc.Pace]
  | @decide c a d w async pc =>
      simp only [wordEvents, List.append_nil]
      by_cases here : c.node = n ∧ cfg.lockAddr a = la
      case neg =>
        refine still (c := c) others (fun _ => rfl) (away here) fun node => ?_
        have under : cfg.lockAddr a ≠ la := fun under => here ⟨node, under⟩
        simp [pc, Pc.Holds, Pc.Pace, under]
      obtain ⟨rfl, rfl⟩ := here
      have pace := spells.pace c rfl
      rw [pc] at pace
      obtain ⟨low, high, eq⟩ := pace rfl
      have room := queue.room (c := c) rfl (by simp [pc, Pc.Holds])
      have limit := (s.localLock c.node (cfg.lockAddr a)).next_lt
      refine Spell.move exclusive' (by simp [Pc.Holds]) spells.word spells.bound ?_
      simp only [State.setPc_pc, Function.update_self, Pc.Pace, State.setPc_localLock,
        State.setLocal_localLock, and_self, if_true]
      intro _
      split
      case isTrue up =>
        obtain ⟨pending, small, time⟩ := LocalLockNode.canHandOver_up up
        rw [time, LocalLockNode.canHandOver_served, LocalLockNode.canHandOver_next]
        exact ⟨low, small, eq, LocalLockNode.served_lt_next pending (by omega)⟩
      case isFalse down =>
        exact LocalLockNode.canHandOver_down (by simpa using down)
  | @post c a w async handOver pc =>
      simp only [wordEvents, List.append_nil]
      refine still (c := c) others (fun _ => rfl) rfl fun node => ?_
      rw [pc, State.setPc_pc, Function.update_self, Pc.posted_holds, Pc.pace_posted]
      exact ⟨Iff.rfl, id⟩
  | @poll c a handOver pc drained =>
      simp only [wordEvents, List.append_nil]
      refine still (c := c) others (fun _ => rfl) rfl fun node => ?_
      simp [pc, Pc.Holds, Pc.Pace]
  | @release c a handOver pc =>
      simp only [wordEvents, List.append_nil]
      by_cases here : c.node = n ∧ cfg.lockAddr a = la
      case neg =>
        refine still (c := c) others (fun _ => rfl) (away here) fun node => ?_
        have under : cfg.lockAddr a ≠ la := fun under => here ⟨node, under⟩
        simp [pc, Pc.Holds, Pc.Pace, under]
      obtain ⟨rfl, rfl⟩ := here
      have flag := inv.decided c a handOver (by simp [pc, Pc.decided])
      have pace := (spells.pace c rfl).decided (a := a) (b := handOver) (by simp [pc, Pc.decided])
      have lock : ((s.setLocal c.node (cfg.lockAddr a)
          (s.localLock c.node (cfg.lockAddr a)).releaseLocalLock).setPc c .idle).localLock c.node
            (cfg.lockAddr a) = (s.localLock c.node (cfg.lockAddr a)).releaseLocalLock := by
        simp [State.setLocal_localLock]
      refine ⟨spells.word, spells.bound, fun d node => ?_, fun _ => ?_⟩
      · by_cases same : d = c
        · subst same; simp [Pc.Pace]
        · refine Pc.pace_of_not_holds ?_
          rw [State.setPc_pc, State.setLocal_pc, others d same]
          exact exclusive.alone (by simp [pc, Pc.Holds]) node same
      · rw [lock, LocalLockNode.releaseLocalLock_handOver, LocalLockNode.releaseLocalLock_handTime, flag]
        split
        case isTrue up =>
          rw [if_pos up] at pace
          obtain ⟨low, high, eq, behind⟩ := pace
          have limit := (s.localLock c.node (cfg.lockAddr a)).next_lt
          obtain ⟨next, served⟩ :=
            (s.localLock c.node (cfg.lockAddr a)).releaseLocalLock_counts (by omega)
          rw [next, served]
          exact ⟨low, high, eq, behind⟩
        case isFalse down =>
          rw [if_neg down] at pace
          exact pace
  | @execute i x found first =>
      have same : ∀ d, ({ s with pending := s.pending.eraseIdx i }.execute x.write).pc d = s.pc d := by
        simp
      have lock : ({ s with pending := s.pending.eraseIdx i }.execute x.write).localLock n la =
          s.localLock n la := by simp
      have quiet : (spell h ≠ 0 → ({ s with pending := s.pending.eraseIdx i }.execute x.write).word la =
          s.word la) → Spell cfg n la ({ s with pending := s.pending.eraseIdx i }.execute x.write)
            (spell h) := fun word =>
        spells.frame word (by rw [lock]) (by rw [lock]) (by rw [lock]) (by rw [lock])
          fun d _ => .inl (same d)
      obtain ⟨c, write⟩ := x
      cases write with
      | page a data =>
          simp only [wordEvents, found, List.append_nil]
          exact quiet fun _ => rfl
      | zero lb =>
          simp only [wordEvents, found]
          by_cases at_ : lb = la
          case neg =>
            rw [if_neg fun h' => at_ h'.2, List.append_nil]
            exact quiet fun _ => Function.update_of_ne (Ne.symm at_) _ _
          subst at_
          obtain ⟨owner, owned⟩ := inv.owned lb
          have flying := owned.word_of_zero (List.mem_of_getElem? found)
          subst flying
          by_cases node : c.node = n
          case neg =>
            rw [if_neg fun h' => node h'.1, List.append_nil]
            refine quiet fun some => ?_
            obtain ⟨t, at_, eq⟩ := spells.word some
            obtain ⟨u, at_', eq'⟩ := owned.node c.node rfl
            rw [← at_, ← at_'] at node
            exact absurd (Thread.node_of_tag (eq'.symm.trans eq)) node
          rw [if_pos ⟨node, rfl⟩, spell_append]
          refine ⟨by simp, by simp, fun d at_ => ?_, fun nobody => ?_⟩
          · rw [same d, lock]
            refine (spells.pace d at_).forget ?_ ?_
            · rw [owned.inside]; simp
            · rw [owned.passing]; simp
          · have nobody' : ∀ d, d.node = n → ¬ (s.pc d).Holds cfg lb := by
              intro d at_; rw [← same d]; exact nobody d at_
            have down : ¬ (s.localLock n lb).handOver = true := by
              intro up
              simpa using (owned.handed n).mp ⟨up, nobody'⟩
            have := spells.rest nobody'
            rw [if_neg down] at this
            rw [lock, if_neg down]
            exact this

theorem Spell.time_le {n : NodeID} {la : GlobalAddress} {s : State Data} {entries : Nat}
    (spell : Spell cfg n la s entries) : (s.localLock n la).handTime.toNat ≤ 8 := by
  by_cases nobody : ∀ c, c.node = n → ¬ (s.pc c).Holds cfg la
  · have := spell.rest nobody
    split at this <;> omega
  · simp only [not_forall, not_not] at nobody
    obtain ⟨c, node, holds⟩ := nobody
    have pace := spell.pace c node
    cases pc : s.pc c with
    | idle | waiting => rw [pc] at holds; exact absurd holds id
    | casing a =>
        rw [pc] at holds pace
        have := pace holds
        omega
    | locked a | holding a =>
        rw [pc] at holds pace
        exact (pace holds).2.1
    | leaving a w async b | polling a b | releasing a b =>
        rw [pc] at holds pace
        have := pace holds
        split at this <;> omega

/-! ## Runs -/

theorem wordEvents_cases (cfg : Config) (n : NodeID) (la : GlobalAddress) (s : State Data)
    (act : Action Data) : wordEvents cfg n la s act = [] ∨ ∃ e, wordEvents cfg n la s act = [e] := by
  cases act with
  | enter c => simp only [wordEvents]; split <;> (try split) <;> simp
  | cas c => simp only [wordEvents]; split <;> (try split) <;> simp
  | execute i => simp only [wordEvents]; split <;> (try split) <;> simp
  | _ => exact .inl rfl

structure Handing (cfg : Config) (n : NodeID) (la : GlobalAddress) (s : State Data)
    (h : List WordEvent) : Prop where
  owners : Consistent cfg s
  queue : ∀ m lb, ∃ q, Queue cfg m lb s q
  spell : Spell cfg n la s (spell h)
  bounded : Bounded 8 h

theorem Queue.localExclusive {s : State Data} (queue : ∀ m lb, ∃ q, Queue cfg m lb s q) :
    s.LocalExclusive cfg := by
  intro la c d holds holds' node
  obtain ⟨q, queue⟩ := queue d.node la
  exact queue.exclusive node rfl holds holds'

theorem Handing.step {n : NodeID} {la : GlobalAddress} {s s' : State Data} {h : List WordEvent}
    {act : Action Data} (handing : Handing cfg n la s h) (noCarry : NoCarry cfg s act)
    (moves : Moves cfg s act s') : Handing cfg n la s' (h ++ wordEvents cfg n la s act) := by
  have queue : ∀ m lb, ∃ q, Queue cfg m lb s' q := by
    intro m lb
    obtain ⟨q, queue⟩ := handing.queue m lb
    exact ⟨_, queue.step noCarry moves⟩
  have exclusive := Queue.localExclusive handing.queue
  have exclusive' := Queue.localExclusive queue
  obtain ⟨q, here⟩ := handing.queue n la
  have spell := handing.spell.step handing.owners here exclusive exclusive' noCarry moves
  refine ⟨handing.owners.step exclusive exclusive' moves, queue, spell, ?_⟩
  obtain none | ⟨e, one⟩ := wordEvents_cases cfg n la s act
  · rw [none, List.append_nil]
    exact handing.bounded
  · rw [one] at spell ⊢
    exact handing.bounded.append spell.bound

theorem run_handing {mem : GlobalAddress → Data} {as : List (Action Data)} {s : State Data}
    (run : (machine Data cfg).run (.init mem) as = some s)
    (noCarry : (machine Data cfg).Throughout (NoCarry cfg) (.init mem) as) (n : NodeID)
    (la : GlobalAddress) :
    Handing cfg n la s ((machine Data cfg).history (wordEvents cfg n la) (.init mem) as) := by
  refine Machine.run_history (I := Handing cfg n la)
    (fun _ _ _ _ handing noCarry step => handing.step noCarry (moves_of_step step)) (h := [])
    ⟨init_consistent mem, fun m lb => ⟨[], init_queue m lb mem⟩, init_spell n la mem, ?_⟩ noCarry run
  intro before stretch after eq _
  simp only [List.nil_eq, List.append_eq_nil_iff] at eq
  simp [eq.1.2]

/-- Between two writes of zero to a lock word by a node at most `kMaxHandOverTime` of its operations
enter, only a coroutine with another one queued behind it skips the write of zero, and a node where
nobody holds or waits has not kept the word. -/
theorem hand_over_bounded (mem : GlobalAddress → Data) (as : List (Action Data)) (s : State Data)
    (run : (machine Data cfg).run (.init mem) as = some s)
    (noCarry : (machine Data cfg).Throughout (NoCarry cfg) (.init mem) as) (n : NodeID)
    (la : GlobalAddress) :
    Bounded kMaxHandOverTime.toNat
      ((machine Data cfg).history (wordEvents cfg n la) (.init mem) as) ∧
    (s.localLock n la).handTime ≤ kMaxHandOverTime ∧
    (∀ c a, c.node = n → cfg.lockAddr a = la → (s.pc c).decided = some (a, true) →
      ∃ d, d ≠ c ∧ d.node = n ∧ (s.pc d).Waits cfg la) ∧
    ((∀ c, c.node = n → ¬ (s.pc c).Holds cfg la ∧ ¬ (s.pc c).Waits cfg la) →
      (s.localLock n la).handOver = false ∧
      ((∀ t : Thread, t.nodeID = n → s.word la ≠ t.tag) ∨
        ∃ c : Coro, c.node = n ∧ (⟨c, .zero la⟩ : Posted Data) ∈ s.pending)) := by
  have handing := run_handing run noCarry n la
  obtain ⟨q, queue⟩ := handing.queue n la
  refine ⟨handing.bounded, ?_, fun c a node under decided => ?_, fun quiet => ?_⟩
  · rw [BitVec.le_def]
    exact handing.spell.time_le
  · have holds : (s.pc c).Holds cfg la := under ▸ Pc.holds_of_decided decided
    have pace := handing.spell.pace c node
    rw [← under] at pace
    have behind := (pace.decided decided).2.2.2
    rw [under] at behind
    obtain ⟨inside, -⟩ := (queue.holder c node).mp holds
    have length := queue.next
    obtain ⟨d, taker⟩ : ∃ d, (takers q)[(entrants q).length]? = some d :=
      ⟨_, List.getElem?_eq_getElem (by omega)⟩
    obtain ⟨b, ticket, current, at_, under', -⟩ := queue.waiter _ d (le_refl _) taker
    refine ⟨d, ?_, queue.node d (List.mem_of_getElem? taker), by rw [at_]; exact under'⟩
    rintro rfl
    rw [at_] at holds
    exact holds
  · have nobody : ∀ c, c.node = n → ¬ (s.pc c).Holds cfg la := fun c node => (quiet c node).1
    have down : (s.localLock n la).handOver = false := by
      by_contra up
      rw [Bool.not_eq_false] at up
      have := handing.spell.rest nobody
      rw [if_pos up] at this
      have := queue.quiet quiet
      omega
    refine ⟨down, ?_⟩
    obtain ⟨owner, owned⟩ := handing.owners.owned la
    by_cases mine : owner.node = some n
    · -- the only way left to own the word is a write of zero in flight
      cases owner with
      | free => cases mine
      | held c =>
          have inside := (owned.inside c).mpr rfl
          simp only [Owner.node, Option.some.injEq] at mine
          exact absurd inside.holds (nobody c mine)
      | passing c =>
          have passing := (owned.passing c).mpr rfl
          simp only [Owner.node, Option.some.injEq] at mine
          exact absurd passing.holds (nobody c mine)
      | handed m =>
          have flag := ((owned.handed m).mpr rfl).1
          simp only [Owner.node, Option.some.injEq] at mine
          rw [mine, down] at flag
          cases flag
      | flying c =>
          simp only [Owner.node, Option.some.injEq] at mine
          have member : (⟨c, .zero la⟩ : Posted Data) ∈ s.posts cfg la := by
            obtain zero | ⟨a, data, -, writes⟩ := owned.posts
            · rw [zero]; simp
            · rw [writes]; simp
          exact .inr ⟨c, mine, (mem_posts.mp member).1⟩
    · refine .inl fun t node tag => mine ?_
      cases h : owner.node with
      | none =>
          have : owner = .free := by cases owner <;> simp [Owner.node] at h ⊢
          exact absurd (tag.symm.trans (owned.free.mpr this)) t.tag_ne_zero
      | some m =>
          obtain ⟨u, at_, eq⟩ := owned.node m h
          rw [← at_, ← node, Thread.node_of_tag (eq.symm.trans tag)]

theorem handedOver_words :
    (machine Nat oneLock).history (wordEvents oneLock 0 ⟨0, 0⟩) (.init fun _ => 0) handedOver = [.locked, .handed] := by
  decide +kernel

theorem hand_over_bounded_first : ∃ s : State Nat,
    (machine Nat oneLock).run (.init fun _ => 0) handedOver = some s ∧ (s.pc second).Holds oneLock ⟨0, 0⟩ ∧
    Bounded kMaxHandOverTime.toNat [.locked, .handed] ∧ (s.localLock 0 ⟨0, 0⟩).handTime ≤ kMaxHandOverTime := by
  obtain ⟨s, run, reads⟩ := handedOver_run
  obtain ⟨bounded, times, -⟩ := hand_over_bounded (fun _ => 0) handedOver s run handedOver_noCarry 0 ⟨0, 0⟩
  rw [handedOver_words] at bounded
  refine ⟨s, run, ?_, bounded, times⟩
  rw [reads]
  rfl

end Sherman.Lock
