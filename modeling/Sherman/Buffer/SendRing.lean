import Sherman.Buffer.ReceiveRing

/-!
# The send ring

`getSendPool` of `AbstractMessageConnection` and `sendRawMessage` of `RawMessageConnection`, as `rpc_call_dir` and
`process_message` call them. The sends of a queue complete in the order in which they are posted, and every 32nd
one is signalled.
-/

namespace Sherman.SendRing

open Concurrency ReceiveRing

def SIGNAL_BATCH : BitVec 64 := 31

inductive Phase where
  | ready
  /-- `getSendPool` has returned, and the message is written. -/
  | filling (slot : Nat)
  | polling (slot : Nat)
  | posting (slot : Nat)
  deriving DecidableEq

def Phase.slot : Phase → Option Nat
  | ready => none
  | filling slot | polling slot | posting slot => some slot

structure State where
  curSend : Nat
  sendCounter : BitVec 64
  phase : Phase
  posted : List Nat
  /-- The signalled sends whose completions are not polled, by their position in `posted`. -/
  requested : List Nat
  /-- How many sends the NIC has completed, and how many of them the polled completions tell. -/
  completed : Nat
  known : Nat

def State.init : State := ⟨0, 0, .ready, [], [], 0, 0⟩

inductive Action where
  | getSendPool
  /-- The test in front of the poll. -/
  | sendRawMessage
  | poll
  | rdmaSend
  | complete (count : Nat)
  deriving DecidableEq

def machine (c : Connection) : Machine State Action where
  step s
    | .getSendPool => match s.phase with
        | .ready => some { s with phase := .filling s.curSend, curSend := (s.curSend + 1) % c.messageNR }
        | _ => none
    | .sendRawMessage => match s.phase with
        | .filling slot =>
            if s.sendCounter &&& SIGNAL_BATCH = 0 ∧ 0 < s.sendCounter then some { s with phase := .polling slot }
            else some { s with phase := .posting slot }
        | _ => none
    | .poll => match s.phase, s.requested with
        | .polling slot, i :: rest =>
            if i < s.completed then some { s with phase := .posting slot, requested := rest, known := i + 1 }
            else none
        | _, _ => none
    | .rdmaSend => match s.phase with
        | .posting slot =>
            some { s with
              phase := .ready
              posted := s.posted ++ [slot]
              requested :=
                if s.sendCounter &&& SIGNAL_BATCH = 0 then s.requested ++ [s.posted.length] else s.requested
              sendCounter := s.sendCounter + 1 }
        | _ => none
    | .complete count =>
        if s.completed ≤ count ∧ count ≤ s.posted.length then some { s with completed := count } else none

/-- A slot is handed out when its last send is known to have completed, a poll waits for a send that is posted and
signalled, and at most 64 sends are outstanding. -/
structure Sound (s : State) : Prop where
  slot : ∀ slot, s.phase.slot = some slot → ∀ i, s.posted[i]? = some slot → i < s.known
  known : s.known ≤ s.completed
  poll : ∀ slot, s.phase = .polling slot → ∃ i ∈ s.requested.head?, i < s.posted.length
  outstanding : s.posted.length ≤ s.completed + 64

/-! ## The ring after `n` sends -/

def Reaped (n : Nat) (s : State) : Prop :=
  if n = 2 ^ 64 + 1 then s.known = 2 ^ 64 - 63
  else s.requested = (if n = 0 then [] else [32 * ((n - 1) / 32)]) ∧ s.known = 32 * ((n - 1) / 32) - 31

def Polled (n : Nat) (s : State) : Prop :=
  if n % 32 = 0 ∧ n < 2 ^ 64 then s.requested = [] ∧ s.known = n - 31 else Reaped n s

def Busy (c : Connection) (n slot : Nat) (s : State) : Prop :=
  slot = n % c.messageNR ∧ s.curSend = (n + 1) % c.messageNR

def AtPhase (c : Connection) (n : Nat) (s : State) : Phase → Prop
  | .ready => n ≤ 2 ^ 64 + 1 ∧ s.curSend = n % c.messageNR ∧ Reaped n s
  | .filling slot => n ≤ 2 ^ 64 ∧ Busy c n slot s ∧ Reaped n s
  | .polling slot => (0 < n ∧ n % 32 = 0 ∧ n < 2 ^ 64) ∧ Busy c n slot s ∧ Reaped n s
  | .posting slot => n ≤ 2 ^ 64 ∧ Busy c n slot s ∧ Polled n s

structure Ring (c : Connection) (n : Nat) (s : State) : Prop where
  counter : s.sendCounter = BitVec.ofNat 64 n
  posted : s.posted = c.slots 0 n
  completed : s.known ≤ s.completed ∧ s.completed ≤ n
  phase : AtPhase c n s s.phase

variable {c : Connection} {s t : State} {n m slot : Nat}

theorem signalled_iff (n : Nat) : BitVec.ofNat 64 n &&& SIGNAL_BATCH = 0 ↔ n % 32 = 0 := by
  have mask : (BitVec.ofNat 64 n &&& SIGNAL_BATCH).toNat = n % 2 ^ 64 % 2 ^ 5 := by
    rw [BitVec.toNat_and, BitVec.toNat_ofNat]
    exact Nat.and_two_pow_sub_one_eq_mod _ 5
  have zero : (0 : BitVec 64).toNat = 0 := rfl
  rw [← BitVec.toNat_inj, mask, zero]
  omega

theorem positive_iff (n : Nat) : 0 < BitVec.ofNat 64 n ↔ n % 2 ^ 64 ≠ 0 := by
  have zero : (0 : BitVec 64).toNat = 0 := rfl
  rw [BitVec.lt_def, BitVec.toNat_ofNat, zero]
  omega

theorem Ring.length (h : Ring c n s) : s.posted.length = n := by rw [h.posted, length_slots]

theorem init_ring (c : Connection) : Ring c 0 .init :=
  ⟨rfl, rfl, ⟨le_rfl, le_rfl⟩, by decide, (Nat.zero_mod _).symm, rfl, rfl⟩

theorem getSendPool_ring (h : Ring c n s) (step : (machine c).step s .getSendPool = some t) (few : n ≤ 2 ^ 64) :
    s.phase = .ready ∧ t.phase ≠ .ready ∧ Ring c n t := by
  obtain ⟨counter, posted, completed, phase⟩ := h
  simp only [machine] at step
  split at step
  · rename_i ready
    cases step
    rw [ready] at phase
    obtain ⟨-, cursor, reaped⟩ := phase
    have next : (s.curSend + 1) % c.messageNR = (n + 1) % c.messageNR := by rw [cursor, Nat.mod_add_mod]
    exact ⟨ready, by simp, counter, posted, completed, few, ⟨cursor, next⟩, reaped⟩
  · cases step

theorem sendRawMessage_ring (h : Ring c n s) (step : (machine c).step s .sendRawMessage = some t) :
    s.phase ≠ .ready ∧ t.phase ≠ .ready ∧ Ring c n t := by
  obtain ⟨counter, posted, completed, phase⟩ := h
  simp only [machine] at step
  split at step
  · rename_i slot filling
    rw [filling] at phase
    obtain ⟨few, busy, reaped⟩ := phase
    simp only [counter, signalled_iff, positive_iff] at step
    refine ⟨by simp [filling], ?_⟩
    split at step
    · rename_i polls
      cases step
      exact ⟨by simp, rfl, posted, completed, by omega, busy, reaped⟩
    · rename_i idle
      cases step
      refine ⟨by simp, rfl, posted, completed, few, busy, ?_⟩
      simp only [Polled]
      split
      · -- the first send
        have first : n = 0 := by omega
        subst first
        exact reaped
      · exact reaped
  · cases step

theorem poll_ring (h : Ring c n s) (step : (machine c).step s .poll = some t) :
    s.phase ≠ .ready ∧ t.phase ≠ .ready ∧ Ring c n t := by
  obtain ⟨counter, posted, completed, phase⟩ := h
  simp only [machine] at step
  split at step
  · rename_i slot i rest polling requested
    rw [polling] at phase
    obtain ⟨⟨pos, whole, less⟩, busy, reaped⟩ := phase
    rw [Reaped, if_neg (by omega), if_neg (by omega), requested] at reaped
    obtain ⟨⟨rfl, rfl⟩, known⟩ := List.cons_eq_cons.mp reaped.1, reaped.2
    split at step
    · rename_i done
      cases step
      refine ⟨by simp [polling], by simp, counter, posted, ⟨done, completed.2⟩, less.le, busy, ?_⟩
      rw [Polled, if_pos ⟨whole, less⟩]
      refine ⟨rfl, ?_⟩
      simp only
      omega
    · cases step
  · cases step

theorem Polled.posted (h : Polled n s) (few : n ≤ 2 ^ 64)
    (requested : t.requested = if n % 32 = 0 then s.requested ++ [n] else s.requested)
    (known : t.known = s.known) : Reaped (n + 1) t := by
  rcases Nat.lt_or_eq_of_le few with less | rfl
  · rw [Reaped, if_neg (by omega), if_neg (by omega), Nat.add_sub_cancel, requested, known]
    by_cases signalled : n % 32 = 0
    · rw [Polled, if_pos ⟨signalled, less⟩] at h
      have whole : 32 * (n / 32) = n := by omega
      rw [if_pos signalled, h.1, whole]
      exact ⟨rfl, h.2⟩
    · rw [Polled, if_neg (by omega), Reaped, if_neg (by omega), if_neg (by omega)] at h
      have batch : (n - 1) / 32 = n / 32 := by omega
      rw [if_neg signalled, ← batch]
      exact h
  · -- the counter is back at 0: this send is signalled, and nothing was polled before it
    rw [Polled, if_neg (by omega), Reaped, if_neg (by omega)] at h
    rw [Reaped, if_pos rfl, known, h.2]
    rfl

theorem rdmaSend_ring (h : Ring c n s) (step : (machine c).step s .rdmaSend = some t) :
    s.phase ≠ .ready ∧ t.phase = .ready ∧ Ring c (n + 1) t := by
  have length := h.length
  obtain ⟨counter, posted, completed, phase⟩ := h
  simp only [machine] at step
  split at step
  · rename_i slot posting
    rw [posting] at phase
    obtain ⟨few, ⟨rfl, cursor⟩, polled⟩ := phase
    simp only [counter, signalled_iff, length] at step
    cases step
    have last := slots_concat (c := c) 0 n
    rw [Nat.zero_add] at last
    refine ⟨by simp [posting], rfl, ?_, ?_, ⟨completed.1, completed.2.trans (Nat.le_succ n)⟩, ?_⟩
    · simp [BitVec.ofNat_add]
    · rw [last, posted]
    · exact ⟨Nat.succ_le_succ few, cursor, polled.posted few rfl rfl⟩
  · cases step

theorem complete_ring {count : Nat} (h : Ring c n s) (step : (machine c).step s (.complete count) = some t) :
    t.phase = s.phase ∧ Ring c n t := by
  have length := h.length
  obtain ⟨counter, posted, completed, phase⟩ := h
  simp only [machine] at step
  split at step
  · rename_i range
    cases step
    refine ⟨rfl, counter, posted, ⟨completed.1.trans range.1, length ▸ range.2⟩, ?_⟩
    cases at' : s.phase <;> simpa only [AtPhase, at', Reaped, Polled, Busy] using phase
  · cases step

def begun (n : Nat) (s : State) : Nat := if s.phase = .ready then n else n + 1

theorem Ring.step (h : Ring c n s) {a : Action} (step : (machine c).step s a = some t)
    (few : begun n s + [a].count .getSendPool ≤ 2 ^ 64 + 1) :
    ∃ n', Ring c n' t ∧ begun n' t = begun n s + [a].count .getSendPool := by
  cases a with
  | getSendPool =>
      have small : n ≤ 2 ^ 64 := by
        simp only [begun, List.count_singleton_self] at few
        split at few <;> omega
      obtain ⟨before, after, ring⟩ := getSendPool_ring h step small
      exact ⟨n, ring, by simp [begun, before, after]⟩
  | sendRawMessage =>
      obtain ⟨before, after, ring⟩ := sendRawMessage_ring h step
      exact ⟨n, ring, by simp [begun, before, after]⟩
  | poll =>
      obtain ⟨before, after, ring⟩ := poll_ring h step
      exact ⟨n, ring, by simp [begun, before, after]⟩
  | rdmaSend =>
      obtain ⟨before, after, ring⟩ := rdmaSend_ring h step
      exact ⟨n + 1, ring, by simp [begun, before, after]⟩
  | complete count =>
      obtain ⟨same, ring⟩ := complete_ring h step
      exact ⟨n, ring, by simp [begun, same]⟩

theorem run_ring {as : List Action} (h : Ring c n s) (run : (machine c).run s as = some t)
    (few : begun n s + as.count .getSendPool ≤ 2 ^ 64 + 1) :
    ∃ n', Ring c n' t ∧ begun n' t = begun n s + as.count .getSendPool := by
  induction as generalizing s n with
  | nil =>
      simp only [Machine.run, Option.some.injEq] at run
      subst run
      exact ⟨n, h, by simp⟩
  | cons a as ih =>
      obtain ⟨u, step, rest⟩ := (machine c).run_cons.mp run
      have split : ([a] ++ as).count Action.getSendPool = [a].count .getSendPool + as.count .getSendPool :=
        List.count_append
      rw [List.singleton_append] at split
      obtain ⟨m, ring, now⟩ := h.step step (by omega)
      obtain ⟨n', ring', later⟩ := ih ring rest (by omega)
      exact ⟨n', ring', by omega⟩

theorem Reaped.lag (h : Reaped n s) (few : n ≤ 2 ^ 64) : n ≤ s.known + 63 := by
  rw [Reaped, if_neg (by omega)] at h
  omega

theorem Polled.lag (h : Polled n s) (few : n ≤ 2 ^ 64) : n ≤ s.known + 63 := by
  rw [Polled] at h
  split at h
  · omega
  · exact h.lag few

theorem Ring.lag (h : Ring c n s) : n ≤ s.known + 64 ∧ (s.phase ≠ .ready → n ≤ s.known + 63) := by
  have phase := h.phase
  cases at' : s.phase with
  | ready =>
      rw [at'] at phase
      obtain ⟨few, -, reaped⟩ := phase
      refine ⟨?_, fun busy => absurd rfl busy⟩
      rcases Nat.lt_or_eq_of_le few with less | rfl
      · have := reaped.lag (Nat.le_of_lt_succ less)
        omega
      · rw [Reaped, if_pos rfl] at reaped
        omega
  | filling slot =>
      rw [at'] at phase
      have := phase.2.2.lag phase.1
      exact ⟨by omega, fun _ => this⟩
  | polling slot =>
      rw [at'] at phase
      have := phase.2.2.lag phase.1.2.2.le
      exact ⟨by omega, fun _ => this⟩
  | posting slot =>
      rw [at'] at phase
      have := phase.2.2.lag phase.1
      exact ⟨by omega, fun _ => this⟩

theorem Ring.busy (h : Ring c n s) (at' : s.phase.slot = some slot) : slot = n % c.messageNR := by
  have phase := h.phase
  cases now : s.phase with
  | ready => simp [now, Phase.slot] at at'
  | filling | polling | posting =>
      rw [now] at phase at'
      cases at'
      exact phase.2.1.1

theorem Ring.sound (h : Ring c n s) (large : 64 ≤ c.messageNR) : Sound s where
  slot slot at' i posted := by
    have busy : s.phase ≠ .ready := by
      intro ready
      simp [ready, Phase.slot] at at'
    have lag := h.lag.2 busy
    rw [h.posted, Connection.slots, List.getElem?_map, Option.map_eq_some_iff] at posted
    obtain ⟨j, hj, same⟩ := posted
    obtain ⟨hi, rfl⟩ := List.getElem?_eq_some_iff.mp hj
    simp only [List.length_range', List.getElem_range', Nat.zero_add, Nat.one_mul] at hi same
    -- the send is a whole round back
    by_contra late
    exact slot_ne (c := c) (i := i) (j := n) hi (by omega) (same.trans (h.busy at'))
  known := h.completed.1
  poll slot polling := by
    have phase := h.phase
    rw [polling] at phase
    obtain ⟨⟨pos, -, less⟩, -, reaped⟩ := phase
    rw [Reaped, if_neg (by omega), if_neg (by omega)] at reaped
    rw [reaped.1, h.length]
    exact ⟨_, rfl, by omega⟩
  outstanding := by
    have := h.lag.1
    have := h.completed.1
    rw [h.length]
    omega

/-- In every run with at most `2 ^ 64 + 1` messages. -/
theorem sends_sound (c : Connection) (large : 64 ≤ c.messageNR) (as : List Action) (s : State)
    (run : (machine c).run .init as = some s) (few : as.count .getSendPool ≤ 2 ^ 64 + 1) : Sound s := by
  have start : begun 0 .init = 0 := rfl
  obtain ⟨n, ring, -⟩ := run_ring (init_ring c) run (by omega)
  exact ring.sound large

def appConnection : Connection := ⟨96, ⟨24, rfl⟩⟩

def wholeRing : List Action :=
  (List.range 97).flatMap fun n =>
    if n % 32 = 0 ∧ 0 < n then [.getSendPool, .sendRawMessage, .complete n, .poll, .rdmaSend]
    else [.getSendPool, .sendRawMessage, .rdmaSend]

theorem wholeRing_posts : ((machine appConnection).run .init wholeRing).map (fun s => s.posted.count 0) = some 2 := by
  decide +kernel

theorem sends_sound_app : ∃ s, (machine appConnection).run .init wholeRing = some s ∧ s.posted.count 0 = 2 ∧ Sound s := by
  obtain ⟨s, run, twice⟩ := Option.map_eq_some_iff.mp wholeRing_posts
  exact ⟨s, run, twice, sends_sound appConnection (by decide) wholeRing s run (by decide +kernel)⟩

/-! ## The counter comes round -/

theorem Ring.message (h : Ring c n s) (ready : s.phase = .ready) (few : n ≤ 2 ^ 64) (lazy : s.completed = s.known) :
    ∃ as t, (machine c).run s as = some t ∧ as.count .getSendPool = 1 ∧ t.phase = .ready ∧
      t.completed = t.known := by
  have reaped := h.phase
  rw [ready] at reaped
  obtain ⟨-, -, reaped⟩ := reaped
  by_cases polls : s.sendCounter &&& SIGNAL_BATCH = 0 ∧ 0 < s.sendCounter
  · have due := polls
    rw [h.counter, signalled_iff, positive_iff] at due
    rw [Reaped, if_neg (by omega), if_neg (by omega)] at reaped
    obtain ⟨requested, known⟩ := reaped
    have reach : s.completed ≤ 32 * ((n - 1) / 32) + 1 := by omega
    have posted : 32 * ((n - 1) / 32) + 1 ≤ s.posted.length := by
      rw [h.length]
      omega
    refine ⟨[.getSendPool, .sendRawMessage, .complete (32 * ((n - 1) / 32) + 1), .poll, .rdmaSend], ?_⟩
    simp only [machine, Machine.run, ready, if_pos polls, requested, if_pos (And.intro reach posted),
      if_pos (Nat.lt_succ_self _)]
    exact ⟨_, rfl, rfl, rfl, rfl⟩
  · refine ⟨[.getSendPool, .sendRawMessage, .rdmaSend], ?_⟩
    simp only [machine, Machine.run, ready, if_neg polls]
    exact ⟨_, rfl, rfl, rfl, lazy⟩

theorem lazy_run (c : Connection) (few : n ≤ 2 ^ 64 + 1) :
    ∃ as s, (machine c).run .init as = some s ∧ as.count .getSendPool = n ∧ s.phase = .ready ∧
      s.completed = s.known ∧ Ring c n s := by
  induction n with
  | zero => exact ⟨[], .init, rfl, rfl, rfl, rfl, init_ring c⟩
  | succ n ih =>
      obtain ⟨as, s, run, count, ready, lazy, ring⟩ := ih (Nat.le_of_succ_le few)
      obtain ⟨bs, t, rest, one, ready', lazy'⟩ := ring.message ready (Nat.le_of_succ_le_succ few) lazy
      have before : begun n s = n := if_pos ready
      obtain ⟨m, ring', after⟩ := run_ring ring rest (by omega)
      have total : m = n + 1 := by
        rw [begun, if_pos ready'] at after
        omega
      refine ⟨as ++ bs, t, (machine c).run_append.mpr ⟨s, run, rest⟩, ?_, ready', lazy', total ▸ ring'⟩
      rw [List.count_append, count, one]

/-- The send numbered `2 ^ 64` finds the counter at 0 and polls nothing, and 65 sends are outstanding after the
next one. -/
theorem sends_unsound :
    ¬ ∀ as s, (machine appConnection).run .init as = some s → Sound s := by
  intro sound
  obtain ⟨as, s, run, -, ready, lazy, ring⟩ := lazy_run appConnection (n := 2 ^ 64 + 1) le_rfl
  have reaped := ring.phase
  rw [ready] at reaped
  obtain ⟨-, -, known⟩ := reaped
  rw [Reaped, if_pos rfl] at known
  have idle : ¬ (s.sendCounter &&& SIGNAL_BATCH = 0 ∧ 0 < s.sendCounter) := by
    rw [ring.counter]
    decide
  obtain ⟨t, rest, length, completed⟩ : ∃ t,
      (machine appConnection).run s [.getSendPool, .sendRawMessage, .rdmaSend] = some t ∧
        t.posted.length = s.posted.length + 1 ∧ t.completed = s.completed := by
    simp only [machine, Machine.run, ready, if_neg idle]
    exact ⟨_, rfl, by simp, rfl⟩
  have few := (sound _ t ((machine _).run_append.mpr ⟨s, run, rest⟩)).outstanding
  rw [length, completed, ring.length, lazy, known] at few
  omega

end Sherman.SendRing
