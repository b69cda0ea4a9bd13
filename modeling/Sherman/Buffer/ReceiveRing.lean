import Mathlib.Logic.Function.Basic
import Mathlib.Data.List.Basic
import Mathlib.Data.List.Range
import Mathlib.Data.List.Infix
import Mathlib.Data.Nat.ModEq
import Mathlib.Tactic.Ring
import Sherman.Concurrency.Transition

/-!
# The receive ring

`initRecv` and `getMessage` of `AbstractMessageConnection`. The receive queue of the NIC is a list of
slots: a message is stored in the oldest one.
-/

namespace Sherman.ReceiveRing

open Concurrency

def kBatchCount : Nat := 4

structure Connection where
  messageNR : Nat
  divides : kBatchCount ∣ messageNR

namespace Connection

def subNR (c : Connection) : Nat := c.messageNR / kBatchCount

def recvs (c : Connection) (k : Nat) : List Nat := (List.range c.subNR).map fun i => k * c.subNR + i

theorem messageNR_eq (c : Connection) : c.messageNR = c.subNR * kBatchCount :=
  (Nat.div_mul_cancel c.divides).symm

end Connection

structure State where
  posted : List Nat
  curMessage : Nat
  pool : Nat → Option Nat
  stored : List Nat
  returned : List Nat

def State.init (c : Connection) : State :=
  ⟨(List.range kBatchCount).flatMap c.recvs, 0, fun _ => none, [], []⟩

inductive Action where
  | arrive
  | getMessage
  deriving DecidableEq

/-- A message needs a posted slot, and `getMessage` is called once for each completion polled. -/
def machine (c : Connection) : Machine State Action where
  step s
    | .arrive => match s.posted with
      | [] => none
      | slot :: rest =>
          some { s with
            posted := rest
            pool := Function.update s.pool slot (some s.stored.length)
            stored := s.stored ++ [slot] }
    | .getMessage =>
        if s.returned.length < s.stored.length then
          let m := s.curMessage
          let curMessage := (s.curMessage + 1) % c.messageNR
          some { s with
            curMessage := curMessage
            posted :=
              if curMessage % c.subNR = 0 then
                s.posted ++ c.recvs ((curMessage / c.subNR + kBatchCount - 1) % kBatchCount)
              else s.posted
            returned := s.returned ++ [m] }
        else none

/-- What the code relies on: messages are returned in the order of their arrival, a message that waits
is not overwritten, and neither is the one returned last. -/
structure Delivered (s : State) : Prop where
  order : s.returned <+: s.stored
  waiting : ∀ slot ∈ s.stored.drop s.returned.length, slot ∉ s.posted
  intact : ∀ n slot, s.returned.length = n + 1 → s.returned.getLast? = some slot → s.pool slot = some n

/-! ## The ring as a window of message numbers -/

def Connection.slots (c : Connection) (i len : Nat) : List Nat := (List.range' i len).map (· % c.messageNR)

def Connection.limit (c : Connection) (returned : Nat) : Nat :=
  c.messageNR + c.subNR * (returned / c.subNR)

structure Window (c : Connection) (arrived returned : Nat) (s : State) : Prop where
  called : returned ≤ arrived
  bound : arrived ≤ c.limit returned
  cursor : s.curMessage = returned % c.messageNR
  posted : s.posted = c.slots arrived (c.limit returned - arrived)
  stored : s.stored = c.slots 0 arrived
  returns : s.returned = c.slots 0 returned
  pool : ∀ i < arrived, arrived ≤ i + c.messageNR → s.pool (i % c.messageNR) = some i

variable {c : Connection} {s t : State} {arrived returned : Nat}

@[simp] theorem length_slots (i len : Nat) : (c.slots i len).length = len := by simp [Connection.slots]

theorem slots_succ (i len : Nat) : c.slots i (len + 1) = i % c.messageNR :: c.slots (i + 1) len := rfl

theorem slots_concat (i len : Nat) : c.slots i (len + 1) = c.slots i len ++ [(i + len) % c.messageNR] := by
  simp [Connection.slots, List.range'_1_concat]

theorem slots_append (i m n : Nat) : c.slots i m ++ c.slots (i + m) n = c.slots i (m + n) := by
  simp [Connection.slots, ← List.map_append]

theorem slots_round (i len : Nat) : c.slots (c.messageNR + i) len = c.slots i len := by
  simp [Connection.slots, List.range'_eq_map_range, Nat.add_assoc]

theorem slot_ne {i j : Nat} (less : i < j) (near : j < i + c.messageNR) : i % c.messageNR ≠ j % c.messageNR := by
  intro same
  have : c.messageNR ∣ j - i := (Nat.modEq_iff_dvd' less.le).mp same
  have := Nat.le_of_dvd (by omega) this
  omega

theorem recvs_eq (c : Connection) (q : Nat) : c.recvs (q % kBatchCount) = c.slots (c.subNR * q) c.subNR := by
  rw [Connection.recvs, Connection.slots, List.range'_eq_map_range, List.map_map]
  refine List.map_congr_left fun i hi => ?_
  have small := List.mem_range.mp hi
  have turn : c.subNR * q + i = (q % kBatchCount * c.subNR + i) + c.messageNR * (q / kBatchCount) := by
    calc c.subNR * q + i
        = c.subNR * (q % kBatchCount + kBatchCount * (q / kBatchCount)) + i := by rw [Nat.mod_add_div]
      _ = (q % kBatchCount * c.subNR + i) + c.messageNR * (q / kBatchCount) := by
          rw [c.messageNR_eq]
          ring
  have bound : q % kBatchCount * c.subNR + i < c.messageNR := by
    have batch : q % kBatchCount < kBatchCount := Nat.mod_lt _ (by decide)
    calc q % kBatchCount * c.subNR + i < (q % kBatchCount + 1) * c.subNR := by rw [Nat.succ_mul]; omega
      _ ≤ kBatchCount * c.subNR := Nat.mul_le_mul_right _ batch
      _ = c.messageNR := by rw [c.messageNR_eq, Nat.mul_comm]
  simp only [Function.comp_apply]
  rw [turn, Nat.add_mul_mod_self_left, Nat.mod_eq_of_lt bound]

theorem init_window (c : Connection) : Window c 0 0 (.init c) where
  called := le_rfl
  bound := Nat.zero_le _
  cursor := (Nat.zero_mod _).symm
  posted := by
    have batches : ∀ n ≤ kBatchCount, (List.range n).flatMap c.recvs = c.slots 0 (c.subNR * n) := by
      intro n hn
      induction n with
      | zero => rfl
      | succ n ih =>
          have batch := recvs_eq c n
          rw [Nat.mod_eq_of_lt hn] at batch
          rw [List.range_succ, List.flatMap_append, ih (by omega), List.flatMap_singleton, batch]
          simpa [Nat.mul_succ] using slots_append 0 (c.subNR * n) c.subNR
    have limit : c.limit 0 = c.subNR * kBatchCount := by simp [Connection.limit, c.messageNR_eq]
    rw [limit]
    exact batches kBatchCount le_rfl
  stored := rfl
  returns := rfl
  pool := by simp

theorem limit_le (c : Connection) (returned : Nat) : c.limit returned ≤ c.messageNR + returned := by
  have := Nat.mul_div_le returned c.subNR
  simp only [Connection.limit]
  omega

theorem arrive_window (h : Window c arrived returned s) (step : (machine c).step s .arrive = some t) :
    Window c (arrived + 1) returned t := by
  have called := h.called
  have bound := h.bound
  have near := limit_le c returned
  obtain ⟨len, room⟩ : ∃ len, c.limit returned - arrived = len := ⟨_, rfl⟩
  have posted := h.posted
  rw [room] at posted
  cases len with
  | zero => simp [machine, posted, Connection.slots] at step
  | succ len =>
      have count : s.stored.length = arrived := by rw [h.stored, length_slots]
      rw [slots_succ] at posted
      simp only [machine, posted, Option.some.injEq, count] at step
      subst step
      refine ⟨by omega, by omega, h.cursor, ?_, ?_, h.returns, fun i hi window => ?_⟩
      · have rest : c.limit returned - (arrived + 1) = len := by omega
        rw [rest]
      · have last := slots_concat (c := c) 0 arrived
        rw [Nat.zero_add] at last
        simp only [h.stored, last]
      · simp only
        by_cases newest : i = arrived
        · rw [newest, Function.update_self]
        · -- the slot of an older message of the window is another one
          rw [Function.update_of_ne (slot_ne (by omega) (by omega))]
          exact h.pool i (by omega) (by omega)

theorem batch_of_turn (complete : (returned + 1) % c.subNR = 0) :
    ((returned + 1) % c.messageNR / c.subNR + kBatchCount - 1) % kBatchCount =
      returned / c.subNR % kBatchCount := by
  have pos : 0 < c.subNR := by
    rcases Nat.eq_zero_or_pos c.subNR with zero | pos
    · simp [zero] at complete
    · exact pos
  have next : (returned + 1) / c.subNR = returned / c.subNR + 1 := Nat.succ_div_of_mod_eq_zero complete
  have whole : returned + 1 = c.subNR * (returned / c.subNR + 1) := by
    rw [← next, Nat.mul_div_cancel' (Nat.dvd_of_mod_eq_zero complete)]
  have wrapped : (returned + 1) % c.messageNR / c.subNR = (returned / c.subNR + 1) % kBatchCount := by
    rw [c.messageNR_eq, whole, Nat.mul_mod_mul_left, Nat.mul_div_cancel_left _ pos]
  rw [wrapped]
  simp only [kBatchCount]
  omega

theorem getMessage_window (h : Window c arrived returned s) (step : (machine c).step s .getMessage = some t) :
    Window c arrived (returned + 1) t := by
  have bound := h.bound
  simp only [machine, h.stored, h.returns, length_slots] at step
  split at step
  · rename_i waits
    cases step
    have cursor : (s.curMessage + 1) % c.messageNR = (returned + 1) % c.messageNR := by
      rw [h.cursor, Nat.mod_add_mod]
    have last := slots_concat (c := c) 0 returned
    rw [Nat.zero_add] at last
    have turn : (returned + 1) % c.messageNR % c.subNR = (returned + 1) % c.subNR :=
      Nat.mod_mod_of_dvd _ ⟨kBatchCount, c.messageNR_eq⟩
    have grows : c.limit returned ≤ c.limit (returned + 1) := by
      have := Nat.div_le_div_right (c := c.subNR) (Nat.le_add_right returned 1)
      have := Nat.mul_le_mul_left c.subNR this
      simp only [Connection.limit]
      omega
    refine ⟨waits, bound.trans grows, cursor, ?_, rfl, ?_, h.pool⟩
    · simp only [cursor, turn]
      split
      · rename_i complete
        -- the batch that this call completes
        have next : (returned + 1) / c.subNR = returned / c.subNR + 1 := Nat.succ_div_of_mod_eq_zero complete
        have room : c.limit (returned + 1) - arrived = (c.limit returned - arrived) + c.subNR := by
          simp only [Connection.limit, next, Nat.mul_succ] at bound ⊢
          omega
        have reach : arrived + (c.limit returned - arrived) = c.limit returned := Nat.add_sub_cancel' bound
        rw [batch_of_turn complete, recvs_eq, h.posted, room, ← slots_append, reach, Connection.limit, slots_round]
      · rename_i partial'
        have same : (returned + 1) / c.subNR = returned / c.subNR := Nat.succ_div_of_mod_ne_zero partial'
        rw [h.posted, Connection.limit, Connection.limit, same]
    · rw [last, ← h.cursor]
  · cases step

theorem run_window {as : List Action} (h : Window c arrived returned s) (run : (machine c).run s as = some t) :
    Window c (arrived + as.count .arrive) (returned + as.count .getMessage) t := by
  induction as generalizing s arrived returned with
  | nil =>
      simp only [Machine.run, Option.some.injEq] at run
      simpa [run] using h
  | cons a as ih =>
      obtain ⟨u, step, rest⟩ := (machine c).run_cons.mp run
      cases a with
      | arrive =>
          have := ih (arrive_window h step) rest
          simpa [Nat.add_assoc, Nat.add_comm 1] using this
      | getMessage =>
          have := ih (getMessage_window h step) rest
          simpa [Nat.add_assoc, Nat.add_comm 1] using this

/-! ## Delivery -/

theorem Window.order (h : Window c arrived returned s) : s.returned <+: s.stored := by
  obtain ⟨rest, total⟩ := Nat.exists_eq_add_of_le h.called
  rw [h.returns, h.stored, total, ← slots_append]
  exact List.prefix_append _ _

theorem Window.waiting (h : Window c arrived returned s) :
    ∀ slot ∈ s.stored.drop s.returned.length, slot ∉ s.posted := by
  intro slot waits posted
  obtain ⟨rest, total⟩ := Nat.exists_eq_add_of_le h.called
  have near := limit_le c returned
  rw [h.stored, h.returns, length_slots, total, ← slots_append, List.drop_left' (length_slots _ _)] at waits
  rw [h.posted] at posted
  simp only [Connection.slots, List.mem_map, List.mem_range'_1] at waits posted
  obtain ⟨i, hi, rfl⟩ := waits
  obtain ⟨j, hj, same⟩ := posted
  exact slot_ne (c := c) (i := i) (j := j) (by omega) (by omega) same.symm

theorem Window.intact_iff (h : Window c arrived returned s) :
    (∀ n slot, s.returned.length = n + 1 → s.returned.getLast? = some slot → s.pool slot = some n) ↔
      returned = 0 ∨ arrived < returned + c.messageNR := by
  have bound := h.bound
  have near := limit_le c returned
  have called := h.called
  rw [h.returns, length_slots]
  cases returned with
  | zero => simp
  | succ n =>
      have last : (c.slots 0 (n + 1)).getLast? = some (n % c.messageNR) := by simp [slots_concat]
      simp only [Nat.add_right_cancel_iff, last, Option.some.injEq, Nat.succ_ne_zero, false_or]
      constructor
      · intro intact
        by_contra full
        have pos : 0 < c.messageNR := by
          rcases Nat.eq_zero_or_pos c.messageNR with none | pos
          · have := c.messageNR_eq
            simp [Connection.limit, Connection.subNR, none] at bound
            omega
          · exact pos
        -- the message one round later is in its slot
        have latest := h.pool (n + c.messageNR) (by omega) (by omega)
        rw [Nat.add_mod_right, intact n _ rfl rfl, Option.some.injEq] at latest
        omega
      · rintro fits m slot rfl rfl
        exact h.pool n (by omega) (by omega)

/-- In every run: messages are delivered as the code relies on in all states on the way exactly when, from
the first call on, never a whole round of messages has arrived and not been returned. -/
theorem delivered_iff (c : Connection) (as : List Action) (s : State)
    (run : (machine c).run (.init c) as = some s) :
    (∀ front t, front <+: as → (machine c).run (.init c) front = some t → Delivered t) ↔
      ∀ front, front <+: as → front.count .getMessage = 0 ∨
        front.count .arrive < front.count .getMessage + c.messageNR := by
  have window : ∀ front t, (machine c).run (.init c) front = some t →
      Window c (front.count .arrive) (front.count .getMessage) t := by
    intro front t reached
    simpa using run_window (init_window c) reached
  constructor
  · rintro delivered front ⟨rest, rfl⟩
    obtain ⟨t, reached, -⟩ := (machine c).run_append.mp run
    exact (window front t reached).intact_iff.mp (delivered front t ⟨rest, rfl⟩ reached).intact
  · intro fits front t early reached
    have h := window front t reached
    exact ⟨h.order, h.waiting, h.intact_iff.mpr (fits front early)⟩

theorem delivered_in_order (c : Connection) {as : List Action} (run : (machine c).run (.init c) as = some s) :
    s.returned <+: s.stored ∧ ∀ slot ∈ s.stored.drop s.returned.length, slot ∉ s.posted :=
  have h := run_window (init_window c) run
  ⟨h.order, h.waiting⟩

def smallest : Connection := ⟨4, ⟨1, rfl⟩⟩

theorem delivered_iff_smallest :
    ∃ s, (machine smallest).run (.init smallest) [.arrive, .getMessage, .arrive, .arrive, .arrive] = some s ∧
      Delivered s := by
  have fits : ∀ front ∈ List.inits [Action.arrive, .getMessage, .arrive, .arrive, .arrive],
      front.count .getMessage = 0 ∨ front.count .arrive < front.count .getMessage + 4 := by decide
  refine ⟨_, rfl, (delivered_iff smallest [.arrive, .getMessage, .arrive, .arrive, .arrive] _ rfl).mpr ?_ _ _
    (List.prefix_refl _) rfl⟩
  exact fun front early => fits front ((List.mem_inits _ _).mpr early)

/-- One call and a round of arrivals: the slot of the message just returned holds the last one. -/
theorem returned_overwritten :
    ∃ s, (machine smallest).run (.init smallest)
        [.arrive, .getMessage, .arrive, .arrive, .arrive, .arrive] = some s ∧
      s.returned = [0] ∧ s.pool 0 = some 4 ∧ ¬ Delivered s := by
  refine ⟨_, rfl, rfl, rfl, fun delivered => ?_⟩
  have := delivered.intact 0 0 rfl rfl
  cases this

end Sherman.ReceiveRing
