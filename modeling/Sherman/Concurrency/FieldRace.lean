import Mathlib.Logic.Function.Basic
import Mathlib.Order.Monotone.Basic
import Sherman.Concurrency.Transition

/-!
# A reader and writers racing through the fields of a record

A reader goes through a sequence of cells once. Writers follow each other; each writes all fields of
one record in order, one field a step. Only how the steps interleave decides which write the reader
sees in each cell.
-/

namespace Concurrency.FieldRace

inductive Turn where
  | read
  | write
  deriving DecidableEq

/-- What the writers do step by step, and the cells the reader visits. -/
structure Race (Cell Val : Type) where
  write : Nat → Cell × Val
  read : Nat → Cell

structure State (Cell Val : Type) where
  mem : Cell → Val
  written : Nat
  buffer : List Val

variable {Cell Val : Type} [DecidableEq Cell]

namespace Race
variable (race : Race Cell Val)

def step (s : State Cell Val) : Turn → Option (State Cell Val)
  | .read => some { s with buffer := s.buffer ++ [s.mem (race.read s.buffer.length)] }
  | .write => some { s with
      mem := Function.update s.mem (race.write s.written).1 (race.write s.written).2
      written := s.written + 1 }

def machine : Machine (State Cell Val) Turn where
  step := race.step

def start (mem : Cell → Val) : State Cell Val := ⟨mem, 0, []⟩

def after (mem : Cell → Val) : Nat → Cell → Val
  | 0 => mem
  | n + 1 => Function.update (after mem n) (race.write n).1 (race.write n).2

end Race

def writesBefore : List Turn → Nat → Nat
  | [], _ => 0
  | .write :: rest, r => writesBefore rest r + 1
  | .read :: _, 0 => 0
  | .read :: rest, r + 1 => writesBefore rest r

@[simp] theorem writesBefore_write (rest : List Turn) (r : Nat) :
    writesBefore (.write :: rest) r = writesBefore rest r + 1 := by cases r <;> rfl

@[simp] theorem writesBefore_writes (n : Nat) (rest : List Turn) (r : Nat) :
    writesBefore (List.replicate n .write ++ rest) r = writesBefore rest r + n := by
  induction n with
  | zero => rfl
  | succ n ih =>
      rw [List.replicate_succ, List.cons_append, writesBefore_write, ih]
      omega

@[simp] theorem writesBefore_reads (n : Nat) (rest : List Turn) (r : Nat) :
    writesBefore (List.replicate n .read ++ rest) r = if r < n then 0 else writesBefore rest (r - n) := by
  induction n generalizing r with
  | zero => rfl
  | succ n ih =>
      rw [List.replicate_succ, List.cons_append]
      cases r with
      | zero => rfl
      | succ r => simp only [writesBefore, ih, Nat.succ_lt_succ_iff, Nat.succ_sub_succ]

theorem writesBefore_mono (turns : List Turn) : Monotone (writesBefore turns) := by
  intro r r' le
  induction turns generalizing r r' with
  | nil => exact Nat.le_refl 0
  | cons turn rest ih =>
      cases turn with
      | write => exact Nat.succ_le_succ (ih le)
      | read =>
          cases r with
          | zero => exact Nat.zero_le _
          | succ r =>
              cases r' with
              | zero => omega
              | succ r' => exact ih (by omega)

namespace Race
variable {race : Race Cell Val}

theorem buffer_of_run {mem : Cell → Val} {turns : List Turn} {s s' : State Cell Val}
    (at_ : s.mem = race.after mem s.written) (run : race.machine.run s turns = some s') (r : Nat)
    (before : s.buffer.length ≤ r) (done : r < s'.buffer.length) :
    s'.buffer[r]? =
      some (race.after mem (s.written + writesBefore turns (r - s.buffer.length)) (race.read r)) := by
  induction turns generalizing s with
  | nil =>
      simp only [Machine.run, Option.some.injEq] at run
      rw [run] at before
      omega
  | cons turn rest ih =>
      obtain ⟨t, step, run⟩ := race.machine.run_cons.mp run
      cases turn with
      | write =>
          simp only [Race.machine, Race.step, Option.some.injEq] at step
          subst step
          have := ih (by simp only [at_, after]) run before
          rw [this]
          simp only [writesBefore]
          congr 2
          omega
      | read =>
          simp only [Race.machine, Race.step, Option.some.injEq] at step
          subst step
          by_cases now : r = s.buffer.length
          · subst now
            -- later steps only append to the buffer
            have keeps := prefix_of_run run
            obtain ⟨more, eq⟩ := keeps
            rw [Nat.sub_self, writesBefore, ← eq, at_]
            simp
          · have := ih (by simpa using at_) run (by simp; omega)
            rw [this]
            have shift : r - s.buffer.length = (r - (s.buffer.length + 1)) + 1 := by omega
            simp only [List.length_append, List.length_singleton]
            rw [shift, writesBefore]
where
  prefix_of_run {turns : List Turn} {s s' : State Cell Val}
      (run : race.machine.run s turns = some s') : s.buffer <+: s'.buffer := by
    refine Machine.run_always (I := fun t => s.buffer <+: t.buffer) ?_ List.prefix_rfl run
    intro t turn t' ok step
    cases turn with
    | write =>
        simp only [Race.machine, Race.step, Option.some.injEq] at step
        exact step ▸ ok
    | read =>
        simp only [Race.machine, Race.step, Option.some.injEq] at step
        exact step ▸ ok.trans (List.prefix_append _ _)

theorem buffer_eq {mem : Cell → Val} {turns : List Turn} {s : State Cell Val}
    (run : race.machine.run (start mem) turns = some s) {r : Nat} (done : r < s.buffer.length) :
    s.buffer[r]? = some (race.after mem (writesBefore turns r) (race.read r)) := by
  have := buffer_of_run (s := start mem) rfl run r (Nat.zero_le r) done
  simpa [start] using this

end Race

theorem run_total (race : Race Cell Val) (s : State Cell Val) (turns : List Turn) :
    ∃ s', race.machine.run s turns = some s' ∧
      s'.buffer.length = s.buffer.length + turns.count .read := by
  induction turns generalizing s with
  | nil => exact ⟨s, rfl, by simp⟩
  | cons turn rest ih =>
      cases turn with
      | write =>
          obtain ⟨s', run, length⟩ := ih
            ⟨Function.update s.mem (race.write s.written).1 (race.write s.written).2, s.written + 1,
              s.buffer⟩
          exact ⟨s', by simpa [Machine.run, Race.machine, Race.step] using run, by simpa using length⟩
      | read =>
          obtain ⟨s', run, length⟩ := ih
            ⟨s.mem, s.written, s.buffer ++ [s.mem (race.read s.buffer.length)]⟩
          refine ⟨s', by simpa [Machine.run, Race.machine, Race.step] using run, ?_⟩
          rw [length, List.count_cons_self, List.length_append, List.length_singleton]
          omega

/-! ## Writers that go round the fields of a record -/

def rounds (fields field steps : Nat) : Nat :=
  steps / fields + if field < steps % fields then 1 else 0

theorem rounds_zero (fields field : Nat) : rounds fields field 0 = 0 := by simp [rounds]

theorem rounds_succ {fields field : Nat} (inside : field < fields) (steps : Nat) :
    rounds fields field (steps + 1) =
      rounds fields field steps + if steps % fields = field then 1 else 0 := by
  have pos : 0 < fields := by omega
  have bound := Nat.mod_lt steps pos
  simp only [rounds]
  by_cases last : steps % fields + 1 = fields
  · have wraps : (steps + 1) % fields = 0 := by
      have whole := Nat.div_add_mod steps fields
      have next : steps + 1 = fields * (steps / fields + 1) := by
        rw [Nat.mul_add]
        omega
      rw [next, Nat.mul_mod_right]
    have up : (steps + 1) / fields = steps / fields + 1 := by
      rw [Nat.succ_div, if_pos (Nat.dvd_of_mod_eq_zero wraps)]
    rw [wraps, up]
    split <;> split <;> split <;> omega
  · have stays : (steps + 1) % fields = steps % fields + 1 := by
      rw [Nat.add_mod, Nat.mod_eq_of_lt (by omega : 1 < fields), Nat.mod_eq_of_lt (by omega)]
    have same : (steps + 1) / fields = steps / fields := by
      rw [Nat.succ_div, if_neg]
      · rfl
      · intro dvd
        have := Nat.mod_eq_zero_of_dvd dvd
        omega
    rw [stays, same]
    split <;> split <;> split <;> omega

theorem rounds_le_succ (fields : Nat) {field field' steps steps' : Nat} (le : steps ≤ steps') :
    rounds fields field steps ≤ rounds fields field' steps' + 1 := by
  have := Nat.div_le_div_right (c := fields) le
  simp only [rounds]
  split <;> split <;> omega

variable {Slot : Type} [DecidableEq Slot]

/-- Writers that each write the fields of one slot; `record n` is what the slots hold after `n` of
them. -/
def roundRobin (fields : Nat) (slot : Nat → Slot) (record : Nat → Slot → Nat → Val)
    (read : Nat → Slot × Nat) : Race (Slot × Nat) Val where
  write n := ((slot (n / fields), n % fields), record (n / fields + 1) (slot (n / fields)) (n % fields))
  read := read

theorem after_roundRobin {fields : Nat} {slot : Nat → Slot} {record : Nat → Slot → Nat → Val}
    {read : Nat → Slot × Nat} (others : ∀ n j, j ≠ slot n → record (n + 1) j = record n j)
    (steps : Nat) (j : Slot) {field : Nat} (inside : field < fields) :
    (roundRobin fields slot record read).after (fun c => record 0 c.1 c.2) steps (j, field) =
      record (rounds fields field steps) j field := by
  induction steps with
  | zero => rw [rounds_zero]; rfl
  | succ steps ih =>
      rw [Race.after, rounds_succ inside]
      simp only [roundRobin, Function.update_apply, Prod.mk.injEq]
      have done : steps % fields = field → rounds fields field steps = steps / fields := by
        intro at_
        simp [rounds, at_]
      by_cases here : steps % fields = field
      · rw [if_pos here]
        by_cases mine : j = slot (steps / fields)
        · rw [if_pos ⟨mine, here.symm⟩, done here, mine, here]
        · rw [if_neg fun h => mine h.1]
          have := ih
          simp only [roundRobin] at this
          rw [this, done here, others _ j mine]
      · rw [if_neg fun h => here h.2.symm, if_neg here, Nat.add_zero]
        exact ih

end Concurrency.FieldRace
