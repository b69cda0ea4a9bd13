import Mathlib.Data.List.Infix
import Mathlib.Algebra.Group.Nat.Defs
import Mathlib.Logic.Function.Basic
import Sherman.Concurrency.Transition

/-!
# The reader-writer lock

`include/WRLock.h`. The lock word is 1 for a writer and 2 for each reader; nothing checks that the readers fit
its 16 bits.
-/

namespace Sherman.WRLock

open Concurrency

abbrev ThreadID := Nat

def UNLOCKED : BitVec 16 := 0
def LOCKED : BitVec 16 := 1

inductive Pc where
  | idle (result : Option Bool)
  | wLoad (once : Bool)
  | wCas (once : Bool)
  | wStore
  | rLoad (once : Bool)
  | rCas (once : Bool) (v : BitVec 16)
  | rUnlockLoad
  | rUnlockCas (v : BitVec 16)
  deriving DecidableEq

inductive Call where
  | wLock
  | try_wLock
  | wUnlock
  | rLock
  | try_rLock
  | rUnlock
  deriving DecidableEq

def Call.first : Call → Pc
  | .wLock => .wLoad false
  | .try_wLock => .wLoad true
  | .wUnlock => .wStore
  | .rLock => .rLoad false
  | .try_rLock => .rLoad true
  | .rUnlock => .rUnlockLoad

/-- The word, the threads, and who holds the lock: a reader once for each `rLock`. -/
structure State where
  l : BitVec 16
  pc : ThreadID → Pc
  writers : List ThreadID
  readers : List ThreadID

namespace State

def init : State := ⟨UNLOCKED, fun _ => .idle none, [], []⟩

def goto (s : State) (t : ThreadID) (pc : Pc) : State := { s with pc := Function.update s.pc t pc }

/-- An unlock matches a lock that the thread holds. -/
def MayCall (s : State) (t : ThreadID) : Call → Prop
  | .wUnlock => t ∈ s.writers
  | .rUnlock => t ∈ s.readers
  | _ => True

instance (s : State) (t : ThreadID) (c : Call) : Decidable (s.MayCall t c) := by
  cases c <;> unfold MayCall <;> infer_instance

def advance (s : State) (t : ThreadID) : Pc → Option State
  | .idle _ => none
  | .wLoad once =>
      if s.l = UNLOCKED then some (s.goto t (.wCas once))
      else if once then some (s.goto t (.idle (some false)))
      else some s
  | .wCas once =>
      if s.l = UNLOCKED then
        some { s.goto t (.idle (if once then some true else none)) with l := LOCKED, writers := t :: s.writers }
      else if once then some (s.goto t (.idle (some false)))
      else some (s.goto t (.wLoad once))
  | .wStore => some { s.goto t (.idle none) with l := UNLOCKED, writers := s.writers.erase t }
  | .rLoad once =>
      if s.l = LOCKED then
        if once then some (s.goto t (.idle (some false))) else some s
      else some (s.goto t (.rCas once s.l))
  | .rCas once v =>
      if s.l = v then
        some { s.goto t (.idle (if once then some true else none)) with l := v + 2, readers := t :: s.readers }
      else some (s.goto t (.rLoad once))
  | .rUnlockLoad => some (s.goto t (.rUnlockCas s.l))
  | .rUnlockCas v =>
      if s.l = v then some { s.goto t (.idle none) with l := v - 2, readers := s.readers.erase t }
      else some (s.goto t .rUnlockLoad)

end State

inductive Action where
  | call (t : ThreadID) (c : Call)
  | step (t : ThreadID)

def machine : Machine State Action where
  step s
    | .call t c => match s.pc t with
        | .idle _ => if s.MayCall t c then some (s.goto t c.first) else none
        | _ => none
    | .step t => s.advance t (s.pc t)

structure Safe (s : State) : Prop where
  exclusive : ∀ t ∈ s.writers, s.writers = [t] ∧ s.readers = []
  word : s.l.toNat = if s.writers = [] then 2 * s.readers.length else 1

/-! ## The invariant -/

def Knows (s : State) (t : ThreadID) : Pc → Prop
  | .wStore => t ∈ s.writers
  | .rCas _ v => v ≠ LOCKED
  | .rUnlockLoad | .rUnlockCas _ => t ∈ s.readers
  | _ => True

structure Inv (s : State) : Prop where
  safe : Safe s
  knows : ∀ t, Knows s t (s.pc t)

variable {s s' : State} {t u : ThreadID}

theorem toNat_UNLOCKED : UNLOCKED.toNat = 0 := rfl
theorem toNat_LOCKED : LOCKED.toNat = 1 := rfl
theorem toNat_two : (2 : BitVec 16).toNat = 2 := rfl

theorem Safe.unlocked (h : Safe s) (word : s.l = UNLOCKED) : s.writers = [] ∧ s.readers = [] := by
  have total := h.word
  rw [word, toNat_UNLOCKED] at total
  split at total
  · rename_i none
    exact ⟨none, List.length_eq_zero_iff.mp (by omega)⟩
  · cases total

theorem Safe.not_locked (h : Safe s) (word : s.l ≠ LOCKED) : s.writers = [] ∧ s.l.toNat = 2 * s.readers.length := by
  have total := h.word
  split at total
  · rename_i none
    exact ⟨none, total⟩
  · exact absurd (BitVec.eq_of_toNat_eq total) word

theorem Safe.reading (h : Safe s) (holds : t ∈ s.readers) :
    s.writers = [] ∧ s.l.toNat = 2 * s.readers.length ∧ 0 < s.readers.length := by
  have some_ : 0 < s.readers.length := List.length_pos_of_mem holds
  cases writers : s.writers with
  | nil => exact ⟨rfl, by rw [h.word, if_pos writers], some_⟩
  | cons w rest =>
      have none := (h.exclusive w (by simp [writers])).2
      rw [none] at holds
      cases holds

theorem safe_of_readers (none : s.writers = []) (word : s.l.toNat = 2 * s.readers.length) : Safe s := by
  refine ⟨fun u mem => ?_, word.trans (if_pos none).symm⟩
  rw [none] at mem
  cases mem

theorem Inv.goto (h : Inv s) {pc : Pc} {l : BitVec 16} {writers readers : List ThreadID}
    (safe : Safe ⟨l, Function.update s.pc t pc, writers, readers⟩)
    (own : Knows ⟨l, Function.update s.pc t pc, writers, readers⟩ t pc)
    (write : ∀ u, u ≠ t → u ∈ s.writers → u ∈ writers) (read : ∀ u, u ≠ t → u ∈ s.readers → u ∈ readers) :
    Inv ⟨l, Function.update s.pc t pc, writers, readers⟩ := by
  refine ⟨safe, fun u => ?_⟩
  by_cases same : u = t
  · subst same
    simpa using own
  · have old := h.knows u
    simp only [Function.update_of_ne same]
    cases place : s.pc u with
    | wStore =>
        rw [place] at old
        exact write u same old
    | rUnlockLoad =>
        rw [place] at old
        exact read u same old
    | rUnlockCas v =>
        rw [place] at old
        exact read u same old
    | rCas once v =>
        rw [place] at old
        exact old
    | _ => trivial

theorem Inv.stay (h : Inv s) {pc : Pc} (own : Knows s t pc) : Inv (s.goto t pc) := by
  refine h.goto ⟨h.safe.exclusive, h.safe.word⟩ ?_ (fun _ _ => id) fun _ _ => id
  cases pc <;> exact own

/-! ## The steps -/

theorem Inv.wCas (h : Inv s) (free : s.l = UNLOCKED) {pc : Pc} (own : ∀ s, Knows s t pc) :
    Inv { s.goto t pc with l := LOCKED, writers := t :: s.writers } := by
  obtain ⟨noWriter, noReader⟩ := h.safe.unlocked free
  refine h.goto ⟨fun u mem => ?_, ?_⟩ (own _) (fun u _ mem => List.mem_cons_of_mem t mem) fun _ _ => id
  · rw [noWriter, List.mem_singleton] at mem
    exact ⟨by rw [noWriter, mem], noReader⟩
  · rfl

theorem Inv.wStore (h : Inv s) (holds : t ∈ s.writers) {pc : Pc} (own : ∀ s, Knows s t pc) :
    Inv { s.goto t pc with l := UNLOCKED, writers := s.writers.erase t } := by
  obtain ⟨only, noReader⟩ := h.safe.exclusive t holds
  have left : s.writers.erase t = [] := by simp [only]
  have word : 0 = 2 * s.readers.length := by rw [noReader, List.length_nil]
  exact h.goto (safe_of_readers left word) (own _) (fun u other mem => (List.mem_erase_of_ne other).mpr mem)
    fun _ _ => id

theorem Inv.rCas (h : Inv s) {v : BitVec 16} (same : s.l = v) (free : v ≠ LOCKED)
    (room : s.readers.length + 1 < 2 ^ 15) {pc : Pc} (own : ∀ s, Knows s t pc) :
    Inv { s.goto t pc with l := v + 2, readers := t :: s.readers } := by
  subst same
  obtain ⟨noWriter, word⟩ := h.safe.not_locked free
  have added : (s.l + 2).toNat = 2 * (t :: s.readers).length := by
    rw [BitVec.toNat_add, word, toNat_two, List.length_cons, Nat.mod_eq_of_lt (by omega)]
    omega
  exact h.goto (safe_of_readers noWriter added) (own _) (fun _ _ => id) fun u _ mem => List.mem_cons_of_mem t mem

theorem Inv.rUnlockCas (h : Inv s) {v : BitVec 16} (same : s.l = v) (holds : t ∈ s.readers)
    {pc : Pc} (own : ∀ s, Knows s t pc) :
    Inv { s.goto t pc with l := v - 2, readers := s.readers.erase t } := by
  subst same
  obtain ⟨noWriter, word, some_⟩ := h.safe.reading holds
  have left := List.length_erase_of_mem holds
  have enough : (2 : BitVec 16) ≤ s.l := by
    rw [BitVec.le_def, word, toNat_two]
    omega
  have removed : (s.l - 2).toNat = 2 * (s.readers.erase t).length := by
    rw [BitVec.toNat_sub_of_le enough, word, left, toNat_two]
    omega
  exact h.goto (safe_of_readers noWriter removed) (own _) (fun _ _ => id)
    fun u other mem => (List.mem_erase_of_ne other).mpr mem

theorem Inv.advance (h : Inv s) (room : s'.readers.length < 2 ^ 15) (step : s.advance t (s.pc t) = some s') : Inv s' := by
  have knows := h.knows t
  cases place : s.pc t with
  | idle result => simp [place, State.advance] at step
  | wLoad once =>
      simp only [place, State.advance] at step
      split_ifs at step <;> cases step
      · exact h.stay trivial
      · exact h.stay trivial
      · exact h
  | wCas once =>
      simp only [place, State.advance] at step
      split_ifs at step <;> cases step
      all_goals first
        | exact h.wCas ‹_› fun _ => trivial
        | exact h.stay trivial
  | wStore =>
      simp only [place, State.advance, Option.some.injEq] at step
      rw [place] at knows
      exact step ▸ h.wStore knows fun _ => trivial
  | rLoad once =>
      simp only [place, State.advance] at step
      split_ifs at step with locked <;> cases step
      · exact h.stay trivial
      · exact h
      · exact h.stay locked
  | rCas once v =>
      rw [place] at knows
      simp only [place, State.advance] at step
      split_ifs at step with same <;> cases step
      · exact h.rCas same knows room fun _ => trivial
      · exact h.rCas same knows room fun _ => trivial
      · exact h.stay trivial
  | rUnlockLoad =>
      simp only [place, State.advance, Option.some.injEq] at step
      rw [place] at knows
      exact step ▸ h.stay knows
  | rUnlockCas v =>
      rw [place] at knows
      simp only [place, State.advance] at step
      split_ifs at step with same <;> cases step
      · exact h.rUnlockCas same knows fun _ => trivial
      · exact h.stay knows

theorem Inv.step (h : Inv s) {a : Action} (room : s'.readers.length < 2 ^ 15) (step : machine.step s a = some s') :
    Inv s' := by
  cases a with
  | step t => exact h.advance room step
  | call t c =>
      simp only [machine] at step
      split at step
      · split_ifs at step with may
        cases step
        refine h.stay ?_
        cases c with
        | wUnlock => exact may
        | rUnlock => exact may
        | _ => trivial
      · cases step

theorem init_inv : Inv .init :=
  ⟨safe_of_readers rfl rfl, fun _ => trivial⟩

theorem Safe.few (h : Safe s) : s.readers.length < 2 ^ 15 := by
  have total := h.word
  cases writers : s.writers with
  | nil =>
      rw [if_pos writers] at total
      have := s.l.isLt
      omega
  | cons w rest =>
      rw [(h.exclusive w (by simp [writers])).2]
      decide

/-- In every run: the lock is safe in all states on the way exactly when it never has more than 32767 readers. -/
theorem wrlock_safe_iff (as : List Action) (s : State) (run : machine.run .init as = some s) :
    (∀ front t, front <+: as → machine.run .init front = some t → Safe t) ↔
      ∀ front t, front <+: as → machine.run .init front = some t → t.readers.length < 2 ^ 15 := by
  constructor
  · intro safe front t early reached
    exact (safe front t early reached).few
  · intro few front t early reached
    obtain ⟨rest, rfl⟩ := early
    have bounded : machine.Throughout (fun s a => ∀ s', machine.step s a = some s' → s'.readers.length < 2 ^ 15)
        .init front :=
      (Machine.throughout_of_prefixes few).left.mono fun _ _ h => h.2
    exact (Machine.run_invariant (fun s a s' h may step => Inv.step h (may s' step) step) init_inv bounded reached).safe

/-! ## Too many readers -/

def read (t : ThreadID) : List Action := [.call t .rLock, .step t, .step t]

theorem read_run {result : Option Bool} (idle : s.pc t = .idle result) (free : s.l ≠ LOCKED) :
    machine.run s (read t) = some ⟨s.l + 2, Function.update s.pc t (.idle none), s.writers, t :: s.readers⟩ := by
  simp [read, Machine.run, machine, idle, State.MayCall, Call.first, State.goto, State.advance, free]

def readers (n : Nat) : List Action := (List.range n).flatMap read

theorem readers_run (n : Nat) : ∃ s, machine.run .init (readers n) = some s ∧ s.l.toNat = 2 * n % 2 ^ 16 ∧
    s.writers = [] ∧ s.readers.length = n ∧ ∀ t ≥ n, s.pc t = .idle none := by
  induction n with
  | zero => exact ⟨.init, rfl, rfl, rfl, rfl, fun _ _ => rfl⟩
  | succ n ih =>
      obtain ⟨s, run, word, writers, count, idle⟩ := ih
      have free : s.l ≠ LOCKED := by
        intro locked
        rw [locked, toNat_LOCKED] at word
        omega
      refine ⟨⟨s.l + 2, Function.update s.pc n (.idle none), s.writers, n :: s.readers⟩, ?_, ?_, writers,
        congrArg Nat.succ count, fun t ht => ?_⟩
      · rw [readers, List.range_succ, List.flatMap_append, List.flatMap_singleton]
        exact (machine.run_append).mpr ⟨s, run, read_run (idle n le_rfl) free⟩
      · simp only [BitVec.toNat_add, word, toNat_two]
        omega
      · have other : t ≠ n := by omega
        exact (Function.update_of_ne other ..).trans (idle t (by omega))

theorem wLock_run {n : Nat} (waits : s.pc n = .idle none) (free : s.l = UNLOCKED) (writers : s.writers = []) :
    machine.run s [.call n .wLock, .step n, .step n] =
      some ⟨LOCKED, Function.update s.pc n (.idle none), [n], s.readers⟩ := by
  simp [Machine.run, machine, waits, State.MayCall, Call.first, State.goto, State.advance, free, writers]

/-- With 32768 readers the word is 0, and a writer gets the lock. -/
def overflow : List Action := readers (2 ^ 15) ++ [.call (2 ^ 15) .wLock, .step (2 ^ 15), .step (2 ^ 15)]

theorem wrlock_overflows : ∃ s, machine.run .init overflow = some s ∧ s.writers = [2 ^ 15] ∧
    s.readers.length = 2 ^ 15 ∧ ¬ Safe s := by
  obtain ⟨s, run, word, writers, count, idle⟩ := readers_run (2 ^ 15)
  have zero : s.l = UNLOCKED := BitVec.eq_of_toNat_eq word
  have last := wLock_run (idle (2 ^ 15) le_rfl) zero writers
  refine ⟨_, (machine.run_append).mpr ⟨s, run, last⟩, rfl, count, fun safe => ?_⟩
  exact absurd safe.few (by simp only [count]; decide)

theorem wrlock_safe_iff_two :
    ∃ s, machine.run .init (read 0 ++ [.call 1 .try_rLock, .step 1, .step 1]) = some s ∧ Safe s := by
  have few : ∀ front ∈ List.inits (read 0 ++ [.call 1 .try_rLock, .step 1, .step 1]),
      ∀ t, machine.run .init front = some t → t.readers.length < 2 ^ 15 := by
    have all : (List.inits (read 0 ++ [.call 1 .try_rLock, .step 1, .step 1])).all fun front =>
        (machine.run .init front).all fun t => t.readers.length < 2 ^ 15 := by decide
    intro front mem t reached
    have := List.all_eq_true.mp all front mem
    rw [reached] at this
    simpa using this
  refine ⟨_, rfl, (wrlock_safe_iff (read 0 ++ [.call 1 .try_rLock, .step 1, .step 1]) _ rfl).mpr ?_ _ _
    (List.prefix_refl _) rfl⟩
  exact fun front t early => few front ((List.mem_inits _ _).mpr early) t

end Sherman.WRLock
