import Mathlib.Algebra.BigOperators.Group.Finset.Basic
import Mathlib.Algebra.Group.Nat.Defs
import Mathlib.Logic.Function.Basic
import Std.Data.String.ToNat
import Sherman.Concurrency.Transition

/-!
# The cluster sum

`DSM::sum`: every node stores its value under a key of its own, made of the number of the call and its node
id, and adds up the values of all nodes, waiting for each.
-/

namespace Sherman.Sum

open Concurrency

def key (count i : Nat) : String := "sum-" ++ ("sum-" ++ Nat.repr count) ++ Nat.repr i

inductive Phase where
  | outside
  | memSet
  | memGet (i ret : Nat)
  deriving DecidableEq

/-- A node, with the number of calls it has entered and the sums it has returned. The static `count` is that
number modulo `2 ^ 64`. -/
structure Node where
  calls : Nat
  phase : Phase
  returned : List Nat
  deriving DecidableEq

structure State where
  store : String → Option Nat
  nodes : Nat → Node

def State.init : State := ⟨fun _ => none, fun _ => ⟨0, .outside, []⟩⟩

def State.setNode (s : State) (i : Nat) (n : Node) : State := { s with nodes := Function.update s.nodes i n }

inductive Action where
  | enter (i : Nat)
  | memSet (i : Nat)
  | memGet (i : Nat)
  | leave (i : Nat)
  deriving DecidableEq

/-- `value i j` is what node `i` passes to its call `j`. The numbers are `uint64_t`. -/
def machine (serverNR : Nat) (value : Nat → Nat → Nat) : Machine State Action where
  step s
    | .enter i =>
        if i < serverNR ∧ (s.nodes i).phase = .outside then
          some (s.setNode i { s.nodes i with calls := (s.nodes i).calls + 1, phase := .memSet })
        else none
    | .memSet i =>
        if i < serverNR ∧ (s.nodes i).phase = .memSet then
          let count := (s.nodes i).calls - 1
          some { s.setNode i { s.nodes i with phase := .memGet 0 0 } with
            store := Function.update s.store (key (count % 2 ^ 64) i) (some (value i count % 2 ^ 64)) }
        else none
    | .memGet i => match (s.nodes i).phase with
        | .memGet k ret =>
            if i < serverNR ∧ k < serverNR then
              match s.store (key (((s.nodes i).calls - 1) % 2 ^ 64) k) with
              | none => some s
              | some v => some (s.setNode i { s.nodes i with phase := .memGet (k + 1) ((ret + v) % 2 ^ 64) })
            else none
        | _ => none
    | .leave i => match (s.nodes i).phase with
        | .memGet k ret =>
            if i < serverNR ∧ k = serverNR then
              some (s.setNode i { s.nodes i with phase := .outside, returned := (s.nodes i).returned ++ [ret] })
            else none
        | _ => none

/-- All nodes get the sum of what was passed to the same calls, no node returns before all have called, and
no node waits for one that has stored its value. -/
structure Sound (serverNR : Nat) (value : Nat → Nat → Nat) (s : State) : Prop where
  right : ∀ i < serverNR, ∀ j r, (s.nodes i).returned[j]? = some r →
    r = (∑ k ∈ Finset.range serverNR, value k j) % 2 ^ 64
  together : ∀ i < serverNR, ∀ k < serverNR, (s.nodes i).returned.length ≤ (s.nodes k).calls
  live : ∀ j, (∀ i < serverNR, (s.nodes i).calls = j + 1 ∧ (s.nodes i).phase ≠ .memSet) →
    ∀ k < serverNR, s.store (key j k) ≠ none

/-! ## Keys -/

theorem repr_digit {k : Nat} (digit : k < 10) : (Nat.repr k).toList = [Nat.digitChar k] := by
  rw [Nat.toList_repr, Nat.toDigits_of_lt_base digit]

theorem key_injective {j k j' k' : Nat} (digit : k < 10) (digit' : k' < 10) (same : key j k = key j' k') :
    j = j' ∧ k = k' := by
  have lists : (Nat.repr j).toList ++ [Nat.digitChar k] = (Nat.repr j').toList ++ [Nat.digitChar k'] := by
    have := congrArg String.toList same
    simpa [key, repr_digit digit, repr_digit digit', -Nat.toList_repr] using this
  obtain ⟨front, last⟩ := List.append_inj' lists rfl
  refine ⟨Nat.repr_injective (String.toList_inj.mp front), Nat.repr_injective (String.toList_inj.mp ?_)⟩
  rw [repr_digit digit, repr_digit digit', last]

/-- With eleven nodes a value of the second call is found in the twelfth. -/
example : key 1 10 = key 11 0 := by decide

/-! ## The invariant -/

variable {serverNR : Nat} {value : Nat → Nat → Nat} {s t : State} {i j k : Nat} {n : Node}

def Node.Stored (n : Node) (j : Nat) : Prop := j + 1 < n.calls ∨ (j + 1 = n.calls ∧ n.phase ≠ .memSet)

def total (value : Nat → Nat → Nat) (k j : Nat) : Nat := (∑ i ∈ Finset.range k, value i j) % 2 ^ 64

structure Local (serverNR : Nat) (value : Nat → Nat → Nat) (s : State) (n : Node) : Prop where
  right : ∀ j r, n.returned[j]? = some r → r = total value serverNR j
  seen : ∀ j < n.returned.length, ∀ k < serverNR, (s.nodes k).Stored j
  place : match n.phase with
    | .outside => n.calls = n.returned.length
    | .memSet => n.calls = n.returned.length + 1
    | .memGet k ret => n.calls = n.returned.length + 1 ∧ k ≤ serverNR ∧ ret = total value k n.returned.length ∧
        ∀ k' < k, (s.nodes k').Stored n.returned.length

structure Inv (serverNR : Nat) (value : Nat → Nat → Nat) (s : State) : Prop where
  written : ∀ name v, s.store name = some v →
    ∃ j k, k < serverNR ∧ name = key j k ∧ v = value k j % 2 ^ 64 ∧ (s.nodes k).Stored j
  stored : ∀ k < serverNR, ∀ j, (s.nodes k).Stored j → s.store (key j k) = some (value k j % 2 ^ 64)
  view : ∀ i < serverNR, Local serverNR value s (s.nodes i)

@[simp] theorem setNode_nodes_self (s : State) (i : Nat) (n : Node) : (s.setNode i n).nodes i = n :=
  Function.update_self ..

@[simp] theorem setNode_nodes_ne (s : State) (n : Node) (ne : k ≠ i) : (s.setNode i n).nodes k = s.nodes k :=
  Function.update_of_ne ne ..

theorem total_succ (value : Nat → Nat → Nat) (k j : Nat) :
    total value (k + 1) j = (total value k j + value k j % 2 ^ 64) % 2 ^ 64 := by
  rw [total, total, Finset.sum_range_succ, Nat.add_mod]

theorem Local.mono (h : Local serverNR value s n) (stored : ∀ k j, (s.nodes k).Stored j → (t.nodes k).Stored j) :
    Local serverNR value t n := by
  refine ⟨h.right, fun j less k hk => stored k j (h.seen j less k hk), ?_⟩
  have place := h.place
  cases phase : n.phase with
  | outside => simpa only [phase] using place
  | memSet => simpa only [phase] using place
  | memGet k ret =>
      simp only [phase] at place ⊢
      exact ⟨place.1, place.2.1, place.2.2.1, fun k' less => stored k' _ (place.2.2.2 k' less)⟩

theorem stored_setNode (keeps : ∀ j, (s.nodes i).Stored j → n.Stored j) (k j : Nat) (h : (s.nodes k).Stored j) :
    ((s.setNode i n).nodes k).Stored j := by
  by_cases same : k = i
  · subst same
    rw [setNode_nodes_self]
    exact keeps j h
  · rwa [setNode_nodes_ne _ _ same]

theorem Inv.move (h : Inv serverNR value s) (same : ∀ j, n.Stored j ↔ (s.nodes i).Stored j)
    (own : i < serverNR → Local serverNR value s n) : Inv serverNR value (s.setNode i n) := by
  have keeps := stored_setNode fun j => (same j).mpr
  have back : ∀ k j, ((s.setNode i n).nodes k).Stored j → (s.nodes k).Stored j := by
    intro k j stored
    by_cases here : k = i
    · subst here
      rw [setNode_nodes_self] at stored
      exact (same j).mp stored
    · rwa [setNode_nodes_ne _ _ here] at stored
  refine ⟨fun name v found => ?_, fun k hk j stored => h.stored k hk j (back k j stored), fun k hk => ?_⟩
  · obtain ⟨j, k, hk, name, v, stored⟩ := h.written name v found
    exact ⟨j, k, hk, name, v, keeps k j stored⟩
  · by_cases here : k = i
    · subst here
      rw [setNode_nodes_self]
      exact (own hk).mono keeps
    · rw [setNode_nodes_ne _ _ here]
      exact (h.view k hk).mono keeps

theorem init_inv (serverNR : Nat) (value : Nat → Nat → Nat) : Inv serverNR value .init where
  written _ _ h := nomatch h
  stored k _ j h := by simp [State.init, Node.Stored] at h
  view i _ := ⟨by simp [State.init], by simp [State.init], rfl⟩

theorem Inv.memSet (h : Inv serverNR value s) (few : serverNR ≤ 10) (hi : i < serverNR)
    (phase : (s.nodes i).phase = .memSet) (early : (s.nodes i).calls ≤ 2 ^ 64) :
    Inv serverNR value { s.setNode i { s.nodes i with phase := .memGet 0 0 } with
      store := Function.update s.store (key (((s.nodes i).calls - 1) % 2 ^ 64) i)
        (some (value i ((s.nodes i).calls - 1) % 2 ^ 64)) } := by
  rw [Nat.mod_eq_of_lt (by omega : (s.nodes i).calls - 1 < 2 ^ 64)]
  have own := h.view i hi
  have place := own.place
  simp only [phase] at place
  have stored : ∀ j, (⟨(s.nodes i).calls, .memGet 0 0, (s.nodes i).returned⟩ : Node).Stored j ↔
      (s.nodes i).Stored j ∨ j + 1 = (s.nodes i).calls := by
    intro j
    simp [Node.Stored, phase]
  have keeps := stored_setNode fun j => fun old => (stored j).mpr (.inl old)
  refine ⟨fun name v found => ?_, fun k hk j isStored => ?_, fun k hk => ?_⟩
  · by_cases here : name = key ((s.nodes i).calls - 1) i
    · subst here
      simp only [Function.update_self, Option.some.injEq] at found
      refine ⟨_, i, hi, rfl, found.symm, ?_⟩
      rw [setNode_nodes_self, stored]
      omega
    · simp only [Function.update_of_ne here] at found
      obtain ⟨j, k, hk, name, v, old⟩ := h.written name v found
      exact ⟨j, k, hk, name, v, keeps k j old⟩
  · by_cases here : key j k = key ((s.nodes i).calls - 1) i
    · obtain ⟨rfl, rfl⟩ := key_injective (by omega) (by omega) here
      simp
    · simp only [Function.update_of_ne here]
      by_cases mine : k = i
      · subst mine
        simp only [setNode_nodes_self, stored] at isStored
        rcases isStored with old | now
        · exact h.stored k hk j old
        · exact absurd (by rw [← now]; rfl) here
      · simp only [setNode_nodes_ne _ _ mine] at isStored
        exact h.stored k hk j isStored
  · by_cases here : k = i
    · subst here
      simp only [setNode_nodes_self]
      refine Local.mono (s := s) ⟨own.right, own.seen, ?_⟩ keeps
      exact ⟨place, Nat.zero_le _, rfl, fun _ less => absurd less (Nat.not_lt_zero _)⟩
    · simp only [setNode_nodes_ne _ _ here]
      exact (h.view k hk).mono keeps

theorem step_inv (few : serverNR ≤ 10) {a : Action} (early : ∀ i < serverNR, (s.nodes i).calls ≤ 2 ^ 64)
    (h : Inv serverNR value s) (step : (machine serverNR value).step s a = some t) : Inv serverNR value t := by
  cases a with
  | enter i =>
      simp only [machine] at step
      split at step
      · rename_i may
        cases step
        refine h.move (fun j => ?_) fun hi => ?_
        · simp only [Node.Stored, may.2]
          simp
          omega
        · have own := h.view i hi
          have place := own.place
          simp only [may.2] at place
          exact ⟨own.right, own.seen, congrArg (· + 1) place⟩
      · cases step
  | memSet i =>
      simp only [machine] at step
      split at step
      · rename_i may
        cases step
        exact h.memSet few may.1 may.2 (early i may.1)
      · cases step
  | memGet i =>
      simp only [machine] at step
      split at step
      · rename_i k ret phase
        split at step
        · rename_i may
          have own := h.view i may.1
          have place := own.place
          simp only [phase] at place
          obtain ⟨calls, le, sum, seen⟩ := place
          split at step
          · cases step
            exact h
          · rename_i v found
            cases step
            have small : (s.nodes i).returned.length < 2 ^ 64 := by
              have := early i may.1
              omega
            rw [calls, Nat.add_sub_cancel, Nat.mod_eq_of_lt small] at found
            obtain ⟨j, k', hk', name, rfl, stored⟩ := h.written _ v found
            obtain ⟨rfl, rfl⟩ := key_injective (by omega) (by omega) name
            refine h.move (fun j => ?_) fun _ => ⟨own.right, own.seen, calls, may.2, ?_, fun m less => ?_⟩
            · simp [Node.Stored, phase]
            · rw [sum, total_succ]
            · rcases Nat.lt_succ_iff_lt_or_eq.mp less with before | rfl
              · exact seen m before
              · exact stored
        · cases step
      · cases step
  | leave i =>
      simp only [machine] at step
      split at step
      · rename_i k ret phase
        split at step
        · rename_i may
          cases step
          have own := h.view i may.1
          have place := own.place
          simp only [phase] at place
          obtain ⟨calls, -, sum, seen⟩ := place
          obtain ⟨hi, rfl⟩ := may
          refine h.move (fun j => ?_) fun _ => ⟨fun j r found => ?_, fun j less k hk => ?_, ?_⟩
          · simp [Node.Stored, phase]
          · rw [List.getElem?_append] at found
            split at found
            · exact own.right j r found
            · rename_i last
              have here : j = (s.nodes i).returned.length := by
                by_contra other
                rw [List.getElem?_eq_none (by simp; omega)] at found
                cases found
              subst here
              simp only [Nat.sub_self, List.getElem?_cons_zero, Option.some.injEq] at found
              exact found.symm.trans sum
          · simp only [List.length_append, List.length_singleton] at less
            rcases Nat.lt_succ_iff_lt_or_eq.mp less with before | rfl
            · exact own.seen j before k hk
            · exact seen k hk
          · simpa using calls
        · cases step
      · cases step

theorem calls_le_step {a : Action} (step : (machine serverNR value).step s a = some t) (i : Nat) :
    (s.nodes i).calls ≤ (t.nodes i).calls := by
  have own : ∀ k (n : Node) (store : String → Option Nat), (s.nodes k).calls ≤ n.calls →
      (s.nodes i).calls ≤ (({ s.setNode k n with store := store } : State).nodes i).calls := by
    intro k n store le
    by_cases here : i = k
    · subst here
      simpa using le
    · simp [here]
  cases a with
  | enter k =>
      simp only [machine] at step
      split at step
      · cases step
        exact own k _ s.store (Nat.le_succ _)
      · cases step
  | memSet k =>
      simp only [machine] at step
      split at step
      · cases step
        exact own k _ _ (Nat.le_refl _)
      · cases step
  | memGet k =>
      simp only [machine] at step
      split at step
      · split at step
        · split at step
          · cases step
            exact Nat.le_refl _
          · cases step
            exact own k _ s.store (Nat.le_refl _)
        · cases step
      · cases step
  | leave k =>
      simp only [machine] at step
      split at step
      · split at step
        · cases step
          exact own k _ s.store (Nat.le_refl _)
        · cases step
      · cases step

theorem run_inv (few : serverNR ≤ 10) {as : List Action} (run : (machine serverNR value).run .init as = some s)
    (early : ∀ i < serverNR, (s.nodes i).calls ≤ 2 ^ 64) : Inv serverNR value s := by
  refine Machine.run_always (I := fun s => (∀ i < serverNR, (s.nodes i).calls ≤ 2 ^ 64) → Inv serverNR value s)
    (fun s a t h step early => ?_) (fun _ => init_inv serverNR value) run early
  have before : ∀ i < serverNR, (s.nodes i).calls ≤ 2 ^ 64 := fun i hi => (calls_le_step step i).trans (early i hi)
  exact step_inv few before (h before) step

end Sherman.Sum
