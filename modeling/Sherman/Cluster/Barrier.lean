import Mathlib.Data.Finset.Card
import Mathlib.Data.Finset.Range
import Mathlib.Algebra.Group.Nat.Defs
import Mathlib.Logic.Function.Basic
import Sherman.Concurrency.Transition

/-!
# The cluster barrier

`DSMKeeper::barrier` for one key: node 0 sets the counter to 0, every node increments it (the increment
fails while the key does not exist) and polls until it reads the number of nodes.
-/

namespace Sherman.Barrier

open Concurrency

structure Cluster where
  serverNR : Nat
  server_pos : 0 < serverNR

inductive Phase where
  | outside
  | memSet
  | memFetchAndAdd
  | memGet
  deriving DecidableEq

structure Node where
  calls : Nat
  phase : Phase
  deriving DecidableEq

def Node.returned (n : Node) : Nat := if n.phase = .outside then n.calls else n.calls - 1

def firstPhase (i : Nat) : Phase := if i = 0 then .memSet else .memFetchAndAdd

structure State where
  counter : Option Nat
  nodes : Nat → Node

def State.init : State := ⟨none, fun _ => ⟨0, .outside⟩⟩

def State.setNode (s : State) (i : Nat) (n : Node) : State :=
  { s with nodes := Function.update s.nodes i n }

inductive Action where
  | enter (i : Nat)
  | memSet
  | memFetchAndAdd (i : Nat)
  | memGet (i : Nat)
  deriving DecidableEq

/-- `calls i` is how often node `i` calls the barrier. A failed increment or get is tried again. -/
def machine (cl : Cluster) (calls : Nat → Nat) : Machine State Action where
  step s
    | .enter i =>
        if i < cl.serverNR ∧ (s.nodes i).phase = .outside ∧ (s.nodes i).calls < calls i then
          some (s.setNode i ⟨(s.nodes i).calls + 1, firstPhase i⟩)
        else none
    | .memSet =>
        if (s.nodes 0).phase = .memSet then
          some { s.setNode 0 { s.nodes 0 with phase := .memFetchAndAdd } with counter := some 0 }
        else none
    | .memFetchAndAdd i =>
        if i < cl.serverNR ∧ (s.nodes i).phase = .memFetchAndAdd then
          match s.counter with
          | none => some s
          | some v => some { s.setNode i { s.nodes i with phase := .memGet } with counter := some (v + 1) }
        else none
    | .memGet i =>
        if i < cl.serverNR ∧ (s.nodes i).phase = .memGet then
          if s.counter = some cl.serverNR then some (s.setNode i { s.nodes i with phase := .outside })
          else some s
        else none

def State.AllPolling (cl : Cluster) (s : State) (j : Nat) : Prop := ∀ i < cl.serverNR, s.nodes i = ⟨j, .memGet⟩

/-- No node returns before all have entered, and no state is left in which all nodes poll in vain. -/
structure Sound (cl : Cluster) (s : State) : Prop where
  together : ∀ i < cl.serverNR, ∀ k < cl.serverNR, (s.nodes i).returned ≤ (s.nodes k).calls
  live : ∀ j, s.AllPolling cl j → s.counter = some cl.serverNR

/-! ## Rounds -/

/-- Where a node is after the set that begins round `r`: `counted` says that the counter has its
increment of that round, `full` that it has those of all nodes. -/
inductive Place (r : Nat) (counted full : Prop) (i : Nat) : Node → Prop
  | left (out : ¬ counted) (other : i ≠ 0) : Place r counted full i ⟨r, .outside⟩
  | behind (out : ¬ counted) (other : i ≠ 0) : Place r counted full i ⟨r, .memGet⟩
  | entered (out : ¬ counted) : Place r counted full i ⟨r + 1, .memFetchAndAdd⟩
  /-- The set has undone the increment of the node. -/
  | lost (out : ¬ counted) (other : i ≠ 0) (later : 0 < r) : Place r counted full i ⟨r + 1, .memGet⟩
  | polling (done : counted) : Place r counted full i ⟨r + 1, .memGet⟩
  | returned (done : counted) (all : full) : Place r counted full i ⟨r + 1, .outside⟩
  | again (done : counted) (all : full) : Place r counted full i ⟨r + 2, firstPhase i⟩
  /-- The node has incremented for the next round before the set of that round. -/
  | early (done : counted) (all : full) (other : i ≠ 0) : Place r counted full i ⟨r + 2, .memGet⟩

def State.early (cl : Cluster) (r : Nat) (s : State) : Finset Nat :=
  (Finset.range cl.serverNR).filter fun i => s.nodes i = ⟨r + 2, .memGet⟩

/-- Round `r`, with the nodes whose increments the counter has. -/
structure Round (cl : Cluster) (r : Nat) (counted : Finset Nat) (s : State) : Prop where
  counter : s.counter = some (counted.card + (s.early cl r).card)
  subset : counted ⊆ Finset.range cl.serverNR
  place : ∀ i < cl.serverNR, Place r (i ∈ counted) (counted = Finset.range cl.serverNR) i (s.nodes i)

structure Fresh (cl : Cluster) (s : State) : Prop where
  counter : s.counter = none
  place : ∀ i < cl.serverNR, s.nodes i = ⟨0, .outside⟩ ∨ s.nodes i = ⟨1, firstPhase i⟩

variable {cl : Cluster} {calls : Nat → Nat} {s t : State} {r i : Nat} {counted : Finset Nat}

@[simp] theorem setNode_nodes_self (s : State) (i : Nat) (n : Node) : (s.setNode i n).nodes i = n :=
  Function.update_self ..

@[simp] theorem setNode_nodes_ne (s : State) {i k : Nat} (n : Node) (ne : k ≠ i) :
    (s.setNode i n).nodes k = s.nodes k :=
  Function.update_of_ne ne ..

theorem firstPhase_ne_memGet (i : Nat) : firstPhase i ≠ .memGet := by
  unfold firstPhase
  split <;> simp

theorem firstPhase_ne_outside (i : Nat) : firstPhase i ≠ .outside := by
  unfold firstPhase
  split <;> simp

theorem Place.mono {p q full full' : Prop} {n : Node} (h : Place r p full i n) (same : p ↔ q)
    (imp : full → full') : Place r q full' i n := by
  cases h with
  | left out other => exact .left (mt same.mpr out) other
  | behind out other => exact .behind (mt same.mpr out) other
  | entered out => exact .entered (mt same.mpr out)
  | lost out other later => exact .lost (mt same.mpr out) other later
  | polling done => exact .polling (same.mp done)
  | returned done all => exact .returned (same.mp done) (imp all)
  | again done all => exact .again (same.mp done) (imp all)
  | early done all other => exact .early (same.mp done) (imp all) other

theorem Place.full_of_early {p full : Prop} (h : Place r p full i ⟨r + 2, .memGet⟩) : full := by
  generalize node : (⟨r + 2, .memGet⟩ : Node) = n at h
  cases h with
  | again done all => exact absurd (Node.mk.inj node).2.symm (firstPhase_ne_memGet i)
  | early done all other => exact all
  | _ => simp at node

theorem Round.full (h : Round cl r counted s) (value : s.counter = some cl.serverNR) :
    counted = Finset.range cl.serverNR ∧ s.early cl r = ∅ := by
  have total := h.counter
  rw [value, Option.some.injEq] at total
  by_cases all : counted = Finset.range cl.serverNR
  · refine ⟨all, Finset.card_eq_zero.mp ?_⟩
    rw [all, Finset.card_range] at total
    omega
  · have none : s.early cl r = ∅ := by
      refine Finset.filter_eq_empty_iff.mpr fun i hi node => all ?_
      have place := h.place i (Finset.mem_range.mp hi)
      rw [node] at place
      exact place.full_of_early
    refine absurd (Finset.eq_of_subset_of_card_le h.subset ?_) all
    rw [none, Finset.card_empty] at total
    rw [Finset.card_range]
    omega

theorem early_setNode {n : Node} (old : s.nodes i ≠ ⟨r + 2, .memGet⟩) (new : n ≠ ⟨r + 2, .memGet⟩) :
    (s.setNode i n).early cl r = s.early cl r := by
  refine Finset.filter_congr fun k _ => ?_
  by_cases same : k = i
  · subst same
    simp [old, new]
  · rw [setNode_nodes_ne s n same]

theorem Round.move (h : Round cl r counted s) {n : Node} (old : s.nodes i ≠ ⟨r + 2, .memGet⟩)
    (new : n ≠ ⟨r + 2, .memGet⟩) (place : Place r (i ∈ counted) (counted = Finset.range cl.serverNR) i n) :
    Round cl r counted (s.setNode i n) := by
  refine ⟨?_, h.subset, fun k hk => ?_⟩
  · rw [early_setNode old new]
    exact h.counter
  · by_cases same : k = i
    · subst same
      rwa [setNode_nodes_self]
    · rw [setNode_nodes_ne s n same]
      exact h.place k hk

/-! ## The steps -/

theorem Round.enter (h : Round cl r counted s) (hi : i < cl.serverNR) (outside : (s.nodes i).phase = .outside) :
    Round cl r counted (s.setNode i ⟨(s.nodes i).calls + 1, firstPhase i⟩) := by
  have place := h.place i hi
  have old : s.nodes i ≠ ⟨r + 2, .memGet⟩ := fun node => by simp [node] at outside
  refine h.move old (fun node => firstPhase_ne_memGet i (Node.mk.inj node).2) ?_
  generalize s.nodes i = n at place outside
  cases place with
  | left out other =>
      rw [firstPhase, if_neg other]
      exact .entered out
  | returned done all => exact .again done all
  | again done all => exact absurd outside (firstPhase_ne_outside i)
  | _ => cases outside

theorem Round.memSet (h : Round cl r counted s) (phase : (s.nodes 0).phase = .memSet) :
    Round cl (r + 1) ∅ { s.setNode 0 { s.nodes 0 with phase := .memFetchAndAdd } with counter := some 0 } := by
  have full : counted = Finset.range cl.serverNR ∧ (s.nodes 0).calls = r + 2 := by
    have place := h.place 0 cl.server_pos
    generalize s.nodes 0 = n at place phase
    cases place with
    | again done all => exact ⟨all, rfl⟩
    | _ => cases phase
  have nodes : ∀ i < cl.serverNR, Place (r + 1) (i ∈ (∅ : Finset Nat)) (∅ = Finset.range cl.serverNR) i
      ((s.setNode 0 { s.nodes 0 with phase := .memFetchAndAdd }).nodes i) := by
    intro i hi
    have out : i ∉ (∅ : Finset Nat) := Finset.notMem_empty i
    by_cases zero : i = 0
    · subst zero
      simp only [setNode_nodes_self, full.2]
      exact .entered out
    · rw [setNode_nodes_ne _ _ zero]
      have counts : i ∈ counted := full.1 ▸ Finset.mem_range.mpr hi
      have place := h.place i hi
      generalize s.nodes i = n at place
      cases place with
      | left out' other => exact absurd counts out'
      | behind out' other => exact absurd counts out'
      | entered out' => exact absurd counts out'
      | lost out' other later => exact absurd counts out'
      | polling done => exact .behind out zero
      | returned done all => exact .left out zero
      | again done all =>
          rw [firstPhase, if_neg zero]
          exact .entered out
      | early done all other => exact .lost out zero (Nat.succ_pos r)
  refine ⟨?_, Finset.empty_subset _, nodes⟩
  have none : (s.setNode 0 { s.nodes 0 with phase := .memFetchAndAdd }).early cl (r + 1) = ∅ := by
    refine Finset.filter_eq_empty_iff.mpr fun i hi node => ?_
    have place := nodes i (Finset.mem_range.mp hi)
    rw [node] at place
    have := place.full_of_early
    have mem : i ∈ (∅ : Finset Nat) := this ▸ hi
    exact Finset.notMem_empty i mem
  have : State.early cl (r + 1)
      { s.setNode 0 { s.nodes 0 with phase := .memFetchAndAdd } with counter := some 0 } = ∅ := none
  rw [this]
  rfl

theorem Round.count (h : Round cl r counted s) (hi : i < cl.serverNR)
    (node : s.nodes i = ⟨r + 1, .memFetchAndAdd⟩) (out : i ∉ counted) {v : Nat} (value : s.counter = some v) :
    Round cl r (insert i counted) { s.setNode i ⟨r + 1, .memGet⟩ with counter := some (v + 1) } := by
  have partial' : counted ≠ Finset.range cl.serverNR := fun all => out (all ▸ Finset.mem_range.mpr hi)
  refine ⟨?_, Finset.insert_subset (Finset.mem_range.mpr hi) h.subset, fun k hk => ?_⟩
  · have same : State.early cl r { s.setNode i ⟨r + 1, .memGet⟩ with counter := some (v + 1) } = s.early cl r :=
      early_setNode (by simp [node]) (by simp)
    have total := h.counter
    rw [value, Option.some.injEq] at total
    rw [same, Finset.card_insert_of_notMem out, total]
    simp only [Option.some.injEq]
    omega
  · by_cases same : k = i
    · subst same
      simp only [setNode_nodes_self]
      exact .polling (Finset.mem_insert_self ..)
    · simp only [setNode_nodes_ne _ _ same]
      exact (h.place k hk).mono (by simp [same]) fun all => absurd all partial'

theorem Round.ahead (h : Round cl r counted s) (hi : i < cl.serverNR)
    (node : s.nodes i = ⟨r + 2, .memFetchAndAdd⟩) (other : i ≠ 0) (all : counted = Finset.range cl.serverNR)
    {v : Nat} (value : s.counter = some v) :
    Round cl r counted { s.setNode i ⟨r + 2, .memGet⟩ with counter := some (v + 1) } := by
  refine ⟨?_, h.subset, fun k hk => ?_⟩
  · have notEarly : i ∉ s.early cl r := fun mem => by simp [State.early, node] at mem
    have grows : State.early cl r { s.setNode i ⟨r + 2, .memGet⟩ with counter := some (v + 1) } =
        insert i (s.early cl r) := by
      ext k
      by_cases same : k = i
      · subst same
        simp [State.early, hi]
      · simp [State.early, same]
    have total := h.counter
    rw [value, Option.some.injEq] at total
    rw [grows, Finset.card_insert_of_notMem notEarly, total, Nat.add_assoc]
  · by_cases same : k = i
    · subst same
      simp only [setNode_nodes_self]
      exact .early (all ▸ Finset.mem_range.mpr hi) all other
    · simp only [setNode_nodes_ne _ _ same]
      exact h.place k hk

theorem Round.memFetchAndAdd (h : Round cl r counted s) (hi : i < cl.serverNR)
    (phase : (s.nodes i).phase = .memFetchAndAdd) {v : Nat} (value : s.counter = some v) :
    ∃ counted', Round cl r counted'
      { s.setNode i { s.nodes i with phase := .memGet } with counter := some (v + 1) } := by
  have place := h.place i hi
  generalize node : s.nodes i = n at place phase
  cases place with
  | entered out => exact ⟨_, h.count hi node out value⟩
  | again done all =>
      have other : i ≠ 0 := by
        rintro rfl
        cases phase
      simp only at phase
      rw [phase] at node
      exact ⟨_, h.ahead hi node other all value⟩
  | _ => cases phase

theorem Round.memGet (h : Round cl r counted s) (hi : i < cl.serverNR) (phase : (s.nodes i).phase = .memGet)
    (value : s.counter = some cl.serverNR) :
    Round cl r counted (s.setNode i { s.nodes i with phase := .outside }) := by
  obtain ⟨full, none⟩ := h.full value
  have counts : i ∈ counted := full ▸ Finset.mem_range.mpr hi
  have notEarly : s.nodes i ≠ ⟨r + 2, .memGet⟩ := fun node =>
    Finset.notMem_empty i (none ▸ Finset.mem_filter.mpr ⟨Finset.mem_range.mpr hi, node⟩)
  refine h.move notEarly (by simp) ?_
  have place := h.place i hi
  generalize s.nodes i = n at place phase notEarly
  cases place with
  | behind out other => exact absurd counts out
  | lost out other later => exact absurd counts out
  | polling done => exact .returned done full
  | early done all other => exact absurd rfl notEarly
  | again done all => exact absurd phase (firstPhase_ne_memGet i)
  | _ => cases phase

def Inv (cl : Cluster) (s : State) : Prop := Fresh cl s ∨ ∃ r counted, Round cl r counted s

theorem Fresh.enter (h : Fresh cl s) (hi : i < cl.serverNR) (outside : (s.nodes i).phase = .outside) :
    Fresh cl (s.setNode i ⟨(s.nodes i).calls + 1, firstPhase i⟩) := by
  refine ⟨h.counter, fun k hk => ?_⟩
  by_cases same : k = i
  · subst same
    rcases h.place k hk with node | node
    · simp [node]
    · rw [node] at outside
      exact absurd outside (firstPhase_ne_outside k)
  · rw [setNode_nodes_ne _ _ same]
    exact h.place k hk

theorem Fresh.memSet (h : Fresh cl s) (phase : (s.nodes 0).phase = .memSet) :
    Round cl 0 ∅ { s.setNode 0 { s.nodes 0 with phase := .memFetchAndAdd } with counter := some 0 } := by
  have first : s.nodes 0 = ⟨1, .memSet⟩ := by
    rcases h.place 0 cl.server_pos with node | node
    · simp [node] at phase
    · exact node
  have nodes : ∀ i < cl.serverNR, i ≠ 0 → s.nodes i = ⟨0, .outside⟩ ∨ s.nodes i = ⟨1, .memFetchAndAdd⟩ := by
    intro i hi other
    have := h.place i hi
    rwa [firstPhase, if_neg other] at this
  refine ⟨?_, Finset.empty_subset _, fun i hi => ?_⟩
  · have none : State.early cl 0
        { s.setNode 0 { s.nodes 0 with phase := .memFetchAndAdd } with counter := some 0 } = ∅ := by
      refine Finset.filter_eq_empty_iff.mpr fun i hi => ?_
      by_cases zero : i = 0
      · subst zero
        simp
      · simp only [setNode_nodes_ne _ _ zero]
        rcases nodes i (Finset.mem_range.mp hi) zero with node | node <;> simp [node]
    rw [none]
    rfl
  · have out : i ∉ (∅ : Finset Nat) := Finset.notMem_empty i
    by_cases zero : i = 0
    · subst zero
      simp only [setNode_nodes_self, first]
      exact .entered out
    · simp only [setNode_nodes_ne _ _ zero]
      rcases nodes i hi zero with node | node
      · rw [node]
        exact .left out zero
      · rw [node]
        exact .entered out

theorem step_inv {a : Action} (h : Inv cl s) (step : (machine cl calls).step s a = some t) : Inv cl t := by
  cases a with
  | enter i =>
      simp only [machine] at step
      split at step
      · rename_i may
        cases step
        rcases h with fresh | ⟨r, counted, round⟩
        · exact .inl (fresh.enter may.1 may.2.1)
        · exact .inr ⟨r, counted, round.enter may.1 may.2.1⟩
      · cases step
  | memSet =>
      simp only [machine] at step
      split at step
      · rename_i may
        cases step
        rcases h with fresh | ⟨r, counted, round⟩
        · exact .inr ⟨0, ∅, fresh.memSet may⟩
        · exact .inr ⟨r + 1, ∅, round.memSet may⟩
      · cases step
  | memFetchAndAdd i =>
      simp only [machine] at step
      split at step
      · rename_i may
        split at step
        · cases step
          exact h
        · rename_i v value
          cases step
          rcases h with fresh | ⟨r, counted, round⟩
          · rw [fresh.counter] at value
            cases value
          · obtain ⟨counted', round⟩ := round.memFetchAndAdd may.1 may.2 value
            exact .inr ⟨r, counted', round⟩
      · cases step
  | memGet i =>
      simp only [machine] at step
      split at step
      · rename_i may
        split at step
        · rename_i value
          cases step
          rcases h with fresh | ⟨r, counted, round⟩
          · rw [fresh.counter] at value
            cases value
          · exact .inr ⟨r, counted, round.memGet may.1 may.2 value⟩
        · cases step
          exact h
      · cases step

theorem run_inv {as : List Action} (run : (machine cl calls).run .init as = some s) : Inv cl s :=
  Machine.run_always (fun _ _ _ => step_inv) (.inl ⟨rfl, fun _ _ => .inl rfl⟩) run

/-! ## What the rounds ensure -/

theorem Place.returned_le {p full : Prop} {n : Node} (h : Place r p full i n) :
    n.returned ≤ r ∨ (full ∧ n.returned ≤ r + 1) := by
  cases h with
  | again done all => exact .inr ⟨all, by simp [Node.returned, firstPhase_ne_outside]⟩
  | returned done all => exact .inr ⟨all, by simp [Node.returned]⟩
  | early done all other => exact .inr ⟨all, by simp [Node.returned]⟩
  | _ => exact .inl (by simp [Node.returned])

theorem Place.le_calls {p full : Prop} {n : Node} (h : Place r p full i n) :
    r ≤ n.calls ∧ (p → r + 1 ≤ n.calls) := by
  cases h with
  | left out other => exact ⟨le_rfl, fun done => absurd done out⟩
  | behind out other => exact ⟨le_rfl, fun done => absurd done out⟩
  | _ => simp

theorem Inv.together (h : Inv cl s) :
    ∀ i < cl.serverNR, ∀ k < cl.serverNR, (s.nodes i).returned ≤ (s.nodes k).calls := by
  intro i hi k hk
  rcases h with fresh | ⟨r, counted, round⟩
  · have none : (s.nodes i).returned = 0 := by
      rcases fresh.place i hi with node | node
      · simp [node, Node.returned]
      · simp [node, Node.returned, firstPhase_ne_outside]
    rw [none]
    exact Nat.zero_le _
  · have entered := (round.place k hk).le_calls
    rcases (round.place i hi).returned_le with le | ⟨full, le⟩
    · exact le.trans entered.1
    · exact le.trans (entered.2 (full ▸ Finset.mem_range.mpr hk))

theorem Inv.live (h : Inv cl s) {j : Nat} (polling : s.AllPolling cl j) (safe : cl.serverNR = 1 ∨ j ≤ 1) :
    s.counter = some cl.serverNR := by
  rcases h with fresh | ⟨r, counted, round⟩
  · rcases fresh.place 0 cl.server_pos with node | node
    · simp [polling 0 cl.server_pos] at node
    · simp [polling 0 cl.server_pos, firstPhase] at node
  · have zero := round.place 0 cl.server_pos
    rw [polling 0 cl.server_pos] at zero
    have current : j = r + 1 ∧ 0 ∈ counted := by
      generalize node : (⟨j, .memGet⟩ : Node) = n at zero
      cases zero with
      | behind out other => exact absurd rfl other
      | lost out other later => exact absurd rfl other
      | polling done => exact ⟨(Node.mk.inj node).1, done⟩
      | early done all other => exact absurd rfl other
      | again done all => exact absurd (Node.mk.inj node).2.symm (firstPhase_ne_memGet 0)
      | _ => simp at node
    obtain ⟨rfl, first⟩ := current
    have all : counted = Finset.range cl.serverNR := by
      refine Finset.Subset.antisymm round.subset fun i hi => ?_
      rw [Finset.mem_range] at hi
      rcases safe with single | once
      · have : i = 0 := by omega
        exact this ▸ first
      · have place := round.place i hi
        rw [polling i hi] at place
        generalize node : (⟨r + 1, .memGet⟩ : Node) = n at place
        cases place with
        | lost out other later => omega
        | polling done => exact done
        | early done all other => exact done
        | again done all => exact done
        | behind out other => simp at node
        | _ => simp at node
    have none : s.early cl r = ∅ := by
      refine Finset.filter_eq_empty_iff.mpr fun i hi => ?_
      rw [polling i (Finset.mem_range.mp hi)]
      simp
    rw [round.counter, all, none, Finset.card_range]
    rfl

theorem step_calls {a : Action} (h : ∀ i, (s.nodes i).calls ≤ calls i)
    (step : (machine cl calls).step s a = some t) : ∀ i, (t.nodes i).calls ≤ calls i := by
  have moved : ∀ i (n : Node), n.calls ≤ calls i → ∀ k, ((s.setNode i n).nodes k).calls ≤ calls k := by
    intro i n le k
    by_cases same : k = i
    · subst same
      rwa [setNode_nodes_self]
    · rw [setNode_nodes_ne _ _ same]
      exact h k
  cases a with
  | enter i =>
      simp only [machine] at step
      split at step
      · rename_i may
        cases step
        exact moved i _ may.2.2
      · cases step
  | memSet =>
      simp only [machine] at step
      split at step
      · cases step
        exact moved 0 _ (h 0)
      · cases step
  | memFetchAndAdd i =>
      simp only [machine] at step
      split at step
      · split at step
        · cases step
          exact h
        · cases step
          exact moved i _ (h i)
      · cases step
  | memGet i =>
      simp only [machine] at step
      split at step
      · split at step
        · cases step
          exact moved i _ (h i)
        · cases step
          exact h
      · cases step

theorem run_calls {as : List Action} (run : (machine cl calls).run .init as = some s) :
    ∀ i, (s.nodes i).calls ≤ calls i :=
  Machine.run_always (I := fun s => ∀ i, (s.nodes i).calls ≤ calls i) (fun _ _ _ => step_calls)
    (fun _ => Nat.zero_le _) run

/-! ## A run that loses an increment -/

variable (cl calls) in
theorem sweep (act : Nat → Action) {x : Nat → Node} (y : Nat → Node) (value : Nat → Option Nat) {nodes : List Nat}
    {k : Nat}
    (distinct : nodes.Nodup) (start : ∀ i ∈ nodes, s.nodes i = x i)
    (step : ∀ i ∈ nodes, ∀ k (u : State), u.nodes i = x i → u.counter = value k →
      (machine cl calls).step u (act i) = some { u.setNode i (y i) with counter := value (k + 1) })
    (counter : s.counter = value k) :
    ∃ t, (machine cl calls).run s (nodes.map act) = some t ∧ t.counter = value (k + nodes.length) ∧
      (∀ i ∈ nodes, t.nodes i = y i) ∧ ∀ i, i ∉ nodes → t.nodes i = s.nodes i := by
  induction nodes generalizing s k with
  | nil => exact ⟨s, rfl, counter, by simp, fun _ _ => rfl⟩
  | cons i rest ih =>
      obtain ⟨new, distinct⟩ := List.nodup_cons.mp distinct
      have first := step i (by simp) k s (start i (by simp)) counter
      obtain ⟨t, run, last, on, off⟩ := @ih { s.setNode i (y i) with counter := value (k + 1) } (k + 1) distinct
        (fun m hm => by
          have other : m ≠ i := fun same => new (same ▸ hm)
          simp only [setNode_nodes_ne _ _ other]
          exact start m (by simp [hm]))
        (fun m hm => step m (by simp [hm])) rfl
      refine ⟨t, ?_, ?_, fun m hm => ?_, fun m hm => ?_⟩
      · simp only [List.map_cons, Machine.run, first, run]
      · rw [last, List.length_cons, Nat.add_assoc, Nat.add_comm 1]
      · rcases List.mem_cons.mp hm with rfl | hm
        · rw [off m new]
          exact setNode_nodes_self ..
        · exact on m hm
      · rw [List.mem_cons, not_or] at hm
        rw [off m hm.2]
        exact setNode_nodes_ne _ _ hm.1

section
variable (cl calls) {nodes : List Nat} {m : Nat}

theorem enter_all (distinct : nodes.Nodup) (bound : ∀ i ∈ nodes, i < cl.serverNR)
    (start : ∀ i ∈ nodes, s.nodes i = ⟨m, .outside⟩) (more : ∀ i ∈ nodes, m < calls i) :
    ∃ t, (machine cl calls).run s (nodes.map .enter) = some t ∧ t.counter = s.counter ∧
      ∀ i ∈ nodes, t.nodes i = ⟨m + 1, firstPhase i⟩ := by
  obtain ⟨t, run, counter, on, -⟩ := sweep cl calls .enter
    (fun i => ⟨m + 1, firstPhase i⟩) (fun _ => s.counter) (k := 0) distinct start
    (fun i hi k u node counter => by simp [machine, node, bound i hi, more i hi, ← counter, State.setNode]) rfl
  exact ⟨t, run, counter, on⟩

theorem memFetchAndAdd_all (distinct : nodes.Nodup) (bound : ∀ i ∈ nodes, i < cl.serverNR)
    (start : ∀ i ∈ nodes, s.nodes i = ⟨m, .memFetchAndAdd⟩) (zero : s.counter = some 0) :
    ∃ t, (machine cl calls).run s (nodes.map .memFetchAndAdd) = some t ∧ t.counter = some nodes.length ∧
      (∀ i ∈ nodes, t.nodes i = ⟨m, .memGet⟩) ∧ ∀ i, i ∉ nodes → t.nodes i = s.nodes i := by
  obtain ⟨t, run, counter, on, off⟩ := sweep cl calls .memFetchAndAdd
    (fun _ => ⟨m, .memGet⟩) some (k := 0) distinct start
    (fun i hi k u node counter => by simp [machine, node, bound i hi, counter]) zero
  exact ⟨t, run, by rw [counter, Nat.zero_add], on, off⟩

theorem memGet_all (distinct : nodes.Nodup) (bound : ∀ i ∈ nodes, i < cl.serverNR)
    (start : ∀ i ∈ nodes, s.nodes i = ⟨m, .memGet⟩) (complete : s.counter = some cl.serverNR) :
    ∃ t, (machine cl calls).run s (nodes.map .memGet) = some t ∧ t.counter = some cl.serverNR ∧
      ∀ i ∈ nodes, t.nodes i = ⟨m, .outside⟩ := by
  obtain ⟨t, run, counter, on, -⟩ := sweep cl calls .memGet
    (fun _ => ⟨m, .outside⟩) (fun _ => some cl.serverNR) (k := 0) distinct start
    (fun i hi k u node counter => by simp [machine, node, bound i hi, counter, State.setNode]) complete
  exact ⟨t, run, counter, on⟩

end

/-- In the second call, node 1 increments before node 0 sets. -/
def lostIncrement (cl : Cluster) : List Action :=
  let all := List.range cl.serverNR
  all.map .enter ++ (.memSet :: (all.map .memFetchAndAdd ++ (all.map .memGet ++ (all.map .enter ++
    .memFetchAndAdd 1 :: .memSet :: (all.filter (· ≠ 1)).map .memFetchAndAdd))))

variable (cl calls) in
theorem lostIncrement_run (several : cl.serverNR ≠ 1) (twice : ∀ i < cl.serverNR, 1 < calls i) :
    ∃ s, (machine cl calls).run .init (lostIncrement cl) = some s ∧ s.AllPolling cl 2 ∧
      s.counter ≠ some cl.serverNR := by
  have bound : ∀ i ∈ List.range cl.serverNR, i < cl.serverNR := fun i => List.mem_range.mp
  have member : ∀ i < cl.serverNR, i ∈ List.range cl.serverNR := fun i => List.mem_range.mpr
  have pos := cl.server_pos
  have two : 1 < cl.serverNR := by omega
  -- the first call
  obtain ⟨s₁, run₁, counter₁, nodes₁⟩ := enter_all cl calls (s := .init) (m := 0)
    List.nodup_range bound (fun i _ => rfl) fun i hi => Nat.lt_of_succ_lt (twice i (bound i hi))
  have set₁ : (machine cl calls).step s₁ .memSet =
      some { s₁.setNode 0 ⟨1, .memFetchAndAdd⟩ with counter := some 0 } := by
    simp [machine, nodes₁ 0 (member 0 pos), firstPhase]
  obtain ⟨s₂, run₂, counter₂, nodes₂, -⟩ := memFetchAndAdd_all cl calls
    (s := { s₁.setNode 0 ⟨1, .memFetchAndAdd⟩ with counter := some 0 }) (m := 1) List.nodup_range bound
    (fun i hi => by
      by_cases zero : i = 0
      · simp [zero]
      · simp [nodes₁ i hi, firstPhase, zero]) rfl
  rw [List.length_range] at counter₂
  obtain ⟨s₃, run₃, counter₃, nodes₃⟩ := memGet_all cl calls List.nodup_range bound nodes₂ counter₂
  -- the second call
  obtain ⟨s₄, run₄, counter₄, nodes₄⟩ := enter_all cl calls List.nodup_range bound nodes₃
    fun i hi => twice i (bound i hi)
  rw [counter₃] at counter₄
  have early : (machine cl calls).step s₄ (.memFetchAndAdd 1) =
      some { s₄.setNode 1 ⟨2, .memGet⟩ with counter := some (cl.serverNR + 1) } := by
    simp [machine, nodes₄ 1 (member 1 two), firstPhase, two, counter₄]
  have set₂ : (machine cl calls).step { s₄.setNode 1 ⟨2, .memGet⟩ with counter := some (cl.serverNR + 1) } .memSet =
      some { (s₄.setNode 1 ⟨2, .memGet⟩).setNode 0 ⟨2, .memFetchAndAdd⟩ with counter := some 0 } := by
    simp [machine, nodes₄ 0 (member 0 pos), firstPhase, State.setNode]
  obtain ⟨s₅, run₅, counter₅, on₅, off₅⟩ := memFetchAndAdd_all cl calls
    (s := { (s₄.setNode 1 ⟨2, .memGet⟩).setNode 0 ⟨2, .memFetchAndAdd⟩ with counter := some 0 }) (m := 2)
    ((List.nodup_range (n := cl.serverNR)).filter (· ≠ 1))
    (fun i hi => bound i (List.mem_filter.mp hi).1)
    (fun i hi => by
      obtain ⟨hi, other⟩ := List.mem_filter.mp hi
      simp only [decide_eq_true_eq] at other
      by_cases zero : i = 0
      · simp [zero]
      · simp [setNode_nodes_ne _ _ other, nodes₄ i hi, firstPhase, zero]) rfl
  refine ⟨s₅, ?_, fun i hi => ?_, ?_⟩
  · simp only [lostIncrement]
    refine (Machine.run_append _).mpr ⟨s₁, run₁, (Machine.run_cons _).mpr ⟨_, set₁, ?_⟩⟩
    refine (Machine.run_append _).mpr ⟨s₂, run₂, (Machine.run_append _).mpr ⟨s₃, run₃, ?_⟩⟩
    refine (Machine.run_append _).mpr ⟨s₄, run₄, (Machine.run_cons _).mpr ⟨_, early, ?_⟩⟩
    exact (Machine.run_cons _).mpr ⟨_, set₂, run₅⟩
  · by_cases one : i = 1
    · subst one
      rw [off₅ 1 (by simp)]
      simp
    · exact on₅ i (List.mem_filter.mpr ⟨member i hi, by simp [one]⟩)
  · have fewer : ((List.range cl.serverNR).filter (· ≠ 1)).length < cl.serverNR := by
      have less := List.length_filter_lt_length_iff_exists (p := (· ≠ 1)) (l := List.range cl.serverNR)
      rw [List.length_range] at less
      exact less.mpr ⟨1, member 1 two, by simp⟩
    rw [counter₅, ne_eq, Option.some.injEq]
    omega

/-- The barrier keeps its promises in every run exactly when there is one node, or when not all nodes use
the key more than once. -/
theorem barrier_iff (cl : Cluster) (calls : Nat → Nat) :
    (∀ as s, (machine cl calls).run .init as = some s → Sound cl s) ↔
      cl.serverNR = 1 ∨ ∃ i < cl.serverNR, calls i ≤ 1 := by
  constructor
  · intro sound
    by_contra reused
    simp only [not_or, not_exists, not_and, not_le] at reused
    obtain ⟨s, run, polling, lost⟩ := lostIncrement_run cl calls reused.1 reused.2
    exact lost ((sound _ s run).live 2 polling)
  · intro condition as s run
    have inv := run_inv run
    refine ⟨inv.together, fun j polling => inv.live polling ?_⟩
    rcases condition with single | ⟨i, hi, once⟩
    · exact .inl single
    · have entered := run_calls run i
      rw [polling i hi] at entered
      exact .inr (entered.trans once)

def pair : Cluster := ⟨2, Nat.two_pos⟩

/-- Two nodes use a key twice: both poll in their second call, and the counter is 1. -/
theorem barrier_stuck :
    ∃ s, (machine pair fun _ => 2).run .init
        [.enter 0, .enter 1, .memSet, .memFetchAndAdd 0, .memFetchAndAdd 1, .memGet 0, .memGet 1,
          .enter 0, .enter 1, .memFetchAndAdd 1, .memSet, .memFetchAndAdd 0] = some s ∧
      s.AllPolling pair 2 ∧ s.counter = some 1 ∧ ¬ Sound pair s := by
  have polling : ∀ s : State, s.nodes 0 = ⟨2, .memGet⟩ → s.nodes 1 = ⟨2, .memGet⟩ → s.AllPolling pair 2 := by
    intro s zero one i hi
    rcases i with _ | _ | i
    · exact zero
    · exact one
    · exact absurd hi (by simp [pair])
  refine ⟨_, rfl, polling _ rfl rfl, rfl, fun sound => ?_⟩
  cases sound.live 2 (polling _ rfl rfl)

end Sherman.Barrier
