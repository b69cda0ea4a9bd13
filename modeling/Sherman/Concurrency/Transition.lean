import Mathlib.Init

/-!
# Machines that take one step at a time

A machine is a partial step function. Safety of its runs is proved by an invariant, of all runs or of
those whose steps all meet a condition on the state before the step and its action.
-/

namespace Concurrency

structure Machine (State Action : Type) where
  step : State → Action → Option State

namespace Machine
variable {State Action : Type} (m : Machine State Action)

def run (s : State) : List Action → Option State
  | [] => some s
  | a :: as => match m.step s a with
      | none => none
      | some s' => run s' as

def Throughout (condition : State → Action → Prop) (s : State) : List Action → Prop
  | [] => True
  | a :: as => condition s a ∧ ∀ s', m.step s a = some s' → Throughout condition s' as

theorem run_cons {s s' : State} {a : Action} {as : List Action} :
    m.run s (a :: as) = some s' ↔ ∃ t, m.step s a = some t ∧ m.run t as = some s' := by
  simp only [run]
  cases h : m.step s a <;> simp

theorem run_append {s s' : State} {as bs : List Action} :
    m.run s (as ++ bs) = some s' ↔ ∃ t, m.run s as = some t ∧ m.run t bs = some s' := by
  induction as generalizing s with
  | nil => simp [run]
  | cons a as ih =>
      simp only [List.cons_append, run_cons, ih]
      constructor
      · rintro ⟨t, ht, u, hu, h⟩
        exact ⟨u, ⟨t, ht, hu⟩, h⟩
      · rintro ⟨u, ⟨t, ht, hu⟩, h⟩
        exact ⟨t, ht, u, hu, h⟩

variable {m}

theorem Throughout.append {condition : State → Action → Prop} {s t : State} {as bs : List Action}
    (h : m.Throughout condition s (as ++ bs)) (run : m.run s as = some t) :
    m.Throughout condition t bs := by
  induction as generalizing s with
  | nil =>
      simp only [Machine.run, Option.some.injEq] at run
      exact run ▸ h
  | cons a as ih =>
      obtain ⟨u, step, rest⟩ := m.run_cons.mp run
      exact ih (h.2 u step) rest

theorem Throughout.left {condition : State → Action → Prop} {s : State} {as bs : List Action}
    (h : m.Throughout condition s (as ++ bs)) : m.Throughout condition s as := by
  induction as generalizing s with
  | nil => trivial
  | cons a as ih => exact ⟨h.1, fun s' step => ih (h.2 s' step)⟩

theorem Throughout.mono {p q : State → Action → Prop} (imp : ∀ s a, p s a → q s a) {s : State}
    {as : List Action} (h : m.Throughout p s as) : m.Throughout q s as := by
  induction as generalizing s with
  | nil => trivial
  | cons a as ih => exact ⟨imp s a h.1, fun s' step => ih (h.2 s' step)⟩

theorem throughout_of_forall {p : Action → Prop} {s : State} {as : List Action}
    (h : ∀ a ∈ as, p a) : m.Throughout (fun _ a => p a) s as := by
  induction as generalizing s with
  | nil => trivial
  | cons a as ih => exact ⟨h a (by simp), fun s' _ => ih fun b member => h b (by simp [member])⟩

theorem throughout_of_prefixes {p : State → Prop} {s : State} {as : List Action}
    (h : ∀ front t, front <+: as → m.run s front = some t → p t) :
    m.Throughout (fun s a => p s ∧ ∀ s', m.step s a = some s' → p s') s as := by
  induction as generalizing s with
  | nil => trivial
  | cons a as ih =>
      refine ⟨⟨h [] s (List.nil_prefix) rfl, fun s' step => ?_⟩, fun s' step => ih ?_⟩
      · exact h [a] s' ⟨as, rfl⟩ (by simp [Machine.run, step])
      · rintro front t ⟨rest, rfl⟩ run
        exact h (a :: front) t ⟨rest, rfl⟩ (by simp [Machine.run, step, run])

def passes (m : Machine State Action) (test : State → Action → Bool) (s : State) : List Action → Bool
  | [] => true
  | a :: as => test s a && (m.step s a).all fun s' => m.passes test s' as

theorem throughout_of_passes {condition : State → Action → Prop} {test : State → Action → Bool}
    (sound : ∀ s a, test s a = true → condition s a) {s : State} {as : List Action}
    (h : m.passes test s as = true) : m.Throughout condition s as := by
  induction as generalizing s with
  | nil => trivial
  | cons a as ih =>
      obtain ⟨now, later⟩ := Bool.and_eq_true_iff.mp h
      refine ⟨sound s a now, fun s' step => ih ?_⟩
      rwa [step] at later

theorem run_invariant {condition : State → Action → Prop} {I : State → Prop}
    (step : ∀ s a s', I s → condition s a → m.step s a = some s' → I s')
    {s s' : State} {as : List Action} (start : I s) (may : m.Throughout condition s as)
    (run : m.run s as = some s') : I s' := by
  induction as generalizing s with
  | nil =>
      simp only [Machine.run, Option.some.injEq] at run
      exact run ▸ start
  | cons a as ih =>
      obtain ⟨t, first, rest⟩ := m.run_cons.mp run
      exact ih (step s a t start may.1 first) (may.2 t first) rest

theorem run_always {I : State → Prop}
    (step : ∀ s a s', I s → m.step s a = some s' → I s')
    {s s' : State} {as : List Action} (start : I s) (run : m.run s as = some s') : I s' := by
  induction as generalizing s with
  | nil =>
      simp only [Machine.run, Option.some.injEq] at run
      exact run ▸ start
  | cons a as ih =>
      obtain ⟨t, first, rest⟩ := m.run_cons.mp run
      exact ih (step s a t start first) rest

/-! ## Histories -/

variable {Event : Type} (m)

def history (event : State → Action → List Event) (s : State) : List Action → List Event
  | [] => []
  | a :: as => match m.step s a with
      | none => []
      | some s' => event s a ++ history event s' as

variable {m}

theorem run_history {event : State → Action → List Event} {condition : State → Action → Prop}
    {I : State → List Event → Prop}
    (step : ∀ s h a s', I s h → condition s a → m.step s a = some s' → I s' (h ++ event s a))
    {s s' : State} {h : List Event} {as : List Action} (start : I s h)
    (may : m.Throughout condition s as) (run : m.run s as = some s') :
    I s' (h ++ m.history event s as) := by
  induction as generalizing s h with
  | nil =>
      simp only [Machine.run, Option.some.injEq] at run
      simpa [history, run] using run ▸ start
  | cons a as ih =>
      obtain ⟨t, first, rest⟩ := m.run_cons.mp run
      simp only [history, first]
      rw [← List.append_assoc]
      exact ih (step s h a t start may.1 first) (may.2 t first) rest

end Machine
end Concurrency
