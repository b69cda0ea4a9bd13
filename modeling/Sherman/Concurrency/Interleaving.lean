import Sherman.Concurrency.Program

/-!
# Interleavings of programs

Threads run programs against one shared state. An action invokes an operation on an idle thread,
lets a thread execute its next verb or call, returns a finished operation, or lets the environment
interfere. Whatever is nondeterministic in a verb is resolved by the choice of the action.
-/

namespace Concurrency

structure System (S : Signature) (Tid Op Res Shared Choice Env : Type) where
  body : (p : S.Proc) → Program S (S.Ret p)
  main : Op → Program S Res
  perform : Tid → (v : S.Verb) → Choice → Shared → Option (S.Resp v × Shared)
  interfere : Env → Shared → Option Shared

inductive Thread (S : Signature) (Op Res : Type) : Type where
  | idle
  | running (op : Op) (rest : Program S Res)

structure State (S : Signature) (Tid Op Res Shared : Type) where
  shared : Shared
  threads : Tid → Thread S Op Res

inductive Action (Tid Op Choice Env : Type) : Type where
  | invoke (t : Tid) (op : Op)
  | advance (t : Tid) (choice : Choice)
  | respond (t : Tid)
  | interfere (e : Env)

def Action.thread? : Action Tid Op Choice Env → Option Tid
  | .invoke t _ | .advance t _ | .respond t => some t
  | .interfere _ => none

inductive Event (Tid Op Res : Type) : Type where
  | invoke (t : Tid) (op : Op)
  | respond (t : Tid) (op : Op) (r : Res)
  deriving DecidableEq

variable {S : Signature} {Tid Op Res Shared Choice Env : Type} [DecidableEq Tid]

namespace State

def setThread (s : State S Tid Op Res Shared) (t : Tid) (thread : Thread S Op Res) :
    State S Tid Op Res Shared :=
  { s with threads := fun u => if u = t then thread else s.threads u }

@[simp] theorem setThread_shared (s : State S Tid Op Res Shared) (t : Tid)
    (thread : Thread S Op Res) : (s.setThread t thread).shared = s.shared := rfl

@[simp] theorem setThread_same (s : State S Tid Op Res Shared) (t : Tid)
    (thread : Thread S Op Res) : (s.setThread t thread).threads t = thread := by
  simp [setThread]

theorem setThread_other (s : State S Tid Op Res Shared) {t u : Tid} (h : u ≠ t)
    (thread : Thread S Op Res) : (s.setThread t thread).threads u = s.threads u := by
  simp [setThread, h]

end State

namespace System
variable (sys : System S Tid Op Res Shared Choice Env)

def advance (t : Tid) (choice : Choice) (s : State S Tid Op Res Shared) (op : Op) :
    Program S Res → Option (State S Tid Op Res Shared)
  | .ret _ => none
  | .fault _ => none
  | .verb v next =>
      match sys.perform t v choice s.shared with
      | none => none
      | some (r, shared) => some (State.setThread { s with shared := shared } t (.running op (next r)))
  | .call p next => some (s.setThread t (.running op ((sys.body p).bind next)))

def step (s : State S Tid Op Res Shared) : Action Tid Op Choice Env → Option (State S Tid Op Res Shared)
  | .invoke t op =>
      match s.threads t with
      | .idle => some (s.setThread t (.running op (sys.main op)))
      | .running _ _ => none
  | .advance t choice =>
      match s.threads t with
      | .idle => none
      | .running op rest => sys.advance t choice s op rest
  | .respond t =>
      match s.threads t with
      | .running _ (.ret _) => some (s.setThread t .idle)
      | _ => none
  | .interfere e =>
      match sys.interfere e s.shared with
      | none => none
      | some shared => some { s with shared := shared }

def run (s : State S Tid Op Res Shared) :
    List (Action Tid Op Choice Env) → Option (State S Tid Op Res Shared)
  | [] => some s
  | a :: as => match sys.step s a with
      | none => none
      | some s' => run s' as

def events (s : State S Tid Op Res Shared) : Action Tid Op Choice Env → List (Event Tid Op Res)
  | .invoke t op => [.invoke t op]
  | .respond t => match s.threads t with
      | .running op (.ret r) => [.respond t op r]
      | _ => []
  | _ => []

def history (s : State S Tid Op Res Shared) :
    List (Action Tid Op Choice Env) → List (Event Tid Op Res)
  | [] => []
  | a :: as => match sys.step s a with
      | none => []
      | some s' => events s a ++ history s' as

def Throughout (condition : State S Tid Op Res Shared → Action Tid Op Choice Env → Prop)
    (s : State S Tid Op Res Shared) : List (Action Tid Op Choice Env) → Prop
  | [] => True
  | a :: as => condition s a ∧ ∀ s', sys.step s a = some s' → Throughout condition s' as

theorem step_other {s s' : State S Tid Op Res Shared} {a : Action Tid Op Choice Env}
    (step : sys.step s a = some s') {u : Tid} (other : a.thread? ≠ some u) : s'.threads u = s.threads u := by
  have otherwise : ∀ {t : Tid}, some t ≠ some u → u ≠ t := fun other same => other (congrArg some same.symm)
  cases a with
  | invoke t op =>
      simp only [System.step] at step
      split at step
      · cases step
        exact State.setThread_other _ (otherwise other) _
      · cases step
  | advance t choice =>
      simp only [System.step] at step
      split at step
      · cases step
      · rename_i op rest _
        cases rest with
        | ret r => cases step
        | fault e => cases step
        | call p next =>
            cases step
            exact State.setThread_other _ (otherwise other) _
        | verb v next =>
            simp only [System.advance] at step
            split at step
            · cases step
            · cases step
              exact State.setThread_other _ (otherwise other) _
  | respond t =>
      simp only [System.step] at step
      split at step
      · cases step
        exact State.setThread_other _ (otherwise other) _
      · cases step
  | interfere e =>
      simp only [System.step] at step
      split at step
      · cases step
      · cases step
        rfl

theorem run_cons {s s' : State S Tid Op Res Shared} {a : Action Tid Op Choice Env}
    {as : List (Action Tid Op Choice Env)} :
    sys.run s (a :: as) = some s' ↔ ∃ m, sys.step s a = some m ∧ sys.run m as = some s' := by
  simp only [run]
  cases h : sys.step s a <;> simp

theorem run_append {s s' : State S Tid Op Res Shared} {as bs : List (Action Tid Op Choice Env)} :
    sys.run s (as ++ bs) = some s' ↔ ∃ m, sys.run s as = some m ∧ sys.run m bs = some s' := by
  induction as generalizing s with
  | nil => simp [run]
  | cons a as ih =>
      simp only [List.cons_append, run_cons, ih]
      constructor
      · rintro ⟨m, hm, n, hn, h⟩
        exact ⟨n, ⟨m, hm, hn⟩, h⟩
      · rintro ⟨n, ⟨m, hm, hn⟩, h⟩
        exact ⟨m, hm, n, hn, h⟩

theorem run_other {s s' : State S Tid Op Res Shared} {as : List (Action Tid Op Choice Env)}
    (run : sys.run s as = some s') {u : Tid} (others : ∀ a ∈ as, a.thread? ≠ some u) :
    s'.threads u = s.threads u := by
  induction as generalizing s with
  | nil =>
      cases run
      rfl
  | cons a as ih =>
      obtain ⟨m, step, rest⟩ := sys.run_cons.mp run
      rw [ih rest fun b later => others b (List.mem_cons_of_mem a later),
        sys.step_other step (others a List.mem_cons_self)]

theorem history_append {s m : State S Tid Op Res Shared} {as bs : List (Action Tid Op Choice Env)}
    (run : sys.run s as = some m) : sys.history s (as ++ bs) = sys.history s as ++ sys.history m bs := by
  induction as generalizing s with
  | nil =>
      cases run
      rfl
  | cons a as ih =>
      obtain ⟨u, step, rest⟩ := (sys.run_cons).mp run
      simp only [List.cons_append, history, step, ih rest, List.append_assoc]

theorem Throughout.mono {p q : State S Tid Op Res Shared → Action Tid Op Choice Env → Prop}
    (imp : ∀ s a, p s a → q s a) {s : State S Tid Op Res Shared}
    {as : List (Action Tid Op Choice Env)} (h : sys.Throughout p s as) : sys.Throughout q s as := by
  induction as generalizing s with
  | nil => trivial
  | cons a as ih => exact ⟨imp s a h.1, fun s' hs => ih (h.2 s' hs)⟩

variable {sys} in
theorem throughout_of_forall {p : State S Tid Op Res Shared → Action Tid Op Choice Env → Prop}
    {s : State S Tid Op Res Shared} {as : List (Action Tid Op Choice Env)} (all : ∀ a ∈ as, ∀ s, p s a) :
    sys.Throughout p s as := by
  induction as generalizing s with
  | nil => trivial
  | cons a as ih =>
      exact ⟨all a List.mem_cons_self s, fun s' _ => ih fun b later => all b (List.mem_cons_of_mem a later)⟩

/-! ## Replays -/

/-- A run whose steps pass a test, with its history. `tidy` rewrites the states, so that a run can be computed. -/
def replay (tidy : State S Tid Op Res Shared → State S Tid Op Res Shared)
    (test : State S Tid Op Res Shared → Action Tid Op Choice Env → Bool) (s : State S Tid Op Res Shared) :
    List (Action Tid Op Choice Env) → Option (State S Tid Op Res Shared × List (Event Tid Op Res))
  | [] => some (s, [])
  | a :: as =>
      if test s a then
        match sys.step s a with
        | none => none
        | some s' => (replay tidy test (tidy s') as).map fun x => (x.1, events s a ++ x.2)
      else none

section
variable {sys} {tidy : State S Tid Op Res Shared → State S Tid Op Res Shared} (same : ∀ s, tidy s = s)
  {s s' : State S Tid Op Res Shared} {as : List (Action Tid Op Choice Env)} {es : List (Event Tid Op Res)}
include same

theorem replay_spec {test : State S Tid Op Res Shared → Action Tid Op Choice Env → Bool}
    (h : sys.replay tidy test s as = some (s', es)) :
    sys.run s as = some s' ∧ sys.history s as = es ∧ sys.Throughout (fun s a => test s a = true) s as := by
  induction as generalizing s es with
  | nil =>
      cases h
      exact ⟨rfl, rfl, trivial⟩
  | cons a as ih =>
      simp only [replay] at h
      split at h
      · rename_i passes
        split at h
        · cases h
        · rename_i m step
          obtain ⟨⟨t, later⟩, rest, pair⟩ := Option.map_eq_some_iff.mp h
          cases pair
          rw [same] at rest
          obtain ⟨run, history, throughout⟩ := ih rest
          refine ⟨by simp [System.run, step, run], by simp [System.history, step, history], passes, fun u step' => ?_⟩
          rw [step] at step'
          cases step'
          exact throughout
      · cases h

theorem replay_run : (sys.replay tidy (fun _ _ => true) s as).map Prod.fst = sys.run s as := by
  induction as generalizing s with
  | nil => rfl
  | cons a as ih =>
      simp only [replay, System.run, if_true]
      cases sys.step s a with
      | none => rfl
      | some m =>
          dsimp only
          rw [same, Option.map_map, ← ih]
          rfl

end

variable {sys} in
theorem throughout_iff {p : State S Tid Op Res Shared → Action Tid Op Choice Env → Prop}
    {s : State S Tid Op Res Shared} {as : List (Action Tid Op Choice Env)} : sys.Throughout p s as ↔
      ∀ before a after m, as = before ++ a :: after → sys.run s before = some m → p m a := by
  induction as generalizing s with
  | nil => simp [Throughout]
  | cons b as ih =>
      constructor
      · rintro ⟨first, rest⟩ before a after m split run
        cases before with
        | nil =>
            cases run
            cases split
            exact first
        | cons c before =>
            cases split
            obtain ⟨u, step, run⟩ := sys.run_cons.mp run
            exact ih.mp (rest u step) before a after m rfl run
      · refine fun each => ⟨each [] b as s rfl rfl, fun u step => ih.mpr fun before a after m split run => ?_⟩
        exact each (b :: before) a after m (congrArg (b :: ·) split) (sys.run_cons.mpr ⟨u, step, run⟩)

variable {sys} in
theorem Throughout.append {p : State S Tid Op Res Shared → Action Tid Op Choice Env → Prop}
    {s m : State S Tid Op Res Shared} {as bs : List (Action Tid Op Choice Env)} (run : sys.run s as = some m)
    (first : sys.Throughout p s as) (rest : sys.Throughout p m bs) : sys.Throughout p s (as ++ bs) := by
  induction as generalizing s with
  | nil =>
      cases run
      exact rest
  | cons a as ih =>
      obtain ⟨u, step, later⟩ := sys.run_cons.mp run
      refine ⟨first.1, fun s' step' => ?_⟩
      rw [step] at step'
      cases step'
      exact ih later (first.2 u step)

end System
end Concurrency
