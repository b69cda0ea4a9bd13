import Sherman.Concurrency.Interleaving
import Sherman.Concurrency.Walk

/-!
# Monitors

A monitor is an automaton that watches the verbs of one thread and stops at a verb that is not allowed.
When all bodies and operations follow it, from and back to its resting states, it never stops in a run,
whatever the shared state and the other threads do.
-/

namespace Concurrency

structure Monitor (S : Signature) (M : Type) where
  next : M → (v : S.Verb) → S.Resp v → Option M
  rest : M → Prop

namespace Monitor
variable {S : Signature} {M α : Type} (monitor : Monitor S M)

def walk : Walk S M where
  step h v r h' := monitor.next h v r = some h'
  calls h _ := monitor.rest h
  back _ _ _ h' := monitor.rest h'

abbrev Follows (m : Program S α) (h : M) (Q : α → M → Prop) : Prop := monitor.walk.Follows m h Q

variable {monitor} in
theorem next_of_follows {v : S.Verb} {next : S.Resp v → Program S α} {h : M} {Q : α → M → Prop}
    (follows : monitor.Follows (.verb v next) h Q) (r : S.Resp v) :
    ∃ h', monitor.next h v r = some h' ∧ monitor.Follows (next r) h' Q := follows r

/-! ## Runs -/

variable {Tid Op Res Shared Choice Env : Type} [DecidableEq Tid]

def watch (sys : System S Tid Op Res Shared Choice Env) (s : State S Tid Op Res Shared) (hs : Tid → M) :
    Action Tid Op Choice Env → Option (Tid → M)
  | .advance t choice => match s.threads t with
      | .running _ (.verb v _) => match sys.perform t v choice s.shared with
          | some (r, _) => (monitor.next (hs t) v r).map fun h => fun u => if u = t then h else hs u
          | none => some hs
      | _ => some hs
  | _ => some hs

def watchRun (sys : System S Tid Op Res Shared Choice Env) (s : State S Tid Op Res Shared) (hs : Tid → M) :
    List (Action Tid Op Choice Env) → Option (Tid → M)
  | [] => some hs
  | a :: as => match sys.step s a, monitor.watch sys s hs a with
      | some s', some hs' => watchRun sys s' hs' as
      | _, _ => none

structure Followed (sys : System S Tid Op Res Shared Choice Env) : Prop where
  body : ∀ p h, monitor.rest h → monitor.Follows (sys.body p) h fun _ h' => monitor.rest h'
  main : ∀ op h, monitor.rest h → monitor.Follows (sys.main op) h fun _ h' => monitor.rest h'

def Fits (s : State S Tid Op Res Shared) (hs : Tid → M) : Prop :=
  ∀ t, match s.threads t with
    | .idle => monitor.rest (hs t)
    | .running _ m => monitor.Follows m (hs t) fun _ h => monitor.rest h

variable {monitor} {sys : System S Tid Op Res Shared Choice Env} {s s' : State S Tid Op Res Shared} {hs : Tid → M}

theorem Fits.update (fits : monitor.Fits s hs) {t : Tid} {shared : Shared} {thread : Thread S Op Res} {hs' : Tid → M}
    (others : ∀ u, u ≠ t → hs' u = hs u)
    (own : match thread with
      | .idle => monitor.rest (hs' t)
      | .running _ m => monitor.Follows m (hs' t) fun _ h => monitor.rest h) :
    monitor.Fits (State.setThread { s with shared := shared } t thread) hs' := by
  intro u
  by_cases same : u = t
  · subst same
    rwa [State.setThread_same]
  · rw [State.setThread_other _ same, others u same]
    exact fits u

theorem fits_step (followed : monitor.Followed sys) (fits : monitor.Fits s hs) {a : Action Tid Op Choice Env}
    (step : sys.step s a = some s') : ∃ hs', monitor.watch sys s hs a = some hs' ∧ monitor.Fits s' hs' := by
  cases a with
  | invoke t op =>
      simp only [System.step] at step
      cases thread : s.threads t with
      | running op rest => simp [thread] at step
      | idle =>
          simp only [thread, Option.some.injEq] at step
          subst step
          have own := fits t
          simp only [thread] at own
          exact ⟨hs, rfl, fits.update (fun _ _ => rfl) (followed.main op _ own)⟩
  | advance t choice =>
      simp only [System.step] at step
      cases thread : s.threads t with
      | idle => simp [thread] at step
      | running op rest =>
          simp only [thread] at step
          have own := fits t
          simp only [thread] at own
          simp only [watch, thread]
          cases rest with
          | ret r => simp [System.advance] at step
          | fault e => simp [System.advance] at step
          | verb v next =>
              simp only [System.advance] at step
              cases result : sys.perform t v choice s.shared with
              | none => simp [result] at step
              | some pair =>
                  obtain ⟨r, shared⟩ := pair
                  simp only [result, Option.some.injEq] at step
                  subst step
                  obtain ⟨h, allowed, tail⟩ := next_of_follows own r
                  refine ⟨fun u => if u = t then h else hs u, ?_, fits.update (fun u other => if_neg other) ?_⟩
                  · simp only [result, allowed, Option.map_some]
                  · simpa using tail
          | call p next =>
              simp only [System.advance, Option.some.injEq] at step
              subst step
              refine ⟨hs, rfl, fits.update (fun _ _ => rfl) (Walk.Follows.bind ?_)⟩
              exact (followed.body p _ own.1).mono fun r h resting => own.2 r h resting
  | respond t =>
      simp only [System.step] at step
      cases thread : s.threads t with
      | idle => simp [thread] at step
      | running op rest =>
          have own := fits t
          simp only [thread] at own
          cases rest with
          | fault e => simp [thread] at step
          | verb v next => simp [thread] at step
          | call p next => simp [thread] at step
          | ret r =>
              simp only [thread, Option.some.injEq] at step
              subst step
              exact ⟨hs, rfl, fits.update (fun _ _ => rfl) own⟩
  | interfere e =>
      simp only [System.step] at step
      cases result : sys.interfere e s.shared with
      | none => simp [result] at step
      | some shared =>
          simp only [result, Option.some.injEq] at step
          subst step
          exact ⟨hs, rfl, fits⟩

theorem fits_run (followed : monitor.Followed sys) {as : List (Action Tid Op Choice Env)} (fits : monitor.Fits s hs)
    (run : sys.run s as = some s') : ∃ hs', monitor.watchRun sys s hs as = some hs' ∧ monitor.Fits s' hs' := by
  induction as generalizing s hs with
  | nil =>
      simp only [System.run, Option.some.injEq] at run
      exact ⟨hs, rfl, run ▸ fits⟩
  | cons a as ih =>
      obtain ⟨m, step, rest⟩ := sys.run_cons.mp run
      obtain ⟨hs₁, watched, fits₁⟩ := fits_step followed fits step
      obtain ⟨hs₂, watched₂, fits₂⟩ := ih fits₁ rest
      exact ⟨hs₂, by simp only [watchRun, step, watched, watched₂], fits₂⟩

end Monitor
end Concurrency
