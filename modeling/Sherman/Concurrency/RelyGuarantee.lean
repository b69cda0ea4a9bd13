import Sherman.Concurrency.Interleaving

/-!
# Rely-guarantee reasoning about interleaved programs

A protocol extends the shared state with a ghost state and gives an invariant, the interference
`rely t` thread `t` must tolerate between its own verbs, and the effect `guar t v` its verb `v` may
have. The weakest precondition `wp` of a program is closed under interference, so that the
preconditions of all running threads survive each other's steps.
-/

namespace Concurrency

structure Protocol (S : Signature) (Tid Op Res Shared Ghost Env : Type) where
  inv : Shared × Ghost → Prop
  rely : Tid → Shared × Ghost → Shared × Ghost → Prop
  rely_refl : ∀ t w, rely t w w
  rely_trans : ∀ t u v w, rely t u v → rely t v w → rely t u w
  tolerates : S.Fault → Prop
  /-- What is assumed of the schedule before a verb, call, invocation or return. -/
  mayVerb : Tid → S.Verb → Shared → Prop
  mayCall : Tid → S.Proc → Shared → Prop
  mayInvoke : Tid → Op → Shared → Prop
  mayRespond : Tid → Shared → Prop
  guar : Tid → S.Verb → Shared × Ghost → Shared × Ghost → Prop
  onInvoke : Tid → Op → Shared × Ghost → Shared × Ghost → Prop
  onRespond : Tid → Op → Res → Shared × Ghost → Shared × Ghost → Prop
  onInterfere : Env → Shared × Ghost → Shared × Ghost → Prop
  pre : Tid → S.Proc → Shared × Ghost → Prop
  post : Tid → (p : S.Proc) → Shared × Ghost → S.Ret p → Shared × Ghost → Prop
  idle : Tid → Shared × Ghost → Prop
  active : Tid → Op → Shared × Ghost → Prop
  started : Tid → Op → Shared × Ghost → Prop
  finished : Tid → Op → Res → Shared × Ghost → Prop

variable {S : Signature} {Tid Op Res Shared Ghost Choice Env : Type}

namespace Protocol
variable (P : Protocol S Tid Op Res Shared Ghost Env)
variable (sys : System S Tid Op Res Shared Choice Env)

/-- `wp t m Q w`: from world `w`, under interference, thread `t` runs `m` within the protocol and
ends only in worlds satisfying `Q`. -/
def wp {α : Type} (t : Tid) :
    Program S α → (α → Shared × Ghost → Prop) → Shared × Ghost → Prop
  | .ret value, Q, w => ∀ w', P.rely t w w' → P.inv w' → Q value w'
  | .fault error, _, w => ∀ w', P.rely t w w' → P.inv w' → P.tolerates error
  | .verb v next, Q, w => ∀ w', P.rely t w w' → P.inv w' → P.mayVerb t v w'.1 →
      ∀ choice r s, sys.perform t v choice w'.1 = some (r, s) →
        ∃ g, P.guar t v w' (s, g) ∧ wp t (next r) Q (s, g)
  | .call p next, Q, w => ∀ w', P.rely t w w' → P.inv w' → P.mayCall t p w'.1 →
      P.pre t p w' ∧ ∀ r w'', P.post t p w' r w'' → wp t (next r) Q w''

variable {P sys}

theorem wp_rely {α : Type} {t : Tid} {m : Program S α} {Q : α → Shared × Ghost → Prop}
    {w w' : Shared × Ghost} (h : P.wp sys t m Q w) (r : P.rely t w w') : P.wp sys t m Q w' := by
  cases m with
  | ret value => exact fun w'' r' => h w'' (P.rely_trans t _ _ _ r r')
  | fault error => exact fun w'' r' => h w'' (P.rely_trans t _ _ _ r r')
  | verb v next => exact fun w'' r' => h w'' (P.rely_trans t _ _ _ r r')
  | call p next => exact fun w'' r' => h w'' (P.rely_trans t _ _ _ r r')

theorem wp_of_rely {α : Type} {t : Tid} {m : Program S α} {Q : α → Shared × Ghost → Prop}
    {w : Shared × Ghost} (h : ∀ w', P.rely t w w' → P.inv w' → P.wp sys t m Q w') :
    P.wp sys t m Q w := by
  cases m with
  | ret value => exact fun w' r i => h w' r i w' (P.rely_refl t w') i
  | fault error => exact fun w' r i => h w' r i w' (P.rely_refl t w') i
  | verb v next => exact fun w' r i => h w' r i w' (P.rely_refl t w') i
  | call p next => exact fun w' r i => h w' r i w' (P.rely_refl t w') i

theorem wp_mono {α : Type} {t : Tid} {m : Program S α} {Q Q' : α → Shared × Ghost → Prop}
    {w : Shared × Ghost} (h : P.wp sys t m Q w) (imp : ∀ a w, P.inv w → Q a w → Q' a w) :
    P.wp sys t m Q' w := by
  induction m generalizing w with
  | ret value => exact fun w' r i => imp _ _ i (h w' r i)
  | fault error => exact h
  | verb v next ih =>
      intro w' r i may choice resp s perform
      obtain ⟨g, guar, rest⟩ := h w' r i may choice resp s perform
      exact ⟨g, guar, ih resp rest⟩
  | call p next ih =>
      intro w' r i may
      obtain ⟨pre, rest⟩ := h w' r i may
      exact ⟨pre, fun resp w'' post => ih resp (rest resp w'' post)⟩

theorem wp_bind {α β : Type} {t : Tid} {m : Program S α} {rest : α → Program S β}
    {Q : β → Shared × Ghost → Prop} {w : Shared × Ghost}
    (h : P.wp sys t m (fun a w => P.wp sys t (rest a) Q w) w) : P.wp sys t (m.bind rest) Q w := by
  induction m generalizing w with
  | ret value => exact wp_of_rely h
  | fault error => exact h
  | verb v next ih =>
      intro w' r i may choice resp s perform
      obtain ⟨g, guar, tail⟩ := h w' r i may choice resp s perform
      exact ⟨g, guar, ih resp tail⟩
  | call p next ih =>
      intro w' r i may
      obtain ⟨pre, tail⟩ := h w' r i may
      exact ⟨pre, fun resp w'' post => ih resp (tail resp w'' post)⟩

/-! ## Soundness -/

variable (P sys)

/-- The obligations of a protocol: every kind of step keeps the invariant and stays within the
interference the other threads expect, and every procedure meets its contract. -/
structure Sound : Prop where
  guar_inv : ∀ t v w w', P.guar t v w w' → P.inv w'
  guar_rely : ∀ t v w w', P.guar t v w w' → ∀ u, u ≠ t → P.rely u w w'
  guar_active : ∀ t v op w w', P.guar t v w w' → P.active t op w → P.active t op w'
  rely_active : ∀ t op w w', P.rely t w w' → P.active t op w → P.active t op w'
  rely_idle : ∀ t w w', P.rely t w w' → P.idle t w → P.idle t w'
  invoke : ∀ t op w, P.inv w → P.idle t w → P.mayInvoke t op w.1 → ∃ g,
    P.inv (w.1, g) ∧ (∀ u, u ≠ t → P.rely u w (w.1, g)) ∧ P.onInvoke t op w (w.1, g) ∧
      P.active t op (w.1, g) ∧ P.started t op (w.1, g)
  respond : ∀ t op r w, P.inv w → P.active t op w → P.finished t op r w → P.mayRespond t w.1 → ∃ g,
    P.inv (w.1, g) ∧ (∀ u, u ≠ t → P.rely u w (w.1, g)) ∧ P.onRespond t op r w (w.1, g) ∧
      P.idle t (w.1, g)
  interfere : ∀ e w s, P.inv w → sys.interfere e w.1 = some s → ∃ g,
    P.inv (s, g) ∧ (∀ u, P.rely u w (s, g)) ∧ P.onInterfere e w (s, g)
  main : ∀ t op w, P.inv w → P.active t op w → P.started t op w →
    P.wp sys t (sys.main op) (P.finished t op) w
  proc : ∀ t p w, P.inv w → P.pre t p w → P.mayCall t p w.1 →
    P.wp sys t (sys.body p) (P.post t p w) w

def Good (s : State S Tid Op Res Shared) (g : Ghost) : Prop :=
  P.inv (s.shared, g) ∧ ∀ t, match s.threads t with
    | .idle => P.idle t (s.shared, g)
    | .running op rest => P.active t op (s.shared, g) ∧
        P.wp sys t rest (P.finished t op) (s.shared, g)

def May (s : State S Tid Op Res Shared) : Action Tid Op Choice Env → Prop
  | .invoke t op => P.mayInvoke t op s.shared
  | .advance t _ => match s.threads t with
      | .running _ (.verb v _) => P.mayVerb t v s.shared
      | .running _ (.call p _) => P.mayCall t p s.shared
      | _ => True
  | .respond t => P.mayRespond t s.shared
  | .interfere _ => True

def Effect (s : State S Tid Op Res Shared) (w w' : Shared × Ghost) : Action Tid Op Choice Env → Prop
  | .invoke t op => P.onInvoke t op w w'
  | .advance t _ => match s.threads t with
      | .running op (.verb v _) => P.active t op w ∧ P.guar t v w w'
      | _ => w' = w
  | .respond t => ∃ op r, s.threads t = .running op (.ret r) ∧ P.active t op w ∧
      P.finished t op r w ∧ P.onRespond t op r w w'
  | .interfere e => P.onInterfere e w w'

variable {P sys}

theorem Good.thread {s : State S Tid Op Res Shared} {g : Ghost} (good : P.Good sys s g) {t : Tid}
    {op : Op} {rest : Program S Res} (h : s.threads t = .running op rest) :
    P.active t op (s.shared, g) ∧ P.wp sys t rest (P.finished t op) (s.shared, g) := by
  have := good.2 t
  simpa only [h] using this

theorem Good.of_idle {s : State S Tid Op Res Shared} {g : Ghost} (good : P.Good sys s g) {t : Tid}
    (h : s.threads t = .idle) : P.idle t (s.shared, g) := by
  have := good.2 t
  simpa only [h] using this

theorem Good.rely (sound : P.Sound sys) {s : State S Tid Op Res Shared} {g : Ghost}
    (good : P.Good sys s g) {shared : Shared} {g' : Ghost} {t : Tid}
    (r : P.rely t (s.shared, g) (shared, g')) :
    match s.threads t with
    | .idle => P.idle t (shared, g')
    | .running op rest => P.active t op (shared, g') ∧
        P.wp sys t rest (P.finished t op) (shared, g') := by
  have h := good.2 t
  cases thread : s.threads t with
  | idle =>
      simp only [thread] at h ⊢
      exact sound.rely_idle t _ _ r h
  | running op rest =>
      simp only [thread] at h ⊢
      exact ⟨sound.rely_active t op _ _ r h.1, wp_rely h.2 r⟩

theorem Good.fault {s : State S Tid Op Res Shared} {g : Ghost} (good : P.Good sys s g) {t : Tid}
    {op : Op} {error : S.Fault} (h : s.threads t = .running op (.fault error)) :
    P.tolerates error :=
  (good.thread h).2 _ (P.rely_refl t _) good.1

variable [DecidableEq Tid]

theorem Good.update (sound : P.Sound sys) {s : State S Tid Op Res Shared} {g : Ghost}
    (good : P.Good sys s g) {shared : Shared} {g' : Ghost} {t : Tid} {thread : Thread S Op Res}
    (inv : P.inv (shared, g')) (others : ∀ u, u ≠ t → P.rely u (s.shared, g) (shared, g'))
    (own : match thread with
      | .idle => P.idle t (shared, g')
      | .running op rest => P.active t op (shared, g') ∧
          P.wp sys t rest (P.finished t op) (shared, g')) :
    P.Good sys (State.setThread { s with shared := shared } t thread) g' := by
  refine ⟨inv, fun u => ?_⟩
  by_cases same : u = t
  · subst same
    simpa using own
  · rw [State.setThread_other _ same]
    exact good.rely sound (others u same)

theorem good_step (sound : P.Sound sys) {s s' : State S Tid Op Res Shared} {g : Ghost}
    {a : Action Tid Op Choice Env} (good : P.Good sys s g) (may : P.May s a)
    (step : sys.step s a = some s') :
    ∃ g', P.Good sys s' g' ∧ P.Effect s (s.shared, g) (s'.shared, g') a ∧
      ∀ u, a.thread? ≠ some u → P.rely u (s.shared, g) (s'.shared, g') := by
  have otherwise : ∀ {t u : Tid}, some t ≠ some u → u ≠ t := fun other same => other (congrArg some same.symm)
  cases a with
  | invoke t op =>
      simp only [System.step] at step
      cases thread : s.threads t with
      | running op rest => simp [thread] at step
      | idle =>
          simp only [thread, Option.some.injEq] at step
          subst step
          obtain ⟨g', inv, others, effect, active, started⟩ :=
            sound.invoke t op _ good.1 (good.of_idle thread) may
          exact ⟨g', good.update sound inv others
            ⟨active, sound.main t op _ inv active started⟩, effect, fun u other => others u (otherwise other)⟩
  | advance t choice =>
      simp only [System.step] at step
      cases thread : s.threads t with
      | idle => simp [thread] at step
      | running op rest =>
          simp only [thread] at step
          obtain ⟨active, wp⟩ := good.thread thread
          simp only [May, thread] at may
          simp only [Effect, thread]
          cases rest with
          | ret r => simp [System.advance] at step
          | fault e => simp [System.advance] at step
          | verb v next =>
              simp only [System.advance] at step
              cases result : sys.perform t v choice s.shared with
              | none => simp [result] at step
              | some pair =>
                  obtain ⟨r, shared⟩ := pair
                  simp only [result, Option.some.injEq] at step
                  subst step
                  obtain ⟨g', guar, tail⟩ := wp _ (P.rely_refl t _) good.1 may choice r shared result
                  exact ⟨g', good.update sound (sound.guar_inv _ _ _ _ guar)
                    (sound.guar_rely _ _ _ _ guar)
                    ⟨sound.guar_active _ _ _ _ _ guar active, tail⟩, ⟨active, guar⟩,
                    fun u other => sound.guar_rely _ _ _ _ guar u (otherwise other)⟩
          | call p next =>
              simp only [System.advance, Option.some.injEq] at step
              subst step
              obtain ⟨pre, tail⟩ := wp _ (P.rely_refl t _) good.1 may
              refine ⟨g, good.update sound good.1 (fun u _ => P.rely_refl u _)
                ⟨active, wp_bind (wp_mono (sound.proc t p _ good.1 pre may) ?_)⟩, rfl,
                fun u _ => P.rely_refl u _⟩
              exact fun r w _ post => tail r w post
  | respond t =>
      simp only [System.step] at step
      cases thread : s.threads t with
      | idle => simp [thread] at step
      | running op rest =>
          cases rest with
          | fault e => simp [thread] at step
          | verb v next => simp [thread] at step
          | call p next => simp [thread] at step
          | ret r =>
              simp only [thread, Option.some.injEq] at step
              subst step
              obtain ⟨active, wp⟩ := good.thread thread
              have finished := wp _ (P.rely_refl t _) good.1
              obtain ⟨g', inv, others, effect, idle⟩ :=
                sound.respond t op r _ good.1 active finished may
              exact ⟨g', good.update sound inv others idle, ⟨op, r, thread, active, finished, effect⟩,
                fun u other => others u (otherwise other)⟩
  | interfere e =>
      simp only [System.step] at step
      cases result : sys.interfere e s.shared with
      | none => simp [result] at step
      | some shared =>
          simp only [result, Option.some.injEq] at step
          subst step
          obtain ⟨g', inv, others, effect⟩ := sound.interfere e _ _ good.1 result
          exact ⟨g', ⟨inv, fun u => good.rely sound (others u)⟩, effect, fun u _ => others u⟩

/-- A run of the other threads stays within the interference a thread expects. -/
theorem good_run_rely (sound : P.Sound sys) {s s' : State S Tid Op Res Shared} {g : Ghost}
    {as : List (Action Tid Op Choice Env)} {u : Tid} (good : P.Good sys s g)
    (may : sys.Throughout P.May s as) (others : ∀ a ∈ as, a.thread? ≠ some u) (run : sys.run s as = some s') :
    ∃ g', P.Good sys s' g' ∧ P.rely u (s.shared, g) (s'.shared, g') := by
  induction as generalizing s g with
  | nil =>
      simp only [System.run, Option.some.injEq] at run
      subst run
      exact ⟨g, good, P.rely_refl u _⟩
  | cons a as ih =>
      obtain ⟨m, step, rest⟩ := (sys.run_cons).mp run
      obtain ⟨g', good', -, rely⟩ := good_step sound good may.1 step
      obtain ⟨g'', good'', rely'⟩ := ih good' (may.2 m step)
        (fun b later => others b (List.mem_cons_of_mem a later)) rest
      exact ⟨g'', good'', P.rely_trans u _ _ _ (rely u (others a (List.mem_cons_self ..))) rely'⟩

theorem good_run (sound : P.Sound sys) {s s' : State S Tid Op Res Shared} {g : Ghost}
    {as : List (Action Tid Op Choice Env)} (good : P.Good sys s g)
    (may : sys.Throughout P.May s as) (run : sys.run s as = some s') :
    ∃ g', P.Good sys s' g' := by
  induction as generalizing s g with
  | nil =>
      simp only [System.run, Option.some.injEq] at run
      exact run ▸ ⟨g, good⟩
  | cons a as ih =>
      obtain ⟨m, step, rest⟩ := (sys.run_cons).mp run
      obtain ⟨g', good', -⟩ := good_step sound good may.1 step
      exact ih good' (may.2 m step) rest

end Protocol
end Concurrency
