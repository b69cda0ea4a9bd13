import Sherman.Concurrency.Linearizability
import Sherman.Concurrency.RelyGuarantee

namespace Concurrency

variable {Tid Op Res σ : Type} [DecidableEq Tid]

inductive Effects (apply : Op → σ → Res × σ) (s : σ) (calls : Tid → Option (Op × Option Res)) :
    σ → (Tid → Option (Op × Option Res)) → Prop where
  | unseen : Effects apply s calls s calls
  | effect {t : Tid} {op : Op} (running : calls t = some (op, none)) :
      Effects apply s calls (apply op s).2 (Function.update calls t (some (op, some (apply op s).1)))

theorem Effects.linearizable {apply : Op → σ → Res × σ} {s s' : σ} {calls calls' : Tid → Option (Op × Option Res)}
    {es : List (Event Tid Op Res)} (effects : Effects apply s calls s' calls')
    (rest : Linearizable apply s' calls' es) : Linearizable apply s calls es := by
  cases effects with
  | unseen => exact rest
  | effect running => exact .effect running rest

/-- A history of an object is one of every object that simulates it. -/
theorem Linearizable.simulate {τ : Type} {apply : Op → σ → Res × σ} {apply' : Op → τ → Res × τ} {R : σ → τ → Prop}
    (simulates : ∀ op s u, R s u → (apply' op u).1 = (apply op s).1 ∧ R (apply op s).2 (apply' op u).2)
    {s : σ} {u : τ} {calls : Tid → Option (Op × Option Res)} {es : List (Event Tid Op Res)} (related : R s u)
    (h : Linearizable apply s calls es) : Linearizable apply' u calls es := by
  induction h generalizing u with
  | nil => exact .nil
  | invoke unused _ ih => exact .invoke unused (ih related)
  | @effect s calls t op es running _ ih =>
      obtain ⟨result, next⟩ := simulates op s u related
      refine .effect running ?_
      rw [result]
      exact ih next
  | respond done _ ih => exact .respond done (ih related)

namespace Protocol
variable {S : Signature} {Shared Ghost Choice Env : Type}
variable {P : Protocol S Tid Op Res Shared Ghost Env} {sys : System S Tid Op Res Shared Choice Env}
variable (apply : Op → σ → Res × σ) (object : Shared × Ghost → σ)
  (calls : Shared × Ghost → Tid → Option (Op × Option Res))

structure Linearizes (P : Protocol S Tid Op Res Shared Ghost Env) : Prop where
  invoke : ∀ t op w w', P.onInvoke t op w w' → calls w t = none ∧ object w' = object w ∧
    calls w' = Function.update (calls w) t (some (op, none))
  verb : ∀ t op v w w', P.active t op w → P.guar t v w w' →
    Effects apply (object w) (calls w) (object w') (calls w')
  respond : ∀ t op r w w', P.inv w → P.finished t op r w → P.onRespond t op r w w' →
    ∃ calls', Effects apply (object w) (calls w) (object w') calls' ∧ calls' t = some (op, some r) ∧
      calls w' = Function.update calls' t none
  interfere : ∀ e w w', P.onInterfere e w w' → Effects apply (object w) (calls w) (object w') (calls w')

variable {apply object calls}

theorem Linearizes.linearizable_run (points : Linearizes apply object calls P) (sound : P.Sound sys)
    {s : State S Tid Op Res Shared} {g : Ghost} {as : List (Action Tid Op Choice Env)} (good : P.Good sys s g)
    (may : sys.Throughout P.May s as) :
    Linearizable apply (object (s.shared, g)) (calls (s.shared, g)) (sys.history s as) := by
  induction as generalizing s g with
  | nil => exact .nil
  | cons a as ih =>
      simp only [System.history]
      split
      · exact .nil
      · rename_i s' step
        obtain ⟨g', good', effect, -⟩ := good_step sound good may.1 step
        have rest := ih good' (may.2 s' step)
        cases a with
        | invoke t op =>
            obtain ⟨unused, same, started⟩ := points.invoke t op _ _ effect
            rw [same, started] at rest
            exact .invoke unused rest
        | advance t choice =>
            simp only [Effect] at effect
            split at effect
            · exact (points.verb t _ _ _ _ effect.1 effect.2).linearizable rest
            · rw [effect] at rest
              exact rest
        | respond t =>
            obtain ⟨op, r, thread, -, finished, effect⟩ := effect
            obtain ⟨calls', effects, done, returned⟩ := points.respond t op r _ _ good.1 finished effect
            rw [returned] at rest
            simp only [System.events, thread]
            exact effects.linearizable (.respond done rest)
        | interfere e => exact (points.interfere e _ _ effect).linearizable rest

end Protocol
end Concurrency
