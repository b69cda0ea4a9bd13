import Sherman.Concurrency.Interleaving
import Mathlib.Logic.Function.Basic

/-!
# Linearizability

A history is linearizable with respect to a sequential object when each of its operations can be given
a point between its invocation and its return at which it takes effect.
-/

namespace Concurrency

variable {Tid Op Res σ : Type} [DecidableEq Tid]

/-- `Linearizable apply s calls es`: the object is in state `s`, the operations `calls` are running, those
with a result have taken effect, and the rest `es` of the history can be explained. -/
inductive Linearizable (apply : Op → σ → Res × σ) :
    σ → (Tid → Option (Op × Option Res)) → List (Event Tid Op Res) → Prop where
  | nil {s : σ} {calls : Tid → Option (Op × Option Res)} : Linearizable apply s calls []
  | invoke {s : σ} {calls : Tid → Option (Op × Option Res)} {t : Tid} {op : Op}
      {es : List (Event Tid Op Res)} (unused : calls t = none)
      (rest : Linearizable apply s (Function.update calls t (some (op, none))) es) :
      Linearizable apply s calls (.invoke t op :: es)
  | effect {s : σ} {calls : Tid → Option (Op × Option Res)} {t : Tid} {op : Op}
      {es : List (Event Tid Op Res)} (running : calls t = some (op, none))
      (rest : Linearizable apply (apply op s).2 (Function.update calls t (some (op, some (apply op s).1))) es) :
      Linearizable apply s calls es
  | respond {s : σ} {calls : Tid → Option (Op × Option Res)} {t : Tid} {op : Op} {r : Res}
      {es : List (Event Tid Op Res)} (done : calls t = some (op, some r))
      (rest : Linearizable apply s (Function.update calls t none) es) :
      Linearizable apply s calls (.respond t op r :: es)

namespace Linearizable
variable {apply : Op → σ → Res × σ} {s : σ} {calls : Tid → Option (Op × Option Res)}
  {es : List (Event Tid Op Res)} {t : Tid} {op : Op} {r : Res}

def Keeps (apply : Op → σ → Res × σ) (P : σ → (Tid → Option (Op × Option Res)) → Prop) : Prop :=
  ∀ s calls t op, P s calls → calls t = some (op, none) →
    P (apply op s).2 (Function.update calls t (some (op, some (apply op s).1)))

theorem of_invoke {P : σ → (Tid → Option (Op × Option Res)) → Prop} (keeps : Keeps apply P) (start : P s calls)
    (h : Linearizable apply s calls (.invoke t op :: es)) : ∃ s' calls', P s' calls' ∧
      calls' t = none ∧ Linearizable apply s' (Function.update calls' t (some (op, none))) es := by
  generalize shape : Event.invoke t op :: es = events at h
  induction h with
  | nil => cases shape
  | invoke unused rest ih =>
      cases shape
      exact ⟨_, _, start, unused, rest⟩
  | effect running rest ih => exact ih (keeps _ _ _ _ start running) shape
  | respond done rest ih => cases shape

theorem of_respond {P : σ → (Tid → Option (Op × Option Res)) → Prop} (keeps : Keeps apply P)
    (start : P s calls) (h : Linearizable apply s calls (.respond t op r :: es)) : ∃ s' calls', P s' calls' ∧
      calls' t = some (op, some r) ∧ Linearizable apply s' (Function.update calls' t none) es := by
  generalize shape : Event.respond t op r :: es = events at h
  induction h with
  | nil => cases shape
  | invoke unused rest ih => cases shape
  | effect running rest ih => exact ih (keeps _ _ _ _ start running) shape
  | respond done rest ih =>
      cases shape
      exact ⟨_, _, start, done, rest⟩

end Linearizable
end Concurrency
