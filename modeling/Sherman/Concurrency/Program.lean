import Mathlib.Init

/-!
# Programs over an interface of atomic verbs

A program is a tree of atomic verbs and calls of named procedures. Loops and recursion go through
`call`, whose body is looked up only when the call is executed, so no fuel is needed.
-/

namespace Concurrency

/-- What a program may do: atomic verbs with their responses, procedures, and faults. -/
structure Signature where
  Verb : Type
  Resp : Verb → Type
  Proc : Type
  Ret : Proc → Type
  Fault : Type

inductive Program (S : Signature) (α : Type) : Type where
  | ret (value : α)
  | fault (error : S.Fault)
  | verb (v : S.Verb) (next : S.Resp v → Program S α)
  | call (p : S.Proc) (next : S.Ret p → Program S α)

namespace Program
variable {S : Signature} {α β : Type}

def bind : Program S α → (α → Program S β) → Program S β
  | .ret value, rest => rest value
  | .fault error, _ => .fault error
  | .verb v next, rest => .verb v fun r => (next r).bind rest
  | .call p next, rest => .call p fun r => (next r).bind rest

instance : Monad (Program S) where
  pure := .ret
  bind := bind

@[simp] theorem pure_eq (value : α) : (Pure.pure value : Program S α) = .ret value := rfl

@[simp] theorem bind_eq (m : Program S α) (rest : α → Program S β) : m >>= rest = m.bind rest := rfl

@[simp] theorem ret_bind (value : α) (rest : α → Program S β) :
    (Program.ret value : Program S α).bind rest = rest value := rfl

@[simp] theorem fault_bind (error : S.Fault) (rest : α → Program S β) :
    (Program.fault error : Program S α).bind rest = .fault error := rfl

@[simp] theorem verb_bind (v : S.Verb) (next : S.Resp v → Program S α) (rest : α → Program S β) :
    (Program.verb v next).bind rest = .verb v fun r => (next r).bind rest := rfl

@[simp] theorem call_bind (p : S.Proc) (next : S.Ret p → Program S α) (rest : α → Program S β) :
    (Program.call p next).bind rest = .call p fun r => (next r).bind rest := rfl

def perform (v : S.Verb) : Program S (S.Resp v) := .verb v .ret

def invoke (p : S.Proc) : Program S (S.Ret p) := .call p .ret

def check (condition : Prop) [Decidable condition] (error : S.Fault) : Program S Unit :=
  if condition then .ret () else .fault error

@[simp] theorem perform_bind (v : S.Verb) (rest : S.Resp v → Program S β) :
    (perform v).bind rest = .verb v rest := rfl

@[simp] theorem invoke_bind (p : S.Proc) (rest : S.Ret p → Program S β) :
    (invoke p).bind rest = .call p rest := rfl

@[simp] theorem check_bind_of {condition : Prop} [Decidable condition] (holds : condition)
    (error : S.Fault) (rest : Unit → Program S β) :
    (check condition error).bind rest = rest () := by
  simp [check, holds]

def ofExcept : Except S.Fault α → Program S α
  | .ok value => .ret value
  | .error error => .fault error

@[simp] theorem ofExcept_ok (value : α) : (ofExcept (.ok value) : Program S α) = .ret value := rfl

@[simp] theorem ofExcept_error (error : S.Fault) :
    (ofExcept (.error error) : Program S α) = .fault error := rfl

end Program
end Concurrency
