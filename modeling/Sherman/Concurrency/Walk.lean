import Sherman.Concurrency.Program

/-!
# Walking through a program

A walk carries a note along the verbs and calls of a program. What holds along the walk is shown once, and
passes to every other walk whose notes it determines.
-/

namespace Concurrency

structure Walk (S : Signature) (M : Type) where
  step : M → (v : S.Verb) → S.Resp v → M → Prop
  calls : M → S.Proc → Prop
  back : M → (p : S.Proc) → S.Ret p → M → Prop

namespace Walk
variable {S : Signature} {M M' α β : Type} (walk : Walk S M)

/-- Whatever the responses, `m` can be walked from note `n`, and ends with notes that satisfy `Q`. -/
def Follows : Program S α → M → (α → M → Prop) → Prop
  | .ret value, n, Q => Q value n
  | .fault _, _, _ => True
  | .verb v next, n, Q => ∀ r, ∃ n', walk.step n v r n' ∧ Follows (next r) n' Q
  | .call p next, n, Q => walk.calls n p ∧ ∀ r n', walk.back n p r n' → Follows (next r) n' Q

variable {walk}

theorem Follows.mono {m : Program S α} {n : M} {Q Q' : α → M → Prop} (follows : walk.Follows m n Q)
    (imp : ∀ value n, Q value n → Q' value n) : walk.Follows m n Q' := by
  induction m generalizing n with
  | ret value => exact imp value n follows
  | fault error => trivial
  | verb v next ih =>
      intro r
      obtain ⟨n', step, tail⟩ := follows r
      exact ⟨n', step, ih r tail⟩
  | call p next ih => exact ⟨follows.1, fun r n' back => ih r (follows.2 r n' back)⟩

theorem Follows.bind {m : Program S α} {rest : α → Program S β} {n : M} {Q : β → M → Prop}
    (follows : walk.Follows m n fun value n' => walk.Follows (rest value) n' Q) :
    walk.Follows (m.bind rest) n Q := by
  induction m generalizing n with
  | ret value => exact follows
  | fault error => trivial
  | verb v next ih =>
      intro r
      obtain ⟨n', step, tail⟩ := follows r
      exact ⟨n', step, ih r tail⟩
  | call p next ih => exact ⟨follows.1, fun r n' back => ih r (follows.2 r n' back)⟩

theorem follows_check {condition : Prop} [Decidable condition] {error : S.Fault} {n : M} {Q : Unit → M → Prop}
    (holds : condition → Q () n) : walk.Follows (Program.check condition error) n Q := by
  unfold Program.check
  split
  · rename_i true_
    exact holds true_
  · trivial

theorem follows_ofExcept {e : Except S.Fault α} {n : M} {Q : α → M → Prop}
    (holds : ∀ value, e = .ok value → Q value n) : walk.Follows (Program.ofExcept e) n Q := by
  cases e with
  | error error => trivial
  | ok value => exact holds value rfl

theorem Follows.simulate {walk' : Walk S M'} {R : M → M' → Prop}
    (step : ∀ n n₁ h v r, R n h → walk.step n v r n₁ → ∃ h₁, walk'.step h v r h₁ ∧ R n₁ h₁)
    (calls : ∀ n h p, R n h → walk.calls n p → walk'.calls h p)
    (back : ∀ n h p r h₁, R n h → walk.calls n p → walk'.back h p r h₁ → ∃ n₁, walk.back n p r n₁ ∧ R n₁ h₁)
    {m : Program S α} {n : M} {h : M'} {Q : α → M → Prop} (follows : walk.Follows m n Q) (start : R n h) :
    walk'.Follows m h fun value h' => ∃ n', R n' h' ∧ Q value n' := by
  induction m generalizing n h with
  | ret value => exact ⟨n, start, follows⟩
  | fault error => trivial
  | verb v next ih =>
      intro r
      obtain ⟨n₁, walked, tail⟩ := follows r
      obtain ⟨h₁, walked', start₁⟩ := step n n₁ h v r start walked
      exact ⟨h₁, walked', ih r tail start₁⟩
  | call p next ih =>
      refine ⟨calls n h p start follows.1, fun r h₁ returned => ?_⟩
      obtain ⟨n₁, returned', start₁⟩ := back n h p r h₁ start follows.1 returned
      exact ih r (follows.2 r n₁ returned') start₁

end Walk
end Concurrency
