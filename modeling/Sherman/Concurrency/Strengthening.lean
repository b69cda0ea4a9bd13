import Sherman.Concurrency.RelyGuarantee

namespace Concurrency

variable {S : Signature} {Tid Op Res Shared Ghost Choice Env : Type}

namespace Protocol

structure Strengthening (P : Protocol S Tid Op Res Shared Ghost Env) where
  inv : Shared × Ghost → Prop
  rely : Tid → Shared × Ghost → Shared × Ghost → Prop
  rely_refl : ∀ t w, rely t w w
  rely_trans : ∀ t u v w, rely t u v → rely t v w → rely t u w
  mayCall : Tid → S.Proc → Shared → Prop := fun _ _ _ => True
  mayInvoke : Tid → Op → Shared → Prop := fun _ _ _ => True
  pre : Tid → S.Proc → Shared × Ghost → Prop
  post : Tid → (p : S.Proc) → Shared × Ghost → S.Ret p → Shared × Ghost → Prop
  idle : Tid → Shared × Ghost → Prop
  started : Tid → Op → Shared × Ghost → Prop
  finished : Tid → Op → Res → Shared × Ghost → Prop

namespace Strengthening
variable {P : Protocol S Tid Op Res Shared Ghost Env} (A : P.Strengthening)
variable (sys : System S Tid Op Res Shared Choice Env)

def strengthen : Protocol S Tid Op Res Shared Ghost Env where
  inv w := P.inv w ∧ A.inv w
  rely t w w' := P.rely t w w' ∧ A.rely t w w'
  rely_refl t w := ⟨P.rely_refl t w, A.rely_refl t w⟩
  rely_trans t u v w h h' := ⟨P.rely_trans t u v w h.1 h'.1, A.rely_trans t u v w h.2 h'.2⟩
  tolerates := P.tolerates
  mayVerb := P.mayVerb
  mayCall t p s := P.mayCall t p s ∧ A.mayCall t p s
  mayInvoke t op s := P.mayInvoke t op s ∧ A.mayInvoke t op s
  mayRespond := P.mayRespond
  guar t v w w' := P.guar t v w w' ∧ A.inv w' ∧ ∀ u, u ≠ t → A.rely u w w'
  onInvoke := P.onInvoke
  onRespond := P.onRespond
  onInterfere := P.onInterfere
  pre t p w := P.pre t p w ∧ A.pre t p w
  post t p w r w' := P.post t p w r w' ∧ A.post t p w r w'
  idle t w := P.idle t w ∧ A.idle t w
  active := P.active
  started t op w := P.started t op w ∧ A.started t op w
  finished t op r w := P.finished t op r w ∧ A.finished t op r w

/-- `adds t m Q w`: a run of `m` by thread `t` from `w` that keeps the protocol also keeps the further
assertions, and ends only in worlds satisfying `Q`. -/
def adds {α : Type} (t : Tid) : Program S α → (α → Shared × Ghost → Prop) → Shared × Ghost → Prop
  | .ret value, Q, w => ∀ w', P.rely t w w' → A.rely t w w' → P.inv w' → A.inv w' → Q value w'
  | .fault _, _, _ => True
  | .verb v next, Q, w => ∀ w', P.rely t w w' → A.rely t w w' → P.inv w' → A.inv w' →
      P.mayVerb t v w'.1 → ∀ choice r s, sys.perform t v choice w'.1 = some (r, s) →
        ∀ g, P.guar t v w' (s, g) →
          A.inv (s, g) ∧ (∀ u, u ≠ t → A.rely u w' (s, g)) ∧ adds t (next r) Q (s, g)
  | .call p next, Q, w => ∀ w', P.rely t w w' → A.rely t w w' → P.inv w' → A.inv w' →
      P.mayCall t p w'.1 → A.mayCall t p w'.1 → P.pre t p w' →
        A.pre t p w' ∧ ∀ r w'', P.post t p w' r w'' → A.post t p w' r w'' → adds t (next r) Q w''

variable {A sys}
variable {α β : Type} {t : Tid} {m : Program S α} {Q Q' : α → Shared × Ghost → Prop} {w : Shared × Ghost}

theorem adds_of_rely
    (h : ∀ w', P.rely t w w' → A.rely t w w' → P.inv w' → A.inv w' → A.adds sys t m Q w') :
    A.adds sys t m Q w := by
  cases m with
  | ret value => exact fun w' r r' i i' => h w' r r' i i' w' (P.rely_refl t w') (A.rely_refl t w') i i'
  | fault error => trivial
  | verb v next => exact fun w' r r' i i' => h w' r r' i i' w' (P.rely_refl t w') (A.rely_refl t w') i i'
  | call p next => exact fun w' r r' i i' => h w' r r' i i' w' (P.rely_refl t w') (A.rely_refl t w') i i'

theorem adds_mono (h : A.adds sys t m Q w) (imp : ∀ a w, Q a w → Q' a w) : A.adds sys t m Q' w := by
  induction m generalizing w with
  | ret value => exact fun w' r r' i i' => imp value w' (h w' r r' i i')
  | fault error => trivial
  | verb v next ih =>
      intro w' r r' i i' may choice resp s perform g guar
      obtain ⟨inv, others, tail⟩ := h w' r r' i i' may choice resp s perform g guar
      exact ⟨inv, others, ih resp tail⟩
  | call p next ih =>
      intro w' r r' i i' may may' pre
      obtain ⟨pre, tail⟩ := h w' r r' i i' may may' pre
      exact ⟨pre, fun resp w'' post post' => ih resp (tail resp w'' post post')⟩

theorem adds_bind {rest : α → Program S β} {Q : β → Shared × Ghost → Prop}
    (h : A.adds sys t m (fun a w => A.adds sys t (rest a) Q w) w) : A.adds sys t (m.bind rest) Q w := by
  induction m generalizing w with
  | ret value => exact adds_of_rely h
  | fault error => trivial
  | verb v next ih =>
      intro w' r r' i i' may choice resp s perform g guar
      obtain ⟨inv, others, tail⟩ := h w' r r' i i' may choice resp s perform g guar
      exact ⟨inv, others, ih resp tail⟩
  | call p next ih =>
      intro w' r r' i i' may may' pre
      obtain ⟨pre, tail⟩ := h w' r r' i i' may may' pre
      exact ⟨pre, fun resp w'' post post' => ih resp (tail resp w'' post post')⟩

theorem wp_strengthen (h : P.wp sys t m Q w) (h' : A.adds sys t m Q' w) :
    A.strengthen.wp sys t m (fun a w => Q a w ∧ Q' a w) w := by
  induction m generalizing w with
  | ret value => exact fun w' r i => ⟨h w' r.1 i.1, h' w' r.1 r.2 i.1 i.2⟩
  | fault error => exact fun w' r i => h w' r.1 i.1
  | verb v next ih =>
      intro w' r i may choice resp s perform
      obtain ⟨g, guar, rest⟩ := h w' r.1 i.1 may choice resp s perform
      obtain ⟨inv, others, rest'⟩ := h' w' r.1 r.2 i.1 i.2 may choice resp s perform g guar
      exact ⟨g, ⟨guar, inv, others⟩, ih resp rest rest'⟩
  | call p next ih =>
      intro w' r i may
      obtain ⟨pre, rest⟩ := h w' r.1 i.1 may.1
      obtain ⟨pre', rest'⟩ := h' w' r.1 r.2 i.1 i.2 may.1 may.2 pre
      exact ⟨⟨pre, pre'⟩, fun resp w'' post => ih resp (rest resp w'' post.1) (rest' resp w'' post.1 post.2)⟩

variable (A sys)

structure Sound : Prop where
  rely_idle : ∀ t w w', A.rely t w w' → P.rely t w w' → A.idle t w → A.idle t w'
  invoke : ∀ t op w g, P.inv w → A.inv w → A.idle t w → P.mayInvoke t op w.1 → A.mayInvoke t op w.1 →
    P.inv (w.1, g) →
    (∀ u, u ≠ t → P.rely u w (w.1, g)) → P.onInvoke t op w (w.1, g) →
      A.inv (w.1, g) ∧ (∀ u, u ≠ t → A.rely u w (w.1, g)) ∧ A.started t op (w.1, g)
  respond : ∀ t op r w g, P.inv w → A.inv w → A.finished t op r w → P.mayRespond t w.1 → P.inv (w.1, g) →
    (∀ u, u ≠ t → P.rely u w (w.1, g)) → P.onRespond t op r w (w.1, g) →
      A.inv (w.1, g) ∧ (∀ u, u ≠ t → A.rely u w (w.1, g)) ∧ A.idle t (w.1, g)
  interfere : ∀ e w s g, P.inv w → A.inv w → sys.interfere e w.1 = some s → P.inv (s, g) →
    (∀ u, P.rely u w (s, g)) → A.inv (s, g) ∧ ∀ u, A.rely u w (s, g)
  main : ∀ t op w, P.inv w → A.inv w → P.started t op w → A.started t op w →
    A.adds sys t (sys.main op) (A.finished t op) w
  proc : ∀ t p w, P.inv w → A.inv w → P.pre t p w → A.pre t p w → P.mayCall t p w.1 →
    A.adds sys t (sys.body p) (A.post t p w) w

variable {A sys}

theorem strengthen_may {s : State S Tid Op Res Shared} {a : Action Tid Op Choice Env} (may : P.May s a)
    (calls : ∀ t op p next, s.threads t = .running op (.call p next) → A.mayCall t p s.shared)
    (invokes : ∀ t op, a = .invoke t op → A.mayInvoke t op s.shared) : A.strengthen.May s a := by
  cases a with
  | invoke t op => exact ⟨may, invokes t op rfl⟩
  | advance t choice =>
      simp only [May] at may ⊢
      split
      · rename_i thread
        simp only [thread] at may
        exact may
      · rename_i thread
        simp only [thread] at may
        exact ⟨may, calls _ _ _ _ thread⟩
      · trivial
  | respond t => exact may
  | interfere e => trivial

theorem strengthen_sound (sound : P.Sound sys) (more : A.Sound sys) : A.strengthen.Sound sys where
  guar_inv t v w w' guar := ⟨sound.guar_inv t v w w' guar.1, guar.2.1⟩
  guar_rely t v w w' guar u other := ⟨sound.guar_rely t v w w' guar.1 u other, guar.2.2 u other⟩
  guar_active t v op w w' guar := sound.guar_active t v op w w' guar.1
  rely_active t op w w' r := sound.rely_active t op w w' r.1
  rely_idle t w w' r h := ⟨sound.rely_idle t w w' r.1 h.1, more.rely_idle t w w' r.2 r.1 h.2⟩
  invoke t op w inv idle may := by
    obtain ⟨g, i, others, effect, active, started⟩ := sound.invoke t op w inv.1 idle.1 may.1
    obtain ⟨i', others', started'⟩ := more.invoke t op w g inv.1 inv.2 idle.2 may.1 may.2 i others effect
    exact ⟨g, ⟨i, i'⟩, fun u other => ⟨others u other, others' u other⟩, effect, active, started, started'⟩
  respond t op r w inv active finished may := by
    obtain ⟨g, i, others, effect, idle⟩ := sound.respond t op r w inv.1 active finished.1 may
    obtain ⟨i', others', idle'⟩ := more.respond t op r w g inv.1 inv.2 finished.2 may i others effect
    exact ⟨g, ⟨i, i'⟩, fun u other => ⟨others u other, others' u other⟩, effect, idle, idle'⟩
  interfere e w s inv step := by
    obtain ⟨g, i, all, effect⟩ := sound.interfere e w s inv.1 step
    obtain ⟨i', all'⟩ := more.interfere e w s g inv.1 inv.2 step i all
    exact ⟨g, ⟨i, i'⟩, fun u => ⟨all u, all' u⟩, effect⟩
  main t op w inv active started :=
    wp_strengthen (sound.main t op w inv.1 active started.1) (more.main t op w inv.1 inv.2 started.1 started.2)
  proc t p w inv pre may :=
    wp_strengthen (sound.proc t p w inv.1 pre.1 may.1) (more.proc t p w inv.1 inv.2 pre.1 pre.2 may.1)

end Strengthening
end Protocol
end Concurrency
