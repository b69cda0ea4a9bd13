import Mathlib.Data.Nat.Find
import Mathlib.Order.WellFounded
import Sherman.Concurrency.Strengthening

namespace Concurrency

variable {S : Signature} {Tid Op Res Shared Ghost Choice Env ρ : Type}

namespace Program

theorem bind_assoc {α β γ : Type} (m : Program S α) (next : α → Program S β) (last : β → Program S γ) :
    (m.bind next).bind last = m.bind fun a => (next a).bind last := by
  induction m with
  | ret value => rfl
  | fault error => rfl
  | verb v tail ih =>
      simp only [verb_bind]
      congr 1
      funext r
      exact ih r
  | call p tail ih =>
      simp only [call_bind]
      congr 1
      funext r
      exact ih r

end Program

namespace Protocol
variable (P : Protocol S Tid Op Res Shared Ghost Env) (sys : System S Tid Op Res Shared Choice Env)

/-- Thread `t` comes to the end of its program, whatever its verbs return and the others do. -/
inductive Ends (t : Tid) {α : Type} (Q : α → Shared × Ghost → Prop) : Program S α → Shared × Ghost → Prop where
  | ret {value : α} {w : Shared × Ghost} (post : ∀ w', P.rely t w w' → P.inv w' → Q value w') :
      Ends t Q (.ret value) w
  | fault {error : S.Fault} {w : Shared × Ghost} (tolerated : ∀ w', P.rely t w w' → P.inv w' → P.tolerates error) :
      Ends t Q (.fault error) w
  | verb {v : S.Verb} {next : S.Resp v → Program S α} {w : Shared × Ghost} (after : S.Resp v → Shared × Ghost → Prop)
      (step : ∀ w', P.rely t w w' → P.inv w' → P.mayVerb t v w'.1 → ∀ choice r s,
        sys.perform t v choice w'.1 = some (r, s) → ∃ g, P.guar t v w' (s, g) ∧ after r (s, g))
      (rest : ∀ r w', after r w' → Ends t Q (next r) w') : Ends t Q (.verb v next) w
  | call {p : S.Proc} {next : S.Ret p → Program S α} {w : Shared × Ghost}
      (contract : ∀ w', P.rely t w w' → P.inv w' → P.mayCall t p w'.1 →
        P.pre t p w' ∧ ∀ r w'', P.post t p w' r w'' → P.wp sys t (next r) Q w'')
      (body : ∀ w', P.rely t w w' → P.inv w' → P.mayCall t p w'.1 → Ends t Q ((sys.body p).bind next) w') :
      Ends t Q (.call p next) w

variable {P sys}
variable {α β : Type} {t : Tid} {m : Program S α} {Q : α → Shared × Ghost → Prop} {w w' : Shared × Ghost}

theorem Ends.wp (ends : P.Ends sys t Q m w) : P.wp sys t m Q w := by
  induction ends with
  | ret post => exact post
  | fault tolerated => exact tolerated
  | verb after step _ ih =>
      intro w' r i may choice resp s perform
      obtain ⟨g, guar, then_⟩ := step w' r i may choice resp s perform
      exact ⟨g, guar, ih resp (s, g) then_⟩
  | call contract _ _ => exact contract

theorem Ends.rely (ends : P.Ends sys t Q m w) (r : P.rely t w w') : P.Ends sys t Q m w' := by
  have trans {w'' : Shared × Ghost} (r' : P.rely t w' w'') : P.rely t w w'' := P.rely_trans t _ _ _ r r'
  cases ends with
  | ret post => exact .ret fun w'' r' => post w'' (trans r')
  | fault tolerated => exact .fault fun w'' r' => tolerated w'' (trans r')
  | verb after step rest => exact .verb after (fun w'' r' => step w'' (trans r')) rest
  | call contract body => exact .call (fun w'' r' => contract w'' (trans r')) fun w'' r' => body w'' (trans r')

theorem ends_of_rely (h : ∀ w', P.rely t w w' → P.inv w' → P.Ends sys t Q m w') : P.Ends sys t Q m w := by
  have refl := P.rely_refl t
  cases m with
  | ret value => exact .ret fun w' r i => (h w' r i).wp w' (refl w') i
  | fault error => exact .fault fun w' r i => (h w' r i).wp w' (refl w') i
  | verb v next =>
      apply Ends.verb fun resp w'' => P.Ends sys t Q (next resp) w''
      · intro w' r i may choice resp s perform
        cases h w' r i with
        | verb after step rest =>
            obtain ⟨g, guar, then_⟩ := step w' (refl w') i may choice resp s perform
            exact ⟨g, guar, rest resp (s, g) then_⟩
      · exact fun _ _ ends => ends
  | call p next =>
      apply Ends.call
      · exact fun w' r i => (h w' r i).wp w' (refl w') i
      · intro w' r i may
        cases h w' r i with
        | call contract body => exact body w' (refl w') i may

theorem Ends.bind {next : α → Program S β} {Q' : β → Shared × Ghost → Prop} (ends : P.Ends sys t Q m w)
    (rest : ∀ value w', Q value w' → P.Ends sys t Q' (next value) w') : P.Ends sys t Q' (m.bind next) w := by
  induction ends with
  | ret post => exact ends_of_rely fun w' r i => rest _ w' (post w' r i)
  | fault tolerated => exact .fault tolerated
  | verb after step _ ih => exact .verb after step ih
  | call contract _ ih =>
      apply Ends.call
      · intro w' r i may
        obtain ⟨pre, tail⟩ := contract w' r i may
        exact ⟨pre, fun resp w'' post => wp_bind (wp_mono (tail resp w'' post) fun _ _ _ q => (rest _ _ q).wp)⟩
      · intro w' r i may
        rw [← Program.bind_assoc]
        exact ih w' r i may

/-! ## Contracts -/

def contracts (P : Protocol S Tid Op Res Shared Ghost Env) (pre : S.Proc → Shared × Ghost → Prop)
    (post : (p : S.Proc) → Shared × Ghost → S.Ret p → Shared × Ghost → Prop) : P.Strengthening where
  inv _ := True
  rely _ _ _ := True
  rely_refl _ _ := trivial
  rely_trans _ _ _ _ _ _ := trivial
  pre _ := pre
  post _ := post
  idle _ _ := True
  started _ _ _ := True
  finished _ _ _ _ := True

section
variable {pre : S.Proc → Shared × Ghost → Prop}
  {post : (p : S.Proc) → Shared × Ghost → S.Ret p → Shared × Ghost → Prop}

theorem adds_of_trivial (all : ∀ p w, pre p w) : (P.contracts pre post).adds sys t m (fun _ _ => True) w := by
  induction m generalizing w with
  | ret value => exact fun _ _ _ _ _ => trivial
  | fault error => trivial
  | verb v next ih => exact fun _ _ _ _ _ _ _ r _ _ _ _ => ⟨trivial, fun _ _ => trivial, ih r⟩
  | call p next ih => exact fun w' _ _ _ _ _ _ _ => ⟨all p w', fun r _ _ _ => ih r⟩

theorem contracts_sound (all : ∀ p w, pre p w)
    (bodies : ∀ t p w, P.inv w → P.pre t p w → (P.contracts pre post).adds sys t (sys.body p) (post p w) w) :
    (P.contracts pre post).Sound sys where
  rely_idle _ _ _ _ _ _ := trivial
  invoke _ _ _ _ _ _ _ _ _ _ _ _ := ⟨trivial, fun _ _ => trivial, trivial⟩
  respond _ _ _ _ _ _ _ _ _ _ _ _ := ⟨trivial, fun _ _ => trivial, trivial⟩
  interfere _ _ _ _ _ _ _ _ _ := ⟨trivial, fun _ => trivial⟩
  main _ _ _ _ _ _ _ := adds_of_trivial all
  proc t p w inv _ pre _ _ := bodies t p w inv pre

end

/-! ## Descending calls -/

variable {allowed : S.Proc → Shared × Ghost → Prop}

def Calls (P : Protocol S Tid Op Res Shared Ghost Env) (sys : System S Tid Op Res Shared Choice Env)
    (allowed : S.Proc → Shared × Ghost → Prop) (t : Tid) (m : Program S α) (w : Shared × Ghost) : Prop :=
  (P.contracts allowed fun _ _ _ _ => True).adds sys t m (fun _ _ => True) w

/-- A program ends when the procedures it may call do. -/
theorem ends_of_wp (run : P.wp sys t m Q w) (calls : P.Calls sys allowed t m w)
    (bodies : ∀ p w, P.inv w → P.pre t p w → P.mayCall t p w.1 → allowed p w →
      P.Ends sys t (P.post t p w) (sys.body p) w) : P.Ends sys t Q m w := by
  induction m generalizing w with
  | ret value => exact .ret run
  | fault error => exact .fault run
  | verb v next ih =>
      apply Ends.verb fun r w' => P.wp sys t (next r) Q w' ∧ P.Calls sys allowed t (next r) w'
      · intro w' rely i may choice r s perform
        obtain ⟨g, guar, tail⟩ := run w' rely i may choice r s perform
        exact ⟨g, guar, tail, (calls w' rely trivial i trivial may choice r s perform g guar).2.2⟩
      · exact fun r w' h => ih r h.1 h.2
  | call p next ih =>
      apply Ends.call run
      intro w' rely i may
      obtain ⟨pre, tail⟩ := run w' rely i may
      obtain ⟨isAllowed, tail'⟩ := calls w' rely trivial i trivial may trivial pre
      exact (bodies p w' i pre may isAllowed).bind fun r w'' post => ih r (tail r w'' post) (tail' r w'' post trivial)

def Descends (P : Protocol S Tid Op Res Shared Ghost Env) (sys : System S Tid Op Res Shared Choice Env) [LT ρ]
    (rank : S.Proc → Shared × Ghost → ρ) : Prop :=
  ∀ t p w, P.inv w → P.pre t p w → P.Calls sys (fun q w' => rank q w' < rank p w) t (sys.body p) w

variable [LT ρ] [WellFoundedLT ρ] {rank : S.Proc → Shared × Ghost → ρ}

theorem ends_body (sound : P.Sound sys) (descends : P.Descends sys rank) (p : S.Proc) (w : Shared × Ghost)
    (inv : P.inv w) (pre : P.pre t p w) (may : P.mayCall t p w.1) :
    P.Ends sys t (P.post t p w) (sys.body p) w := by
  induction h : rank p w using WellFoundedLT.induction generalizing p w with
  | ind n ih =>
      subst h
      apply ends_of_wp (sound.proc t p w inv pre may) (descends t p w inv pre)
      exact fun q w' inv' pre' may' lower => ih (rank q w') lower q w' inv' pre' may' rfl

theorem Sound.ends (sound : P.Sound sys) (descends : P.Descends sys rank) (run : P.wp sys t m Q w) :
    P.Ends sys t Q m w := by
  have calls : P.Calls sys (fun _ _ => True) t m w := adds_of_trivial fun _ _ => trivial
  exact ends_of_wp run calls fun p w inv pre may _ => ends_body sound descends p w inv pre may

end Protocol

/-! ## Turns -/

namespace System
variable [DecidableEq Tid] (sys : System S Tid Op Res Shared Choice Env)

def Turn (allowed : Action Tid Op Choice Env → Prop) (t : Tid) (s s' : State S Tid Op Res Shared) : Prop :=
  ∃ (others : List (Action Tid Op Choice Env)) (choice : Choice) (m : State S Tid Op Res Shared),
    (∀ a ∈ others, allowed a ∧ a.thread? ≠ some t) ∧ sys.run s others = some m ∧
      sys.step m (.advance t choice) = some s'

variable {sys} {s s' : State S Tid Op Res Shared} {allowed : Action Tid Op Choice Env → Prop} {t : Tid}

/-! ### Infinite runs -/

section
variable {states : Nat → State S Tid Op Res Shared} {actions : Nat → Action Tid Op Choice Env}

theorem run_segment (steps : ∀ n, sys.step (states n) (actions n) = some (states (n + 1))) (m k : Nat) :
    sys.run (states m) ((List.range k).map fun i => actions (m + i)) = some (states (m + k)) := by
  induction k with
  | zero => rfl
  | succ k ih =>
      rw [List.range_succ, List.map_append, sys.run_append]
      exact ⟨states (m + k), ih, sys.run_cons.mpr ⟨states (m + k + 1), steps (m + k), rfl⟩⟩

theorem idle_step {a : Action Tid Op Choice Env} (step : sys.step s a = some s') (idle : s.threads t = .idle)
    (given : ∀ op, a ≠ .invoke t op) : a.thread? ≠ some t := by
  intro same
  cases a with
  | invoke u op =>
      cases same
      exact given op rfl
  | advance u choice =>
      cases same
      simp only [System.step, idle] at step
      cases step
  | respond u =>
      cases same
      simp only [System.step, idle] at step
      cases step
  | interfere e => cases same

theorem idle_stays (steps : ∀ n, sys.step (states n) (actions n) = some (states (n + 1)))
    (given : ∀ n op, actions n ≠ .invoke t op) {m : Nat} (idle : (states m).threads t = .idle) (k : Nat) :
    (states (m + k)).threads t = .idle := by
  induction k with
  | zero => exact idle
  | succ k ih =>
      rw [← Nat.add_assoc, sys.step_other (steps (m + k)) (idle_step (steps (m + k)) ih (given (m + k)))]
      exact ih

theorem eventually_others (steps : ∀ n, sys.step (states n) (actions n) = some (states (n + 1)))
    (given : ∀ n op, actions n ≠ .invoke t op) (allows : ∀ n, allowed (actions n))
    (ends : ∀ n op rest, (states n).threads t = .running op rest →
      Acc (fun s'' s' => sys.Turn allowed t s' s'') (states n)) :
    ∃ bound, ∀ n, bound ≤ n → (actions n).thread? ≠ some t := by
  by_contra often
  have often : ∀ m, ∃ k, (actions (m + k)).thread? = some t := by
    intro m
    by_contra never
    refine often ⟨m, fun n later same => never ⟨n - m, ?_⟩⟩
    rwa [Nat.add_sub_cancel' later]
  have busy : ∀ m, (states m).threads t ≠ .idle := by
    intro m idle
    obtain ⟨k, acts⟩ := often m
    exact idle_step (steps (m + k)) (idle_stays steps given idle k) (given (m + k)) acts
  have advances : ∀ n, (actions n).thread? = some t → ∃ choice, actions n = .advance t choice := by
    intro n acts
    have step := steps n
    cases action : actions n with
    | invoke u op =>
        rw [action] at acts
        cases acts
        exact absurd action (given n op)
    | advance u choice =>
        rw [action] at acts
        cases acts
        exact ⟨choice, rfl⟩
    | respond u =>
        rw [action] at acts step
        cases acts
        simp only [System.step] at step
        split at step
        · refine absurd ?_ (busy (n + 1))
          rw [← Option.some.inj step]
          exact State.setThread_same _ _ _
        · cases step
    | interfere e =>
        rw [action] at acts
        cases acts
  have endless : ∀ x, Acc (fun s'' s' => sys.Turn allowed t s' s'') x → ∀ m, states m = x → False := by
    intro x acc
    induction acc with
    | intro x _ ih =>
        rintro m rfl
        classical
        have first := Nat.find_spec (often m)
        have before := fun i (less : i < Nat.find (often m)) => Nat.find_min (often m) less
        generalize Nat.find (often m) = k at first before
        obtain ⟨choice, action⟩ := advances (m + k) first
        apply ih (states (m + k + 1)) _ (m + k + 1) rfl
        refine ⟨_, choice, states (m + k), ?_, run_segment steps m k, action ▸ steps (m + k)⟩
        intro a member
        obtain ⟨i, less, rfl⟩ := List.mem_map.mp member
        exact ⟨allows (m + i), before i (List.mem_range.mp less)⟩
  cases thread : (states 0).threads t with
  | idle => exact busy 0 thread
  | running op rest => exact endless (states 0) (ends 0 op rest thread) 0 rfl

end

end System

namespace Protocol
variable {P : Protocol S Tid Op Res Shared Ghost Env} {sys : System S Tid Op Res Shared Choice Env} [DecidableEq Tid]
  {t : Tid} {s : State S Tid Op Res Shared} {g : Ghost} {op : Op} {rest : Program S Res}

/-- A thread that comes to the end of its program takes finitely many turns. -/
theorem Ends.acc (sound : P.Sound sys) {allowed : Action Tid Op Choice Env → Prop}
    (may : ∀ s a, allowed a → P.May s a) (always : ∀ choice, allowed (.advance t choice))
    (ends : P.Ends sys t (P.finished t op) rest (s.shared, g)) (good : P.Good sys s g)
    (thread : s.threads t = .running op rest) : Acc (fun s'' s' => sys.Turn allowed t s' s'') s := by
  generalize start : (s.shared, g) = w at ends
  induction ends generalizing s g with
  | ret post =>
      apply Acc.intro
      rintro s' ⟨others, choice, m, other, run, step⟩
      rw [← sys.run_other run fun a member => (other a member).2] at thread
      simp only [System.step, thread, System.advance] at step
      cases step
  | fault tolerated =>
      apply Acc.intro
      rintro s' ⟨others, choice, m, other, run, step⟩
      rw [← sys.run_other run fun a member => (other a member).2] at thread
      simp only [System.step, thread, System.advance] at step
      cases step
  | verb after verbs rest ih =>
      subst start
      apply Acc.intro
      rintro s' ⟨others, choice, m, other, run, step⟩
      have mayOthers : sys.Throughout P.May s others :=
        System.throughout_of_forall fun a member s => may s a (other a member).1
      obtain ⟨g₁, good₁, rely⟩ := good_run_rely sound good mayOthers (fun a member => (other a member).2) run
      rw [← sys.run_other run fun a member => (other a member).2] at thread
      have active := (good₁.thread thread).1
      have mayVerb := may m _ (always choice)
      simp only [May, thread] at mayVerb
      simp only [System.step, thread, System.advance] at step
      split at step
      · cases step
      · rename_i r shared performed
        cases step
        obtain ⟨g₂, guar, then_⟩ := verbs _ rely good₁.1 mayVerb choice r shared performed
        apply ih r (shared, g₂) then_ _ (State.setThread_same ..) rfl
        apply good₁.update sound (sound.guar_inv _ _ _ _ guar) (sound.guar_rely _ _ _ _ guar)
        exact ⟨sound.guar_active _ _ _ _ _ guar active, (rest r (shared, g₂) then_).wp⟩
  | call contract body ih =>
      subst start
      apply Acc.intro
      rintro s' ⟨others, choice, m, other, run, step⟩
      have mayOthers : sys.Throughout P.May s others :=
        System.throughout_of_forall fun a member s => may s a (other a member).1
      obtain ⟨g₁, good₁, rely⟩ := good_run_rely sound good mayOthers (fun a member => (other a member).2) run
      rw [← sys.run_other run fun a member => (other a member).2] at thread
      have active := (good₁.thread thread).1
      have mayCall := may m _ (always choice)
      simp only [May, thread] at mayCall
      simp only [System.step, thread, System.advance] at step
      cases step
      apply ih (m.shared, g₁) rely good₁.1 mayCall _ (State.setThread_same ..) rfl
      apply good₁.update sound good₁.1 fun u _ => P.rely_refl u _
      exact ⟨active, (body (m.shared, g₁) rely good₁.1 mayCall).wp⟩

end Protocol
end Concurrency
