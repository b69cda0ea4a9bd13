import Sherman.Concurrency.Strengthening
import Sherman.Tree.Walking

namespace Sherman

open Concurrency

/-- Entries are written into records of leaves of the tree. -/
def EntriesSound (w : World) : Prop :=
  ∀ z ∈ w.1.pending, ∀ a i r, z.write = .entry a i r → i < kLeafCardinality ∧ ∃ x, w.2.Linked a 0 x

theorem EntriesSound.mono {w w' : World} (h : EntriesSound w) (pending : ∀ z ∈ w'.1.pending, z ∈ w.1.pending)
    (linked : ∀ a l x, w.2.Linked a l x → w'.2.Linked a l x) : EntriesSound w' := by
  intro z member a i r entry
  obtain ⟨less, x, leaf⟩ := h z (pending z member) a i r entry
  exact ⟨less, x, linked a 0 x leaf⟩

def Grows (w w' : World) : Prop := ∀ a l x, w.2.Linked a l x → w'.2.Linked a l x

theorem Grows.trans {u v w : World} (h : Grows u v) (h' : Grows v w) : Grows u w :=
  fun a l x linked => h' a l x (h a l x linked)

theorem perform_pending {cfg : Config} {t : Client} {v : Verb} {choice : Choice} {r : Resp v} {s s' : Shared}
    (step : perform cfg t v choice s = some (r, s')) :
    s'.pending = s.pending ∨ ∃ ws, v = .post ws ∧ s'.pending = s.pending ++ ws.map (⟨t, ·⟩) := by
  cases v with
  | post ws =>
      cases step
      exact .inr ⟨ws, rfl, rfl⟩
  | alloc =>
      refine .inl ?_
      cases choice <;> simp only [perform] at step
      case fresh =>
        split_ifs at step
        cases step
        rfl
      all_goals cases step
  | canHandOver la =>
      refine .inl ?_
      cases choice <;> cases step
      rfl
  | _ =>
      refine .inl ?_
      simp only [perform] at step
      try split_ifs at step
      all_goals
        cases step
        rfl

def entryWrites (cfg : Config) : (protocol .any cfg).Strengthening where
  inv := EntriesSound
  rely _ _ _ := True
  rely_refl _ _ := trivial
  rely_trans _ _ _ _ _ _ := trivial
  pre _ _ _ := True
  post _ _ w _ w' := Grows w w'
  idle _ _ := True
  started _ _ _ := True
  finished _ _ _ _ := True

section
variable {cfg : Config} {t : Client} {w : World}

theorem adds_of_walks {α : Type} {place : Option (GlobalAddress × Key)} {target : Option GlobalAddress}
    {calls : Note → Proc → Prop} {m : Code α} {n : Note} {Q : α → Note → Prop}
    (walks : Walks cfg place target calls m n Q) {w₀ : World} (grows : Grows w₀ w)
    (leaf : ∀ a, target = some a → ∃ x, w₀.2.Linked a 0 x) :
    (entryWrites cfg).adds (system cfg) t m (fun _ w' => Grows w₀ w') w := by
  induction m generalizing n w with
  | ret value => exact fun w' rely _ _ _ => grows.trans rely.linked
  | fault error => trivial
  | verb v next ih =>
      intro w' rely _ inv sound may choice r s perform g guar
      obtain ⟨n', ⟨-, allowed, -⟩, rest⟩ := walks r
      have before : Grows w₀ w' := grows.trans rely.linked
      have step : Grows w' (s, g) := guar.extends.linked
      refine ⟨?_, fun _ _ => trivial, ih r rest (before.trans step)⟩
      rcases perform_pending perform with same | ⟨ws, rfl, pending⟩
      · exact sound.mono (fun z member => same ▸ member) step
      · intro z member a i e entry
        rw [pending, List.mem_append, List.mem_map] at member
        rcases member with old | ⟨wr, new, rfl⟩
        · obtain ⟨less, x, linked⟩ := sound z old a i e entry
          exact ⟨less, x, step a 0 x linked⟩
        · have entryAt : EntryAt target wr := allowed wr new
          rw [show wr = .entry a i e from entry] at entryAt
          obtain ⟨x, linked⟩ := leaf a entryAt.1
          exact ⟨entryAt.2, x, step a 0 x (before a 0 x linked)⟩
  | call p next ih =>
      intro w' rely _ inv sound may _ pre
      refine ⟨trivial, fun r w'' _ post => ?_⟩
      apply ih r (walks.2 r ⟨.none, n.page, searchAfter place p r⟩ ⟨rfl, rfl, rfl⟩)
      exact (grows.trans rely.linked).trans post

theorem entryPage_leaf {p : Proc} {a : GlobalAddress} (pre : Pre .any cfg t p w) (entry : p.entryPage = some a) :
    ∃ x, w.2.Linked a 0 x := by
  cases p with
  | leafPageStore b k v root level fromCache =>
      cases entry
      obtain ⟨x, reach, -⟩ := pre.2.2.1
      exact ⟨x, reach.1⟩
  | leafPageDel b k level fromCache =>
      cases entry
      obtain ⟨x, reach, -⟩ := pre.2.2.1
      exact ⟨x, reach.1⟩
  | _ => cases entry

theorem entryWrites_sound (cfg : Config) : (entryWrites cfg).Sound (system cfg) where
  rely_idle _ _ _ _ _ _ := trivial
  invoke t op w g _ sound _ _ _ _ others _ :=
    ⟨sound.mono (fun _ => id) (others (t + 1) (Nat.succ_ne_self t)).linked, fun _ _ => trivial, trivial⟩
  respond t op r w g _ sound _ _ _ others _ :=
    ⟨sound.mono (fun _ => id) (others (t + 1) (Nat.succ_ne_self t)).linked, fun _ _ => trivial, trivial⟩
  interfere e w s g _ sound step _ all := by
    refine ⟨sound.mono (fun z member => ?_) (all 0).linked, fun _ => trivial⟩
    cases e with
    | execute i =>
        obtain ⟨x, executed⟩ := Shared.executed_of_interfere step
        exact executed.pending_sub z member
    | deliver n i =>
        change interfere (.deliver n i) w.1 = some s at step
        simp only [interfere] at step
        split at step
        · cases step
        · cases step
          exact member
    | evict n e =>
        cases step
        exact member
  main t op w _ _ _ _ :=
    Protocol.Strengthening.adds_mono (adds_of_walks (walks_main cfg op (n := ⟨.none, none, none⟩) rfl) (fun _ _ _ h => h) nofun)
      fun _ _ _ => trivial
  proc t p w _ _ pre _ _ :=
    adds_of_walks (walks_body cfg p (n := ⟨.none, none, none⟩) rfl) (fun _ _ _ h => h) fun a => entryPage_leaf pre

theorem entriesSound_of_run {root : GlobalAddress} (nonnull : root ≠ .null)
    {as : List (Action Client Op Choice Env)} (keys : KeysBelow as) {s : State}
    (run : (system cfg).run (State.init root) as = some s) :
    ∃ g, Invariant .any cfg (s.shared, g) ∧ EntriesSound (s.shared, g) := by
  have sound := Protocol.Strengthening.strengthen_sound (protocol_sound .any cfg) (entryWrites_sound cfg)
  have start : (entryWrites cfg).strengthen.Good (system cfg) (State.init root) (Ghost.init root) := by
    obtain ⟨inv, idle⟩ := init_good .any cfg nonnull
    exact ⟨⟨inv, nofun⟩, fun t => ⟨idle t, trivial⟩⟩
  have may : (system cfg).Throughout (entryWrites cfg).strengthen.May (State.init root) as :=
    System.Throughout.mono (system cfg) (fun s a may =>
      Protocol.Strengthening.strengthen_may may (fun _ _ _ _ _ => trivial) fun _ _ _ => trivial) (throughout_any keys)
  obtain ⟨g, good⟩ := Protocol.good_run sound start may run
  exact ⟨g, good.1⟩

end

end Sherman
