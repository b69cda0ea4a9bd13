import Sherman.Concurrency.Linearizability
import Sherman.Tree.Aborting

namespace Sherman

open Shared Concurrency

/-- No client writes to an internal page, swaps the root or returns while the page write of a leaf split
of its own is pending. -/
def Settled (s : State) : Action Client Op Choice Env → Prop
  | .advance t _ => match s.threads t with
      | .running _ (.verb v _) => Publishes s.shared v → ¬ LinkPending s.shared t
      | _ => True
  | .respond t => ¬ LinkPending s.shared t
  | _ => True

def Mode.settled : Mode := ⟨none, True, False, True⟩

section Settled
variable {cfg : Config} {root : GlobalAddress} {s : State} {g : Ghost} {m : KeyMap}
  {a : Action Client Op Choice Env} {as : List (Action Client Op Choice Env)}

theorem may_settled (keys : ∀ t op, a = .invoke t op → op.key < kKeyMax) (settled : Settled s a) :
    (protocol .settled cfg).May s a := by
  cases a with
  | invoke t op => exact ⟨fun _ h => (nomatch h), keys t op rfl⟩
  | advance t choice =>
      simp only [Settled] at settled
      simp only [Protocol.May]
      cases thread : s.threads t with
      | idle => trivial
      | running op rest =>
          simp only [thread] at settled
          cases rest with
          | ret r => trivial
          | fault e => trivial
          | verb v next => exact ⟨fun _ h => (nomatch h), fun _ => settled, fun current => current.elim⟩
          | call p next => exact ⟨fun _ h => (nomatch h), fun current => current.elim⟩
  | respond t => exact fun _ => settled
  | interfere e => trivial

theorem linearizable_of {t : Client} {track track' : Track} {bindings bindings' : Key → Value → Prop}
    {es : List (Event Client Op Result)} (step : Linearizes t track bindings track' bindings')
    (represents : Represents bindings m)
    (rest : ∀ m', Represents bindings' m' → Linearizable Op.apply m' track' es) :
    Linearizable Op.apply m track es := by
  rcases step with ⟨rfl, rfl⟩ | ⟨op, r, before, rfl, effect⟩
  · exact rest m represents
  · obtain ⟨result, after⟩ := effect.apply represents
    refine .effect before ?_
    rw [result]
    exact rest _ after

theorem linearizable_run (good : (protocol .settled cfg).Good (system cfg) s g)
    (represents : Represents (Executed s.shared g) m) (keys : KeysBelow as)
    (settled : (system cfg).Throughout Settled s as) :
    Linearizable Op.apply m (executedTrack g) ((system cfg).history s as) := by
  induction as generalizing s g m with
  | nil => exact .nil
  | cons a as ih =>
      simp only [System.history]
      split
      · exact .nil
      · rename_i s' step
        have keysNow : ∀ t op, a = .invoke t op → op.key < kKeyMax := fun t op same => keys t op (by simp [same])
        obtain ⟨g', good', effect, -⟩ :=
          Protocol.good_step (protocol_sound .settled cfg) good (may_settled keysNow settled.1) step
        have rest : ∀ m', Represents (Executed s'.shared g') m' →
            Linearizable Op.apply m' (executedTrack g') ((system cfg).history s' as) := fun m' represents' =>
          ih good' represents' (fun t op h => keys t op (List.mem_cons_of_mem a h)) (settled.2 s' step)
        cases a with
        | invoke t op =>
            obtain ⟨-, executed, unused, ghost⟩ := effect
            simp only at executed unused ghost
            refine .invoke (by simp [executedTrack, unused]) ?_
            have started : Function.update (executedTrack g) t (some (op, none)) = executedTrack g' := by
              funext c
              by_cases same : c = t
              · subst same
                simp [executedTrack, ghost]
              · simp [executedTrack, ghost, same]
            rw [started]
            exact rest m (executed ▸ represents)
        | advance t choice =>
            simp only [Protocol.Effect] at effect
            split at effect
            · exact linearizable_of (effect.2.executed trivial) represents rest
            · simp only [Prod.mk.injEq] at effect
              obtain ⟨shared, ghost⟩ := effect
              subst ghost
              exact rest m (shared ▸ represents)
        | respond t =>
            obtain ⟨op, r, thread, -, -, -, executed, ghost, -, returned⟩ := effect
            simp only at executed ghost
            simp only [System.events, thread]
            refine .respond (returned trivial) ?_
            have done : Function.update (executedTrack g) t none = executedTrack g' := by
              funext c
              by_cases same : c = t
              · subst same
                simp [executedTrack, ghost]
              · simp [executedTrack, ghost, same]
            rw [done]
            exact rest m (executed ▸ represents)
        | interfere e =>
            obtain ⟨-, -, executed, -⟩ := effect
            obtain ⟨c, executed⟩ := executed trivial
            exact linearizable_of executed represents rest

/-- While the splits are settled, every history is linearizable. -/
theorem history_linearizable (nonnull : root ≠ .null) (keys : KeysBelow as)
    (settled : (system cfg).Throughout Settled (State.init root) as) :
    Linearizable Op.apply (fun _ => none) (fun _ => none) ((system cfg).history (State.init root) as) := by
  have empty : Represents (Executed (.init root) (.init root)) fun _ => none := by
    intro k v
    simp [init_executed]
  exact linearizable_run (init_good .settled cfg nonnull) empty keys settled

end Settled

theorem settled_of_orderly {s : State} {a : Action Client Op Choice Env} (h : orderly s a = true) : Settled s a := by
  have unposted : ∀ t, (s.shared.pending.all (·.client ≠ t)) = true → ¬ LinkPending s.shared t := by
    rintro t all ⟨z, member, mine, -⟩
    exact of_decide_eq_true (List.all_eq_true.mp all z member) mine
  cases a with
  | advance t choice =>
      simp only [orderly] at h
      simp only [Settled]
      cases thread : s.threads t with
      | idle => trivial
      | running op rest =>
          simp only [thread] at h
          cases rest with
          | verb v next =>
              intro publishes
              cases v with
              | post ws => exact unposted t h
              | casRoot old new => exact unposted t (Bool.and_eq_true_iff.mp h).1
              | _ => exact publishes.elim
          | _ => trivial
  | respond t => exact unposted t h
  | _ => trivial

theorem history_linearizable_growth :
    Linearizable Op.apply (fun _ => none) (fun _ => none) growthHistory := by
  obtain ⟨-, -, -, -, -, -, history, throughout⟩ := growth_spec
  rw [← history]
  exact history_linearizable (by decide) growth_own.keysBelow (throughout.mono _ fun _ _ => settled_of_orderly)

/-! ## An insert that is missed

The last insert into a full leaf on node 1 splits it, with the sibling and the new root on node 0. It
returns before the page write is executed, and a search for its key reads the old leaf. -/

section Missed
variable {k : Key} {v : Value} {m : KeyMap} {calls : Track} {es : List (Event Client Op Result)} {a b : Client}

theorem Op.apply_other {op : Op} (other : op.key ≠ k) (m : KeyMap) : (op.apply m).2 k = m k := by
  cases op with
  | insert k' v' => exact Function.update_of_ne (Ne.symm other) _ _
  | del k' => exact Function.update_of_ne (Ne.symm other) _ _
  | search k' => rfl

def Avoids (k : Key) (calls : Track) : Prop := ∀ c op r, calls c = some (op, r) → op.key ≠ k

theorem Avoids.update (h : Avoids k calls) {c : Client} {call : Option (Op × Option Result)}
    (avoids : ∀ op r, call = some (op, r) → op.key ≠ k) : Avoids k (Function.update calls c call) := by
  intro c' op r running
  by_cases same : c' = c
  · subst same
    rw [Function.update_self] at running
    exact avoids op r running
  · rw [Function.update_of_ne same] at running
    exact h c' op r running

theorem keeps_avoids : Linearizable.Keeps Op.apply fun _ calls => Avoids k calls := by
  intro m calls c op h running
  refine h.update fun op' r call => ?_
  cases call
  exact h c op none running

def Inserting (a : Client) (k : Key) (v : Value) (m : KeyMap) (calls : Track) : Prop :=
  ∀ c op r, calls c = some (op, r) → op.key = k → c = a ∧ op = .insert k v ∧ (r ≠ none → m k = some v)

theorem keeps_inserting (nonnull : v ≠ kValueNull) :
    Linearizable.Keeps Op.apply fun m calls => Inserting a k v m calls := by
  intro m calls c op h running c' op' r running' key
  by_cases same : c' = c
  · subst same
    rw [Function.update_self] at running'
    cases running'
    obtain ⟨rfl, rfl, -⟩ := h c' op none running key
    exact ⟨rfl, rfl, fun _ => by simp [Op.apply, nonnull]⟩
  · rw [Function.update_of_ne same] at running'
    obtain ⟨rfl, rfl, bound⟩ := h c' op' r running' key
    refine ⟨rfl, rfl, fun done => ?_⟩
    rw [Op.apply_other (fun key' => same (h c op none running key').1.symm)]
    exact bound done

def Bound (k : Key) (v : Value) (m : KeyMap) (calls : Track) : Prop :=
  m k = some v ∧ ∀ c op r, calls c = some (op, r) → op.key = k →
    op = .search k ∧ ∀ x, r = some x → x = .value (some v)

theorem keeps_bound : Linearizable.Keeps Op.apply fun m calls => Bound k v m calls := by
  intro m calls c op h running
  refine ⟨?_, fun c' op' r running' key => ?_⟩
  · by_cases key : op.key = k
    · obtain ⟨rfl, -⟩ := h.2 c op none running key
      exact h.1
    · rw [Op.apply_other key]
      exact h.1
  · by_cases same : c' = c
    · subst same
      rw [Function.update_self] at running'
      cases running'
      obtain ⟨rfl, -⟩ := h.2 c' op none running key
      refine ⟨rfl, fun x result => ?_⟩
      cases result
      exact congrArg Result.value h.1
    · rw [Function.update_of_ne same] at running'
      exact h.2 c' op' r running' key

theorem not_linearizable_missed (nonnull : v ≠ kValueNull) (avoids : Avoids k calls) :
    ¬ Linearizable Op.apply m calls [.invoke a (.insert k v), .respond a (.insert k v) .done,
      .invoke b (.search k), .respond b (.search k) (.value none)] := by
  intro h
  obtain ⟨m₁, calls₁, avoids₁, -, h⟩ := h.of_invoke keeps_avoids avoids
  have inserting : Inserting a k v m₁ (Function.update calls₁ a (some (.insert k v, none))) := by
    intro c op r running key
    by_cases same : c = a
    · subst same
      rw [Function.update_self] at running
      cases running
      exact ⟨rfl, rfl, fun done => absurd rfl done⟩
    · rw [Function.update_of_ne same] at running
      exact absurd key (avoids₁ c op r running)
  obtain ⟨m₂, calls₂, inserting₂, done, h⟩ := h.of_respond (keeps_inserting nonnull) inserting
  have bound : Bound k v m₂ (Function.update calls₂ a none) := by
    refine ⟨(inserting₂ a _ _ done rfl).2.2 (by simp), fun c op r running key => ?_⟩
    by_cases same : c = a
    · subst same
      rw [Function.update_self] at running
      cases running
    · rw [Function.update_of_ne same] at running
      exact absurd (inserting₂ c op r running key).1 same
  obtain ⟨m₃, calls₃, bound₃, -, h⟩ := h.of_invoke keeps_bound bound
  have searching : Bound k v m₃ (Function.update calls₃ b (some (.search k, none))) := by
    refine ⟨bound₃.1, fun c op r running key => ?_⟩
    by_cases same : c = b
    · subst same
      rw [Function.update_self] at running
      cases running
      exact ⟨rfl, fun x result => by cases result⟩
    · rw [Function.update_of_ne same] at running
      exact bound₃.2 c op r running key
  obtain ⟨m₄, calls₄, bound₄, found, -⟩ := h.of_respond keeps_bound searching
  cases (bound₄.2 b _ _ found rfl).2 _ rfl

theorem linearizable_skip {c : Client} {op : Op} {r : Result} (other : op.key ≠ k) (avoids : Avoids k calls)
    (h : Linearizable Op.apply m calls (.invoke c op :: .respond c op r :: es)) :
    ∃ m' calls', Avoids k calls' ∧ Linearizable Op.apply m' calls' es := by
  obtain ⟨m₁, calls₁, avoids₁, -, h⟩ := h.of_invoke keeps_avoids avoids
  have started : Avoids k (Function.update calls₁ c (some (op, none))) := avoids₁.update fun op' r' call => by
    cases call
    exact other
  obtain ⟨m₂, calls₂, avoids₂, -, h⟩ := h.of_respond keeps_avoids started
  have left : Avoids k (Function.update calls₂ c none) := avoids₂.update fun op' r' call => by cases call
  exact ⟨m₂, _, left, h⟩

def filling (k : Key) (n : Nat) : List (Event Client Op Result) :=
  (List.range n).flatMap fun c => [.invoke c (.insert (k + c) 1), .respond c (.insert (k + c) 1) .done]

theorem linearizable_filling {first n : Nat} (below : k < first) (avoids : Avoids k calls)
    (h : Linearizable Op.apply m calls (filling first n ++ es)) :
    ∃ m' calls', Avoids k calls' ∧ Linearizable Op.apply m' calls' es := by
  induction n generalizing es with
  | zero => exact ⟨m, calls, avoids, h⟩
  | succ n ih =>
      simp only [filling, List.range_succ, List.flatMap_append, List.append_assoc] at h
      obtain ⟨m', calls', avoids', h⟩ := ih h
      have other : (Op.insert (first + n) 1).key ≠ k := Nat.ne_of_gt (Nat.lt_add_right n below)
      exact linearizable_skip other avoids' h

def missedInsert : Schedule :=
  fillLeaf 100 ++ insertToLock 53 50 1 ++ splitLeaf 53 ⟨0, 16⟩ ++ advances 53 2 ++
    [.advance 53 (.fresh ⟨0, 24⟩), .advance 53 .none, .interfere (.execute 2)] ++ advances 53 3 ++
    [.respond 53, .invoke 54 (.search 50)] ++ advances 54 12 ++ [.respond 54]

theorem missedInsert_keys : KeysBelow missedInsert := keysBelow_iff (by decide +kernel)

theorem missedInsert_history : (system oneLock).history (State.init ⟨1, 8⟩) missedInsert =
    filling 100 53 ++ [.invoke 53 (.insert 50 1), .respond 53 (.insert 50 1) .done,
      .invoke 54 (.search 50), .respond 54 (.search 50) (.value none)] := by
  have missed : (replays oneLock (State.init ⟨1, 8⟩) missedInsert).map Prod.snd =
      some (filling 100 53 ++ [.invoke 53 (.insert 50 1), .respond 53 (.insert 50 1) .done,
        .invoke 54 (.search 50), .respond 54 (.search 50) (.value none)]) := by
    decide +kernel
  obtain ⟨⟨s, es⟩, replayed, same⟩ := Option.map_eq_some_iff.mp missed
  exact (replays_spec replayed).2.trans same

/-- A history need not be linearizable. -/
theorem a_history_not_linearizable : ¬ ∀ (cfg : Config) (root : GlobalAddress) (as : Schedule), root ≠ .null →
    KeysBelow as → Linearizable Op.apply (fun _ => none) (fun _ => none)
      ((system cfg).history (State.init root) as) := by
  intro always
  have h := always oneLock ⟨1, 8⟩ missedInsert (by decide) missedInsert_keys
  rw [missedInsert_history] at h
  obtain ⟨m, calls, avoids, h⟩ := linearizable_filling (k := 50) (by decide) (fun _ _ _ h => by cases h) h
  exact not_linearizable_missed (by decide) avoids h

end Missed
end Sherman
