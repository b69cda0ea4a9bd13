import Sherman.Tree.Structure

namespace Sherman

open Shared Concurrency

/-- Every operation that returns does so with the result of the map, which starts as `m`. -/
def Replays : KeyMap → List (Event Client Op Result) → Prop
  | _, [] => True
  | m, .invoke _ _ :: es => Replays m es
  | m, .respond _ op r :: es => r = (op.apply m).1 ∧ Replays (op.apply m).2 es

def mapAfter (m : KeyMap) (es : List (Event Client Op Result)) : KeyMap :=
  es.foldl (fun m e => match e with
    | .invoke _ _ => m
    | .respond _ op _ => (op.apply m).2) m

def Mode.one (t : Client) (high : Prop) : Mode := ⟨some t, False, False, high⟩

def Agrees (t : Client) (m : KeyMap) (s : Shared) (g : Ghost) : Prop :=
  match postedTrack g t with
  | some (op, some r) => (op.apply m).1 = r ∧ Represents (Bindings s g) (op.apply m).2
  | _ => Represents (Bindings s g) m

section Step
variable {cfg : Config} {t : Client} {m : KeyMap} {s s' : Shared} {g g' : Ghost}

theorem Agrees.congr (h : Agrees t m s g) (bindings : Bindings s' g' = Bindings s g)
    (track : postedTrack g' t = postedTrack g t) : Agrees t m s' g' := by
  unfold Agrees
  rw [track, bindings]
  exact h

theorem Agrees.represents (h : Agrees t m s g) (unposted : ∀ op r, postedTrack g t ≠ some (op, some r)) :
    Represents (Bindings s g) m := by
  unfold Agrees at h
  split at h
  · rename_i op r posted
    exact absurd posted (unposted op r)
  · exact h

theorem Agrees.linearizes (h : Agrees t m s g)
    (step : Linearizes t (postedTrack g) (Bindings s g) (postedTrack g') (Bindings s' g')) :
    Agrees t m s' g' := by
  rcases step with ⟨track, bindings⟩ | ⟨op, r, before, after, effect⟩
  · exact h.congr bindings (congrFun track t)
  · have represents := h.represents fun op' r' posted => by cases before.symm.trans posted
    have posted : postedTrack g' t = some (op, some r) := by rw [after, Function.update_self]
    unfold Agrees
    rw [posted]
    exact effect.apply represents

end Step

/-- A run from a good state in which only `t` runs. -/
structure OneRunning (high : Prop) (cfg : Config) (t : Client) (m : KeyMap) (s : State) (g : Ghost) : Prop where
  good : (protocol (.one t high) cfg).Good (system cfg) s g
  idle : ∀ u, u ≠ t → s.threads u = .idle
  agrees : Agrees t m s.shared g

namespace OneRunning
variable {high : Prop} {cfg : Config} {t : Client} {m : KeyMap} {s s' : State} {g : Ghost}
  {a : Action Client Op Choice Env}

theorem may (h : OneRunning high cfg t m s g) (own : ∀ u op, a = .invoke u op → u = t ∧ op.key < kKeyMax) :
    (protocol (.one t high) cfg).May s a := by
  have only : ∀ u, s.threads u ≠ .idle → ∀ c, (Mode.one t high).only = some c → u = c := by
    intro u running c same
    cases same
    exact not_not.mp fun other => running (h.idle u other)
  cases a with
  | invoke u op =>
      obtain ⟨rfl, below⟩ := own u op rfl
      exact ⟨fun c same => Option.some.inj same, below⟩
  | advance u choice =>
      simp only [Protocol.May]
      split
      · rename_i thread
        exact ⟨only u (by simp [thread]), fun vis => vis.elim, fun current => current.elim⟩
      · rename_i thread
        exact ⟨only u (by simp [thread]), fun current => current.elim⟩
      · trivial
  | respond u => exact fun vis => vis.elim
  | interfere e => trivial

theorem thread_eq (h : OneRunning high cfg t m s g) (own : ∀ u op, a = .invoke u op → u = t ∧ op.key < kKeyMax)
    (step : (system cfg).step s a = some s') {u : Client} (moves : a.thread? = some u) : u = t := by
  refine not_not.mp fun other => ?_
  cases a with
  | invoke v op =>
      cases moves
      exact other (own u op rfl).1
  | advance v choice =>
      cases moves
      simp [System.step, h.idle u other] at step
  | respond v =>
      cases moves
      simp [System.step, h.idle u other] at step
  | interfere e => cases moves

theorem others_idle (h : OneRunning high cfg t m s g) (own : ∀ u op, a = .invoke u op → u = t ∧ op.key < kKeyMax)
    (step : (system cfg).step s a = some s') {u : Client} (other : u ≠ t) : s'.threads u = .idle := by
  rw [(system cfg).step_other step fun moves => other (h.thread_eq own step moves)]
  exact h.idle u other

theorem step (h : OneRunning high cfg t m s g) (own : ∀ u op, a = .invoke u op → u = t ∧ op.key < kKeyMax)
    (step : (system cfg).step s a = some s') :
    ∃ g', OneRunning high cfg t (mapAfter m (System.events s a)) s' g' ∧ (∀ a l x, g.Linked a l x → g'.Linked a l x) ∧
      ∀ es, Replays (mapAfter m (System.events s a)) es → Replays m (System.events s a ++ es) := by
  obtain ⟨g', good', effect, rely⟩ :=
    Protocol.good_step (protocol_sound (.one t high) cfg) h.good (h.may own) step
  have linked : ∀ a l x, g.Linked a l x → g'.Linked a l x := by
    refine (rely (t + 1) fun moves => ?_).linked
    exact absurd (h.thread_eq own step moves) (Nat.succ_ne_self t)
  have idle : ∀ u, u ≠ t → s'.threads u = .idle := fun u other => h.others_idle own step other
  cases a with
  | invoke u op =>
      obtain ⟨rfl, -⟩ := own u op rfl
      obtain ⟨bindings, -, unused, ghost⟩ := effect
      refine ⟨g', ⟨good', idle, ?_⟩, linked, fun es replays => replays⟩
      have represents := h.agrees.represents fun op' r' posted => by
        simp [postedTrack, show g.status u = none from unused] at posted
      have started : postedTrack g' u = some (op, none) := by
        simp only at ghost
        simp [postedTrack, ghost]
      unfold Agrees
      rw [started, bindings]
      exact represents
  | advance u choice =>
      cases h.thread_eq own step rfl
      refine ⟨g', ⟨good', idle, ?_⟩, linked, fun es replays => replays⟩
      simp only [Protocol.Effect] at effect
      split at effect
      · exact h.agrees.linearizes effect.2.posted
      · simp only [Prod.mk.injEq] at effect
        rw [effect.1, effect.2]
        exact h.agrees
  | respond u =>
      cases h.thread_eq own step rfl
      obtain ⟨op, r, thread, -, -, bindings, -, ghost, posted, -⟩ := effect
      have posted : postedTrack g t = some (op, some r) := posted (.inl rfl)
      have agrees := h.agrees
      unfold Agrees at agrees
      rw [posted] at agrees
      simp only [System.events, thread]
      refine ⟨g', ⟨good', idle, ?_⟩, linked, fun es replays => ⟨agrees.1.symm, replays⟩⟩
      have done : postedTrack g' t = none := by
        simp only at ghost
        simp [postedTrack, ghost]
      unfold Agrees
      rw [done, bindings]
      exact agrees.2
  | interfere e =>
      obtain ⟨bindings, track, -, -⟩ := effect
      exact ⟨g', ⟨good', idle, h.agrees.congr bindings (congrFun track t)⟩, linked, fun es replays => replays⟩

theorem throughout {as : List (Action Client Op Choice Env)} (h : OneRunning high cfg t m s g) (own : OneClient t as) :
    (system cfg).Throughout (protocol (.one t high) cfg).May s as := by
  induction as generalizing m s g with
  | nil => trivial
  | cons a as ih =>
      have mine : ∀ u op, a = .invoke u op → u = t ∧ op.key < kKeyMax := fun u op same => own u op (by simp [same])
      refine ⟨h.may mine, fun s' step => ?_⟩
      obtain ⟨g', next, -, -⟩ := h.step mine step
      exact ih next fun u op later => own u op (List.mem_cons_of_mem a later)

theorem replays {as : List (Action Client Op Choice Env)} (h : OneRunning high cfg t m s g) (own : OneClient t as) :
    Replays m ((system cfg).history s as) := by
  induction as generalizing m s g with
  | nil => trivial
  | cons a as ih =>
      simp only [System.history]
      split
      · trivial
      · rename_i s' step
        obtain ⟨g', next, -, replays⟩ := h.step (fun u op same => own u op (by simp [same])) step
        exact replays _ (ih next fun u op later => own u op (List.mem_cons_of_mem a later))

theorem run {as : List (Action Client Op Choice Env)} (h : OneRunning high cfg t m s g) (own : OneClient t as)
    (run : (system cfg).run s as = some s') :
    ∃ g', OneRunning high cfg t (mapAfter m ((system cfg).history s as)) s' g' := by
  induction as generalizing m s g with
  | nil =>
      cases run
      exact ⟨g, h⟩
  | cons a as ih =>
      obtain ⟨u, step, rest⟩ := (system cfg).run_cons.mp run
      obtain ⟨g', next, -, -⟩ := h.step (fun u op same => own u op (by simp [same])) step
      obtain ⟨g'', last⟩ := ih next (fun u op later => own u op (List.mem_cons_of_mem a later)) rest
      refine ⟨g'', ?_⟩
      simp only [System.history, step, mapAfter, List.foldl_append]
      exact last

theorem represents (h : OneRunning high cfg t m s g) (idle : s.threads t = .idle) :
    Represents (LeafMap s.shared) m := by
  have unused : g.status t = none := h.good.of_idle idle
  rw [h.good.1.tree.leafMap]
  exact h.agrees.represents fun op r posted => by simp [postedTrack, unused] at posted

end OneRunning

theorem oneRunning_init (high : Prop) (cfg : Config) (t : Client) {root : GlobalAddress} (nonnull : root ≠ .null) :
    OneRunning high cfg t (fun _ => none) (State.init root) (Ghost.init root) := by
  refine ⟨init_good (.one t high) cfg nonnull, fun _ _ => rfl, ?_⟩
  have empty : Represents (Bindings (.init root) (.init root)) fun _ => none := by
    intro k v
    simp [init_bindings]
  exact empty

/-- The tree of a single client is a finite map. -/
theorem sequential_map (cfg : Config) (t : Client) {root : GlobalAddress} (nonnull : root ≠ .null)
    {as : List (Action Client Op Choice Env)} (own : OneClient t as) :
    Replays (fun _ => none) ((system cfg).history (State.init root) as) :=
  (oneRunning_init True cfg t nonnull).replays own

theorem sequential_map_growth : Replays (fun _ => none) growthHistory := by
  obtain ⟨-, -, -, -, -, -, history, -⟩ := growth_spec
  rw [← history]
  exact sequential_map oneLock 0 (by decide) growth_own

end Sherman
