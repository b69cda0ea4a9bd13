import Sherman.Tree.Forest
import Sherman.Tree.Aborting

namespace Sherman

open Shared Concurrency

def clientOf : Event Client Op Result → Client
  | .invoke t _ => t
  | .respond t _ _ => t

def onTree (treeOf : Client → TreeID) (i : TreeID) (es : List (Event Client Op Result)) :
    List (Event Client Op Result) :=
  es.filter fun e => treeOf (clientOf e) = i

/-- A node that processes a `NEW_ROOT` message has no clients on other trees, or its globals stay as they
are. -/
def OwnRoots (cfg : Config) (treeOf : Client → TreeID) (S : ForestState) : ForestAction → Prop
  | .interfere (i, .deliver m k) => ∀ a level, (S.shared.sent i)[k]? = some (a, level) →
      (S.shared.dir m).processNewRoot a level = S.shared.dir m ∨ ∀ c, cfg.nodeOf c = m → treeOf c = i
  | _ => True

/-! ## What a reachable tree relies on -/

section Reachable
variable {cfg : Config} {s : State}

theorem TreeInv.mem_allocated {σ : Shared} {g : Ghost} (inv : TreeInv σ g) {a : GlobalAddress} {page : Page}
    (mem : σ.mem a = some page) : a ∈ σ.allocated := by
  refine not_not.mp fun fresh => ?_
  have info := (inv.mem_sound a page mem).info
  rw [(inv.allocated a fresh).1] at info
  cases info

theorem Reachable.unused (h : Reachable cfg s) {a : GlobalAddress} (fresh : a ∉ s.shared.allocated) :
    s.shared.mem a = none := by
  obtain ⟨g, good⟩ := h.good
  exact Option.eq_none_iff_forall_ne_some.mpr fun page mem => fresh (good.1.tree.mem_allocated mem)

theorem Reachable.sanctioned (h : Reachable cfg s) {c : Client} {op : Op} {v : Verb}
    {next : Resp v → Code Result} (thread : s.threads c = .running op (.verb v next)) {choice : Choice}
    {r : Resp v} {σ : Shared} (step : perform cfg c v choice s.shared = some (r, σ)) :
    ∃ g, Invariant .any cfg (s.shared, g) ∧ Sanctioned c v (s.shared, g) := by
  obtain ⟨g, good⟩ := h.good
  have moves : (system cfg).step s (.advance c choice) =
      some (State.setThread { s with shared := σ } c (.running op (next r))) := by
    simp only [System.step, thread, System.advance]
    rw [show (system cfg).perform c v choice s.shared = some (r, σ) from step]
  obtain ⟨g', -, effect, -⟩ := Protocol.good_step (protocol_sound .any cfg) good
    (may_any fun _ _ h => by cases h) moves
  simp only [Protocol.Effect, thread] at effect
  exact ⟨g, good.1, effect.2.sanctioned⟩

theorem Reachable.reads (h : Reachable cfg s) {c : Client} {op : Op} {a : GlobalAddress}
    {next : Option Page → Code Result} (thread : s.threads c = .running op (.verb (.readPage a) next))
    (drained : s.shared.drained c a.nodeID) : a ∈ s.shared.allocated := by
  have step : perform cfg c (.readPage a) .none s.shared = some (s.shared.mem a, s.shared) := if_pos drained
  obtain ⟨g, inv, page, mem⟩ := h.sanctioned thread step
  exact inv.tree.mem_allocated mem

theorem Reachable.decides (h : Reachable cfg s) {c : Client} {op : Op} {la : GlobalAddress}
    {next : Bool → Code Result} (thread : s.threads c = .running op (.verb (.canHandOver la) next)) :
    ∃ b, s.shared.lock la = some (c, b) := by
  have step : ∃ σ, perform cfg c (.canHandOver la) (.waiter true) s.shared = some (true, σ) := ⟨_, rfl⟩
  obtain ⟨σ, step⟩ := step
  obtain ⟨g, inv, holding⟩ := h.sanctioned thread step
  exact inv.lock.holding la c holding

end Reachable

/-! ## The forest and its trees -/

section Sim
variable {cfg : Config} {treeOf : Client → TreeID} {n : Nat} {S T : ForestState} {s : TreeID → State}
  {a : ForestAction}

/-- Each tree is in a state it can reach alone. -/
structure Sim (cfg : Config) (treeOf : Client → TreeID) (n : Nat) (S : ForestState) (s : TreeID → State) :
    Prop where
  reach : ∀ i, i < n → Reachable cfg (s i)
  part : ∀ i, i < n → Part cfg treeOf i S.shared (s i).shared
  threads : ∀ i, i < n → ∀ c, treeOf c = i → (s i).threads c = S.threads c
  idle : ∀ i, i < n → ∀ c, treeOf c ≠ i → (s i).threads c = .idle
  disjoint : ∀ i j, i < n → j < n → ∀ a, a ∈ (s i).shared.allocated → a ∈ (s j).shared.allocated → i = j
  unused : ∀ a, a ∉ S.shared.allocated → S.shared.mem a = none

/-- What tree `i` does alone for one step of the forest. -/
def Alone (cfg : Config) (treeOf : Client → TreeID) (i : TreeID) (s s' : State)
    (es : List (Event Client Op Result)) : Prop :=
  ∃ bs, KeysBelow bs ∧ (∀ u op, Action.invoke u op ∈ bs → treeOf u = i) ∧ (system cfg).run s bs = some s' ∧
    (system cfg).history s bs = onTree treeOf i es

theorem Alone.nil {i : TreeID} {σ : State} : Alone cfg treeOf i σ σ [] :=
  ⟨[], fun _ _ h => (nomatch h), fun _ _ h => (nomatch h), rfl, rfl⟩

theorem Alone.refl {i : TreeID} {σ : State} {es : List (Event Client Op Result)} (none : onTree treeOf i es = []) :
    Alone cfg treeOf i σ σ es :=
  ⟨[], fun _ _ h => (nomatch h), fun _ _ h => (nomatch h), rfl, none.symm⟩

theorem Reachable.step {σ σ' : State} {b : Action Client Op Choice Env} (h : Reachable cfg σ)
    (keys : ∀ t op, b = .invoke t op → op.key < kKeyMax) (step : (system cfg).step σ b = some σ') :
    Reachable cfg σ' := by
  obtain ⟨root, as, nonnull, below, run⟩ := h
  refine ⟨root, as ++ [b], nonnull, fun t op mem => ?_, ?_⟩
  · rcases List.mem_append.mp mem with mem | mem
    · exact below t op mem
    · exact keys t op (List.mem_singleton.mp mem).symm
  · exact (system cfg).run_append.mpr ⟨σ, run, (system cfg).run_cons.mpr ⟨σ', step, rfl⟩⟩

theorem Sim.move (sim : Sim cfg treeOf n S s) {j : TreeID} (lt : j < n) {b : Action Client Op Choice Env}
    {sj : State} (step : (system cfg).step (s j) b = some sj)
    (keys : ∀ t op, b = .invoke t op → op.key < kKeyMax ∧ treeOf t = j)
    (part : Part cfg treeOf j T.shared sj.shared)
    (other : ∀ k, k < n → k ≠ j → Part cfg treeOf k T.shared (s k).shared)
    (threads : ∀ c, treeOf c = j → sj.threads c = T.threads c) (idle : ∀ c, treeOf c ≠ j → sj.threads c = .idle)
    (rest : ∀ c, treeOf c ≠ j → T.threads c = S.threads c)
    (fresh : ∀ a ∈ sj.shared.allocated, a ∈ (s j).shared.allocated ∨ a ∉ S.shared.allocated)
    (unused : ∀ a, a ∉ T.shared.allocated → T.shared.mem a = none) {es : List (Event Client Op Result)}
    (events : System.events (s j) b = onTree treeOf j es) (silent : ∀ k, k ≠ j → onTree treeOf k es = []) :
    ∃ s', Sim cfg treeOf n T s' ∧ ∀ i, i < n → Alone cfg treeOf i (s i) (s' i) es := by
  have below : ∀ t op, b = .invoke t op → op.key < kKeyMax := fun t op same => (keys t op same).1
  have apart : ∀ k, k < n → k ≠ j → ∀ a, a ∈ sj.shared.allocated → a ∉ (s k).shared.allocated := by
    intro k ltk ne a mine theirs
    rcases fresh a mine with old | new
    · exact ne (sim.disjoint k j ltk lt a theirs old)
    · exact new ((sim.part k ltk).allocated a theirs)
  refine ⟨Function.update s j sj, ⟨fun i lti => ?_, fun i lti => ?_, fun i lti c own => ?_, fun i lti c own => ?_,
    fun i k lti ltk a hi hk => ?_, unused⟩, fun i lti => ?_⟩
  · by_cases same : i = j
    · subst same
      rw [Function.update_self]
      exact (sim.reach i lti).step below step
    · rw [Function.update_of_ne same]
      exact sim.reach i lti
  · by_cases same : i = j
    · subst same
      rw [Function.update_self]
      exact part
    · rw [Function.update_of_ne same]
      exact other i lti same
  · by_cases same : i = j
    · subst same
      rw [Function.update_self]
      exact threads c own
    · rw [Function.update_of_ne same]
      exact (sim.threads i lti c own).trans (rest c (own ▸ same)).symm
  · by_cases same : i = j
    · subst same
      rw [Function.update_self]
      exact idle c own
    · rw [Function.update_of_ne same]
      exact sim.idle i lti c own
  · by_cases same : i = j
    · subst same
      by_cases same' : k = i
      · exact same'.symm
      · rw [Function.update_self] at hi
        rw [Function.update_of_ne same'] at hk
        exact absurd hk (apart k ltk same' a hi)
    · rw [Function.update_of_ne same] at hi
      by_cases same' : k = j
      · subst same'
        rw [Function.update_self] at hk
        exact absurd hi (apart i lti same a hk)
      · rw [Function.update_of_ne same'] at hk
        exact sim.disjoint i k lti ltk a hi hk
  · by_cases same : i = j
    · subst same
      rw [Function.update_self]
      refine ⟨[b], fun t op mem => below t op (List.mem_singleton.mp mem).symm,
        fun t op mem => (keys t op (List.mem_singleton.mp mem).symm).2,
        (system cfg).run_cons.mpr ⟨sj, step, rfl⟩, ?_⟩
      simp only [System.history, step, List.append_nil]
      exact events
    · rw [Function.update_of_ne same]
      exact .refl (silent i same)

theorem Sim.moveThread (sim : Sim cfg treeOf n S s) {c : Client} (inside : treeOf c < n) {f : Forest} {σ : Shared}
    {th : Thread signature Op Result} {b : Action Client Op Choice Env}
    (step : (system cfg).step (s (treeOf c)) b = some (State.setThread { s (treeOf c) with shared := σ } c th))
    (keys : ∀ t op, b = .invoke t op → op.key < kKeyMax ∧ treeOf t = treeOf c)
    (part : Part cfg treeOf (treeOf c) f σ) (other : ∀ k, k < n → k ≠ treeOf c → Part cfg treeOf k f (s k).shared)
    (fresh : ∀ a ∈ σ.allocated, a ∈ (s (treeOf c)).shared.allocated ∨ a ∉ S.shared.allocated)
    (unused : ∀ a, a ∉ f.allocated → f.mem a = none) {es : List (Event Client Op Result)}
    (events : System.events (s (treeOf c)) b = es) (own : ∀ e ∈ es, clientOf e = c) :
    ∃ s', Sim cfg treeOf n (State.setThread { S with shared := f } c th) s' ∧
      ∀ i, i < n → Alone cfg treeOf i (s i) (s' i) es := by
  refine sim.move inside step keys part other (fun u mine => ?_) (fun u foreign => ?_) (fun u foreign => ?_) fresh
    unused ?_ fun k ne => ?_
  · by_cases same : u = c
    · subst same
      simp
    · rw [State.setThread_other _ same, State.setThread_other _ same]
      exact sim.threads _ inside u mine
  · rw [State.setThread_other _ fun same => foreign (congrArg treeOf same)]
    exact sim.idle _ inside u foreign
  · exact State.setThread_other _ (fun same => foreign (congrArg treeOf same)) _
  · exact events.trans (List.filter_eq_self.mpr fun e he => by simp [own e he]).symm
  · exact List.filter_eq_nil_iff.mpr fun e he => by simp [own e he, Ne.symm ne]

theorem Sim.invoke (sim : Sim cfg treeOf n S s) {c : Client} (inside : treeOf c < n) {op : Op}
    (below : op.key < kKeyMax) (step : (forest cfg treeOf).step S (.invoke c op) = some T) :
    ∃ s', Sim cfg treeOf n T s' ∧ ∀ i, i < n → Alone cfg treeOf i (s i) (s' i) [.invoke c op] := by
  have thread := sim.threads _ inside c rfl
  simp only [System.step] at step
  cases was : S.threads c with
  | running op rest => simp [was] at step
  | idle =>
      simp only [was, Option.some.injEq] at step
      subst step
      rw [was] at thread
      refine sim.moveThread inside (b := .invoke c op) (σ := (s (treeOf c)).shared) ?_ ?_ (sim.part _ inside)
        (fun k lt _ => sim.part k lt) (fun a ha => .inl ha) sim.unused rfl fun e he => ?_
      · simp only [System.step, thread]
        rfl
      · rintro t op' same
        cases same
        exact ⟨below, rfl⟩
      · cases List.mem_singleton.mp he
        rfl

theorem Sim.respond (sim : Sim cfg treeOf n S s) {c : Client} (inside : treeOf c < n)
    (step : (forest cfg treeOf).step S (.respond c) = some T) :
    ∃ s', Sim cfg treeOf n T s' ∧
      ∀ i, i < n → Alone cfg treeOf i (s i) (s' i) (System.events S (.respond c : ForestAction)) := by
  have thread := sim.threads _ inside c rfl
  simp only [System.step] at step
  cases was : S.threads c with
  | idle => simp [was] at step
  | running op rest =>
      rw [was] at thread
      cases rest with
      | fault e => simp [was] at step
      | verb v next => simp [was] at step
      | call p next => simp [was] at step
      | ret r =>
          simp only [was, Option.some.injEq] at step
          subst step
          simp only [System.events, was]
          refine sim.moveThread inside (b := .respond c) (σ := (s (treeOf c)).shared) ?_ ?_ (sim.part _ inside)
            (fun k lt _ => sim.part k lt) (fun a ha => .inl ha) sim.unused ?_ fun e he => ?_
          · simp only [System.step, thread]
          · rintro t op' same
            cases same
          · simp only [System.events, thread]
          · cases List.mem_singleton.mp he
            rfl

theorem Sim.advance (sim : Sim cfg treeOf n S s) {c : Client} (inside : treeOf c < n) {choice : Choice}
    (step : (forest cfg treeOf).step S (.advance c choice) = some T) :
    ∃ s', Sim cfg treeOf n T s' ∧ ∀ i, i < n → Alone cfg treeOf i (s i) (s' i) [] := by
  have thread := sim.threads _ inside c rfl
  simp only [System.step] at step
  cases was : S.threads c with
  | idle => simp [was] at step
  | running op rest =>
      rw [was] at thread
      simp only [was] at step
      cases rest with
      | ret r => cases step
      | fault e => cases step
      | call p next =>
          simp only [System.advance, Option.some.injEq] at step
          subst step
          refine sim.moveThread inside (b := .advance c choice) (σ := (s (treeOf c)).shared) ?_ ?_
            (sim.part _ inside) (fun k lt _ => sim.part k lt) (fun a ha => .inl ha) sim.unused rfl fun e he => ?_
          · simp only [System.step, thread, System.advance]
            rfl
          · rintro t op' same
            cases same
          · cases he
      | verb v next =>
          have part := sim.part _ inside
          simp only [System.advance, forest] at step
          cases result : perform cfg c v choice (S.shared.tree (treeOf c)) with
          | none => simp [result] at step
          | some pair =>
              obtain ⟨r, τ⟩ := pair
              simp only [result, Option.map_some, Option.some.injEq] at step
              subst step
              have decides : ∀ la, v = .canHandOver la → ∃ b, S.shared.lock la = some (c, b) := by
                rintro la rfl
                obtain ⟨b, owned⟩ := (sim.reach _ inside).decides thread
                exact ⟨b, (part.lock_own rfl).mp owned⟩
              have reads : ∀ a, v = .readPage a → a ∈ (s (treeOf c)).shared.allocated := by
                rintro a rfl
                refine (sim.reach _ inside).reads thread (part.drained ?_)
                simp only [perform] at result
                split at result
                · assumption
                · cases result
              have unused : ∀ a, a ∉ S.shared.allocated → (s (treeOf c)).shared.mem a = S.shared.mem a := by
                intro a free
                rw [sim.unused a free]
                exact (sim.reach _ inside).unused fun ha => free (part.allocated a ha)
              obtain ⟨σ, own, part', fresh⟩ := part.perform rfl reads unused result
              have touches := perform_touches decides result
              refine sim.moveThread inside (b := .advance c choice) (σ := σ) ?_ ?_ part'
                (fun k lt ne => (sim.part k lt).other rfl ne touches) fresh (fun a free => ?_) rfl fun e he => ?_
              · simp only [System.step, thread, System.advance]
                rw [show (system cfg).perform c v choice (s (treeOf c)).shared = some (r, σ) from own]
              · rintro t op' same
                cases same
              · have mem : τ.mem a = S.shared.mem a := congrFun touches.mem a
                exact mem.trans (sim.unused a fun ha => free (touches.allocated a ha))
              · cases he

/-! ### The environment -/

theorem Sim.moveShared (sim : Sim cfg treeOf n S s) {j : TreeID} (lt : j < n) {b : Action Client Op Choice Env}
    {f : Forest} {σ : Shared} (step : (system cfg).step (s j) b = some { s j with shared := σ })
    (unseen : ∀ t op, b ≠ .invoke t op) (part : Part cfg treeOf j f σ)
    (other : ∀ k, k < n → k ≠ j → Part cfg treeOf k f (s k).shared)
    (allocated : σ.allocated = (s j).shared.allocated) (unused : ∀ a, a ∉ f.allocated → f.mem a = none)
    (events : System.events (s j) b = []) :
    ∃ s', Sim cfg treeOf n { S with shared := f } s' ∧ ∀ i, i < n → Alone cfg treeOf i (s i) (s' i) [] :=
  sim.move (T := { S with shared := f }) lt step (fun t op same => absurd same (unseen t op)) part other
    (sim.threads _ lt) (sim.idle _ lt) (fun _ _ => rfl) (fun _ ha => .inl (allocated ▸ ha)) unused events
    fun _ _ => rfl

theorem Part.execute {f : Forest} {σ : Shared} {i₀ : TreeID} {x : Posted}
    (part : Part cfg treeOf (treeOf x.client) f σ) (pre post : List Posted) :
    Part cfg treeOf (treeOf x.client) (f.setTree i₀ ({ f.tree i₀ with pending := pre ++ post }.execute x.write))
      ({ σ with pending := (pre ++ post).filter fun z => treeOf z.client = treeOf x.client }.execute x.write) := by
  refine ⟨?_, ?_, fun la => ?_, fun c own => ?_, ?_, ?_, fun c own => ?_, fun a ha => ?_, fun a ha => ?_⟩
  · simp only [Forest.setTree, execute_rootPtr, Forest.tree, Function.update_eq_self]
    exact part.root
  · simp only [Forest.setTree, execute_pending]
  · simp only [Forest.setTree, execute_lock, Forest.tree]
    split
    · rfl
    · exact part.lock la
  · simp only [Forest.setTree, execute_dir, Forest.tree]
    exact part.dir c own
  · simp only [Forest.setTree, execute_sent, Forest.tree, Function.update_eq_self]
    exact part.sent
  · simp only [Forest.setTree, execute_cache, Forest.tree, Function.update_eq_self]
    exact part.cache
  · simp only [Forest.setTree, execute_path, Forest.tree]
    exact part.path c own
  · simp only [execute_allocated] at ha
    simp only [Forest.setTree, execute_mem, Forest.tree, part.mem a ha]
  · simp only [execute_allocated] at ha
    simp only [Forest.setTree, execute_allocated, Forest.tree]
    exact part.allocated a ha

theorem Part.execute_other {f : Forest} {σ : Shared} {i₀ k : TreeID} {x : Posted} {pre post : List Posted}
    (part : Part cfg treeOf k f σ) (ne : k ≠ treeOf x.client) (pending : f.pending = pre ++ x :: post)
    (apart : ∀ a, x.write.target = some a → a ∉ σ.allocated)
    (unlocks : ∀ la, x.write = .unlock la → ∃ b, f.lock la = some (x.client, b)) :
    Part cfg treeOf k (f.setTree i₀ ({ f.tree i₀ with pending := pre ++ post }.execute x.write)) σ := by
  refine part.congr ?_ ?_ (fun la => ?_) (fun c own => ?_) ?_ ?_ (fun c own => ?_) (fun a ha => ?_) fun a ha => ?_
  · simp only [Forest.setTree, execute_rootPtr, Forest.tree, Function.update_eq_self]
  · simp [Forest.setTree, pending, Ne.symm ne]
  · simp only [Forest.setTree, execute_lock, Forest.tree]
    split
    · rename_i unlock
      obtain ⟨b, owned⟩ := unlocks la unlock
      rw [owned]
      simp [Option.filter, Ne.symm ne]
    · rfl
  · simp only [Forest.setTree, execute_dir, Forest.tree]
  · simp only [Forest.setTree, execute_sent, Forest.tree, Function.update_eq_self]
  · simp only [Forest.setTree, execute_cache, Forest.tree, Function.update_eq_self]
  · simp only [Forest.setTree, execute_path, Forest.tree]
  · simp only [Forest.setTree, execute_mem, Forest.tree]
    exact if_neg fun target => apart a target ha
  · simp only [Forest.setTree, execute_allocated, Forest.tree]
    exact ha

theorem interfere_after {σ : Shared} {x : Posted} {pre post : List Posted} (pending : σ.pending = pre ++ x :: post) :
    interfere (.execute pre.length) σ =
      if ∀ y ∈ pre, y.client = x.client → y.write.node ≠ x.write.node then
        some ({ σ with pending := pre ++ post }.execute x.write)
      else none := by
  have found : σ.pending[pre.length]? = some x := by simp [pending]
  have before : σ.pending.take pre.length = pre := by simp [pending]
  have after : σ.pending.eraseIdx pre.length = pre ++ post := by
    rw [pending, List.eraseIdx_append_of_length_le le_rfl]
    simp
  simp only [interfere, found, before, after]

theorem Sim.execute (sim : Sim cfg treeOf n S s) (inside : ∀ c, treeOf c < n) {i₀ : TreeID} {k : Nat}
    (step : (forest cfg treeOf).step S (.interfere (i₀, .execute k)) = some T) :
    ∃ s', Sim cfg treeOf n T s' ∧ ∀ i, i < n → Alone cfg treeOf i (s i) (s' i) [] := by
  simp only [System.step, forest] at step
  cases result : interfere (.execute k) (S.shared.tree i₀) with
  | none => simp [result] at step
  | some τ =>
      simp only [result, Option.map_some, Option.some.injEq] at step
      subst step
      obtain ⟨x, ⟨pre, post, split, rest, first⟩, pending, rfl⟩ := executed_of_interfere result
      rw [execute_pending] at rest
      subst rest
      have lt := inside x.client
      have part := sim.part _ lt
      have pendingJ : (s (treeOf x.client)).shared.pending =
          (pre.filter fun z => treeOf z.client = treeOf x.client) ++
            x :: post.filter fun z => treeOf z.client = treeOf x.client := by
        rw [part.pending, show S.shared.pending = pre ++ x :: post from split]
        simp
      have mine : x ∈ (s (treeOf x.client)).shared.pending := by simp [pendingJ]
      obtain ⟨g, good⟩ := (sim.reach _ lt).good
      have allocated : ∀ a, x.write.target = some a → a ∈ (s (treeOf x.client)).shared.allocated := by
        intro a target
        refine not_not.mp fun fresh => ?_
        have known := good.1.lock.written x mine a target
        rw [(good.1.tree.allocated a fresh).1] at known
        cases known
      refine sim.moveShared lt
        (b := .interfere (.execute (pre.filter fun z => treeOf z.client = treeOf x.client).length))
        (f := S.shared.setTree i₀ ({ S.shared.tree i₀ with pending := pre ++ post }.execute x.write)) ?_
        (fun t op same => by cases same) (part.execute pre post) (fun k' lt' ne => ?_) ?_ (fun a free => ?_) rfl
      · simp only [System.step]
        rw [show (system cfg).interfere = interfere from rfl, interfere_after pendingJ, if_pos]
        · simp [List.filter_append]
        · exact fun y hy => first y (List.mem_of_mem_filter hy)
      · refine (sim.part k' lt').execute_other ne split (fun a target ha => ?_) fun la unlock => ?_
        · exact ne (sim.disjoint _ _ lt' lt a ha (allocated a target))
        · exact ⟨false, (part.lock_own rfl).mp (good.1.lock.unlocking x mine la unlock).2⟩
      · simp only [execute_allocated]
      · simp only [Forest.setTree, execute_allocated, execute_mem, Forest.tree] at free ⊢
        rw [if_neg fun target => free (part.allocated a (allocated a target))]
        exact sim.unused a free

theorem Sim.evict (sim : Sim cfg treeOf n S s) {i₀ : TreeID} {m : NodeID} {e : CacheEntry}
    (step : (forest cfg treeOf).step S (.interfere (i₀, .evict m e)) = some T) :
    ∃ s', Sim cfg treeOf n T s' ∧ ∀ i, i < n → Alone cfg treeOf i (s i) (s' i) [] := by
  cases step
  have frame : ∀ k, k < n → k ≠ i₀ → Part cfg treeOf k (S.shared.setTree i₀ { S.shared.tree i₀ with
      cache := Function.update (S.shared.cache i₀) m ((S.shared.cache i₀ m).invalidate e) }) (s k).shared := by
    intro k lt ne
    refine (sim.part k lt).congr ?_ rfl (fun _ => rfl) (fun _ _ => rfl) ?_ (Function.update_of_ne ne _ _)
      (fun _ _ => rfl) (fun _ _ => rfl) fun _ ha => ha
    · exact congrFun (Function.update_eq_self i₀ S.shared.roots) k
    · exact congrFun (Function.update_eq_self i₀ S.shared.sent) k
  by_cases lt : i₀ < n
  · have part := sim.part i₀ lt
    refine sim.moveShared lt (b := .interfere (.evict m e)) (f := S.shared.setTree i₀ { S.shared.tree i₀ with
      cache := Function.update (S.shared.cache i₀) m ((S.shared.cache i₀ m).invalidate e) }) rfl
      (fun t op same => by cases same) ?_ frame rfl sim.unused rfl
    · refine ⟨?_, part.pending, part.lock, part.dir, ?_, ?_, part.path, part.mem, part.allocated⟩
      · exact part.root.trans (congrFun (Function.update_eq_self i₀ S.shared.roots) i₀).symm
      · exact part.sent.trans (congrFun (Function.update_eq_self i₀ S.shared.sent) i₀).symm
      · simp [Forest.setTree, part.cache]
  · refine ⟨s, ⟨sim.reach, fun k ltk => frame k ltk fun same => lt (same ▸ ltk), sim.threads, sim.idle,
      sim.disjoint, sim.unused⟩, fun i _ => .nil⟩

theorem Sim.deliver (sim : Sim cfg treeOf n S s) {i₀ : TreeID} {m : NodeID} {k : Nat}
    (own : OwnRoots cfg treeOf S (.interfere (i₀, .deliver m k)))
    (step : (forest cfg treeOf).step S (.interfere (i₀, .deliver m k)) = some T) :
    ∃ s', Sim cfg treeOf n T s' ∧ ∀ i, i < n → Alone cfg treeOf i (s i) (s' i) [] := by
  simp only [System.step, forest, interfere] at step
  cases found : (S.shared.sent i₀)[k]? with
  | none => simp [Forest.tree, found] at step
  | some x =>
      obtain ⟨a, level⟩ := x
      simp only [Forest.tree, found, Option.map_some, Option.some.injEq] at step
      subst step
      have frame : ∀ j, j < n → (∀ c, treeOf c = j → cfg.nodeOf c = m →
          (S.shared.dir m).processNewRoot a level = S.shared.dir m) →
          Part cfg treeOf j (S.shared.setTree i₀ { S.shared.tree i₀ with
            dir := Function.update S.shared.dir m ((S.shared.dir m).processNewRoot a level) }) (s j).shared := by
        intro j lt unchanged
        refine (sim.part j lt).congr ?_ rfl (fun _ => rfl) (fun c mine => ?_) ?_ ?_ (fun _ _ => rfl)
          (fun _ _ => rfl) fun _ ha => ha
        · exact congrFun (Function.update_eq_self i₀ S.shared.roots) j
        · by_cases here : cfg.nodeOf c = m
          · simp [Forest.setTree, here, unchanged c mine here]
          · simp [Forest.setTree, here]
        · exact congrFun (Function.update_eq_self i₀ S.shared.sent) j
        · exact congrFun (Function.update_eq_self i₀ S.shared.cache) j
      rcases own a level found with unchanged | mine
      · exact ⟨s, ⟨sim.reach, fun j lt => frame j lt fun _ _ _ => unchanged, sim.threads, sim.idle, sim.disjoint,
          sim.unused⟩, fun i _ => .nil⟩
      · have other : ∀ j, j < n → j ≠ i₀ → ∀ c, treeOf c = j → cfg.nodeOf c = m →
            (S.shared.dir m).processNewRoot a level = S.shared.dir m :=
          fun j _ ne c own here => absurd (own.symm.trans (mine c here)) ne
        by_cases lt : i₀ < n
        · have part := sim.part i₀ lt
          refine sim.moveShared lt (b := .interfere (.deliver m k)) (f := S.shared.setTree i₀ { S.shared.tree i₀ with
            dir := Function.update S.shared.dir m ((S.shared.dir m).processNewRoot a level) })
            (σ := { (s i₀).shared with
              dir := Function.update (s i₀).shared.dir m (((s i₀).shared.dir m).processNewRoot a level) }) ?_
            (fun t op same => by cases same) ?_ (fun j ltj ne => frame j ltj (other j ltj ne)) rfl sim.unused rfl
          · simp only [System.step, system, interfere, part.sent, found]
          · refine ⟨?_, part.pending, part.lock, fun c own => ?_, ?_, ?_, part.path, part.mem, part.allocated⟩
            · exact part.root.trans (congrFun (Function.update_eq_self i₀ S.shared.roots) i₀).symm
            · by_cases here : cfg.nodeOf c = m
              · have same := part.dir c own
                rw [here] at same
                simp [Forest.setTree, here, same]
              · simp [Forest.setTree, here, part.dir c own]
            · exact part.sent.trans (congrFun (Function.update_eq_self i₀ S.shared.sent) i₀).symm
            · exact part.cache.trans (congrFun (Function.update_eq_self i₀ S.shared.cache) i₀).symm
        · exact ⟨s, ⟨sim.reach, fun j ltj => frame j ltj (other j ltj fun same => lt (same ▸ ltj)), sim.threads,
            sim.idle, sim.disjoint, sim.unused⟩, fun i _ => .nil⟩

/-! ### Runs -/

theorem Sim.step (sim : Sim cfg treeOf n S s) (inside : ∀ c, treeOf c < n)
    (keys : ∀ t op, a = .invoke t op → op.key < kKeyMax) (own : OwnRoots cfg treeOf S a)
    (step : (forest cfg treeOf).step S a = some T) :
    ∃ s', Sim cfg treeOf n T s' ∧ ∀ i, i < n → Alone cfg treeOf i (s i) (s' i) (System.events S a) := by
  cases a with
  | invoke c op => exact sim.invoke (inside c) (keys c op rfl) step
  | advance c choice => exact sim.advance (inside c) step
  | respond c => exact sim.respond (inside c) step
  | interfere e =>
      obtain ⟨i, e⟩ := e
      cases e with
      | execute k => exact sim.execute inside step
      | deliver m k => exact sim.deliver own step
      | evict m e => exact sim.evict step

theorem Sim.history (sim : Sim cfg treeOf n S s) (inside : ∀ c, treeOf c < n) {as : List ForestAction}
    (keys : ∀ t op, .invoke t op ∈ as → op.key < kKeyMax)
    (own : (forest cfg treeOf).Throughout (OwnRoots cfg treeOf) S as)
    {i : TreeID} (lt : i < n) :
    ∃ s', Alone cfg treeOf i (s i) s' ((forest cfg treeOf).history S as) := by
  induction as generalizing S s with
  | nil => exact ⟨s i, .nil⟩
  | cons a as ih =>
      simp only [System.history]
      split
      · exact ⟨s i, .nil⟩
      · rename_i T step
        obtain ⟨s', sim', alone⟩ := sim.step inside (fun t op same => keys t op (by simp [same]))
          own.1 step
        obtain ⟨bs, below, mine, run, history⟩ := alone i lt
        obtain ⟨σ, cs, below', mine', run', history'⟩ :=
          ih sim' (fun t op mem => keys t op (List.mem_cons_of_mem a mem)) (own.2 T step)
        refine ⟨σ, bs ++ cs, fun t op mem => ?_, fun t op mem => ?_,
          (system cfg).run_append.mpr ⟨s' i, run, run'⟩, ?_⟩
        · exact (List.mem_append.mp mem).elim (below t op) (below' t op)
        · exact (List.mem_append.mp mem).elim (mine t op) (mine' t op)
        · rw [(system cfg).history_append run, history, history']
          exact (List.filter_append _ _).symm

theorem Sim.init {roots : TreeID → GlobalAddress} (nonnull : ∀ i, i < n → roots i ≠ .null)
    (distinct : ∀ i j, i < n → j < n → roots i = roots j → i = j) :
    Sim cfg treeOf n (ForestState.init n roots) fun i => State.init (roots i) := by
  refine ⟨fun i lt => ⟨roots i, [], nonnull i lt, fun _ _ h => (nomatch h), rfl⟩, fun i lt => ?_,
    fun _ _ _ _ => rfl, fun _ _ _ _ => rfl, fun i j lti ltj a hi hj => ?_, fun a free => ?_⟩
  · have listed : roots i ∈ (List.range n).map roots := List.mem_map.mpr ⟨i, List.mem_range.mpr lt, rfl⟩
    refine ⟨rfl, rfl, fun _ => rfl, fun _ _ => rfl, rfl, rfl, fun _ _ => rfl, fun a ha => ?_, fun a ha => ?_⟩
    · cases List.mem_singleton.mp ha
      have stored : (Shared.init (roots i)).mem (roots i) = some (.leaf rootLeaf) := init_mem.mpr ⟨rfl, rfl⟩
      exact stored.trans (if_pos listed).symm
    · cases List.mem_singleton.mp ha
      exact listed
  · exact distinct i j lti ltj ((List.mem_singleton.mp hi).symm.trans (List.mem_singleton.mp hj))
  · exact if_neg free

end Sim

/-! ## Isolation -/

def withoutResult : Event Client Op Result → Event Client Op Unit
  | .invoke t op => .invoke t op
  | .respond t op _ => .respond t op ()

theorem Replays.unique {m : KeyMap} {es es' : List (Event Client Op Result)} (h : Replays m es)
    (h' : Replays m es') (same : es.map withoutResult = es'.map withoutResult) : es = es' := by
  induction es generalizing m es' with
  | nil => exact (List.map_eq_nil_iff.mp same.symm).symm
  | cons e es ih =>
      cases es' with
      | nil => cases same
      | cons e' es' =>
          obtain ⟨head, tail⟩ := List.cons.inj same
          cases e with
          | invoke t op =>
              cases e' with
              | invoke t' op' =>
                  cases head
                  exact congrArg _ (ih h h' tail)
              | respond t' op' r' => cases head
          | respond t op r =>
              cases e' with
              | invoke t' op' => cases head
              | respond t' op' r' =>
                  cases head
                  obtain ⟨rfl, rest⟩ := h
                  obtain ⟨rfl, rest'⟩ := h'
                  exact congrArg _ (ih rest rest' tail)

section Isolation
variable {cfg : Config} {treeOf : Client → TreeID} {n : Nat} {roots : TreeID → GlobalAddress}
  {as : List ForestAction}

/-- What the operations on a tree show is what they show when the tree is alone; where one client works on
the tree, its operations return what they return then. -/
theorem trees_isolated (inside : ∀ c, treeOf c < n) (nonnull : ∀ i, i < n → roots i ≠ .null)
    (distinct : ∀ i j, i < n → j < n → roots i = roots j → i = j)
    (keys : ∀ t op, .invoke t op ∈ as → op.key < kKeyMax)
    (own : (forest cfg treeOf).Throughout (OwnRoots cfg treeOf) (ForestState.init n roots) as) :
    (∀ i, i < n → ∃ s, Alone cfg treeOf i (State.init (roots i)) s
      ((forest cfg treeOf).history (ForestState.init n roots) as)) ∧
    ∀ (t : Client) (bs : Schedule), (∀ c, treeOf c = treeOf t → c = t) → OneClient t bs →
      (onTree treeOf (treeOf t) ((forest cfg treeOf).history (ForestState.init n roots) as)).map withoutResult =
        ((system cfg).history (State.init (roots (treeOf t))) bs).map withoutResult →
      onTree treeOf (treeOf t) ((forest cfg treeOf).history (ForestState.init n roots) as) =
        (system cfg).history (State.init (roots (treeOf t))) bs := by
  have sim : Sim cfg treeOf n _ _ := .init nonnull distinct
  refine ⟨fun i lt => sim.history inside keys own lt, fun t bs only alone same => ?_⟩
  obtain ⟨s', cs, below, mine, -, history⟩ := sim.history inside keys own (inside t)
  have single : OneClient t cs := fun u op mem => ⟨only u (mine u op mem), below u op mem⟩
  rw [← history] at same ⊢
  exact (sequential_map cfg t (nonnull _ (inside t)) single).unique
    (sequential_map cfg t (nonnull _ (inside t)) alone) same

end Isolation

/-! ## A tree that is not alone

Tree 0 grows past its first leaf, and its `NEW_ROOT` message is processed on a node where a client then
searches tree 1. -/

section Lift
variable {cfg : Config} {treeOf : Client → TreeID} {i : TreeID} {f : Forest} {S : ForestState} {s s' : State}
  {a : Action Client Op Choice Env} {as : Schedule}

theorem Forest.tree_setTree (f : Forest) (i : TreeID) (σ : Shared) : (f.setTree i σ).tree i = σ := by
  simp [Forest.tree, Forest.setTree]

theorem Forest.setTree_setTree (f : Forest) (i : TreeID) (σ τ : Shared) :
    (f.setTree i σ).setTree i τ = f.setTree i τ := by
  simp [Forest.setTree]

theorem Forest.setTree_tree (f : Forest) (i : TreeID) : f.setTree i (f.tree i) = f := by
  simp [Forest.tree, Forest.setTree]

def ForestState.growTo (S : ForestState) (i : TreeID) (s : State) : ForestState where
  shared := S.shared.setTree i s.shared
  threads := s.threads

def onForest (i : TreeID) : Action Client Op Choice Env → ForestAction
  | .invoke t op => .invoke t op
  | .advance t choice => .advance t choice
  | .respond t => .respond t
  | .interfere e => .interfere (i, e)

theorem step_onForest (own : ∀ t, a.thread? = some t → treeOf t = i) :
    (forest cfg treeOf).step (S.growTo i s) (onForest i a) = ((system cfg).step s a).map (S.growTo i) := by
  cases a with
  | invoke t op =>
      simp only [onForest, System.step, ForestState.growTo]
      cases s.threads t with
      | idle => rfl
      | running op rest => rfl
  | respond t =>
      simp only [onForest, System.step, ForestState.growTo]
      cases s.threads t with
      | idle => rfl
      | running op rest => cases rest <;> rfl
  | interfere e =>
      simp only [onForest, System.step, ForestState.growTo, forest, system, Forest.tree_setTree]
      cases interfere e s.shared with
      | none => rfl
      | some σ => simp [ForestState.growTo, Forest.setTree_setTree]
  | advance t choice =>
      simp only [onForest, System.step, ForestState.growTo]
      cases s.threads t with
      | idle => rfl
      | running op rest =>
          cases rest with
          | ret r => rfl
          | fault e => rfl
          | call p next => rfl
          | verb v next =>
              simp only [System.advance, forest, system, own t rfl, Forest.tree_setTree]
              cases perform cfg t v choice s.shared with
              | none => rfl
              | some x => simp [State.setThread, ForestState.growTo, Forest.setTree_setTree]

theorem run_onForest (cfg : Config) (own : ∀ a ∈ as, ∀ t, a.thread? = some t → treeOf t = i) :
    (forest cfg treeOf).run (S.growTo i s) (as.map (onForest i)) = ((system cfg).run s as).map (S.growTo i) := by
  induction as generalizing s with
  | nil => rfl
  | cons a as ih =>
      simp only [List.map_cons, System.run, step_onForest (own a List.mem_cons_self)]
      cases (system cfg).step s a with
      | none => rfl
      | some m => exact ih fun b later => own b (List.mem_cons_of_mem a later)

theorem history_clients {S : ForestState} {as : List ForestAction} {e : Event Client Op Result}
    (he : e ∈ (forest cfg treeOf).history S as) : ∃ a ∈ as, a.thread? = some (clientOf e) := by
  induction as generalizing S with
  | nil => cases he
  | cons a as ih =>
      simp only [System.history] at he
      split at he
      · cases he
      · rcases List.mem_append.mp he with now | later
        · refine ⟨a, List.mem_cons_self, ?_⟩
          cases a with
          | invoke t op =>
              cases List.mem_singleton.mp now
              rfl
          | advance t choice => cases now
          | interfere e => cases now
          | respond t =>
              simp only [System.events] at now
              split at now
              · cases List.mem_singleton.mp now
                rfl
              · cases now
        · obtain ⟨b, hb, moves⟩ := ih later
          exact ⟨b, List.mem_cons_of_mem a hb, moves⟩

end Lift

section Disturbed

def searchAlone : Schedule := .invoke 54 (.search 100) :: advances 54 7 ++ [.respond 54]

def growing : Schedule :=
  fillLeaf 100 ++ insertToLock 53 50 1 ++ splitLeaf 53 ⟨1, 24⟩ ++ growRoot 53 ⟨1, 32⟩ ++ advances 53 1

def disturbing : List ForestAction :=
  .interfere (0, .deliver 54 0) :: .invoke 54 (.search 100) :: List.replicate 12 (.advance 54 .none) ++ [.respond 54]

def disturbed : List ForestAction := growing.map (onForest 0) ++ disturbing

def oneOnSecond (c : Client) : TreeID := if c = 54 then 1 else 0

def twoRoots (i : TreeID) : GlobalAddress := ⟨1, 8 * (i + 1)⟩

def firstTree : State := ⟨(ForestState.init 2 twoRoots).shared.tree 0, fun _ => .idle⟩

theorem growing_clients : ∀ a ∈ growing, a.thread? ≠ some 54 := by
  have all : (growing.all fun a => a.thread? ≠ some 54) = true := by decide +kernel
  intro a ha
  simpa using List.all_eq_true.mp all a ha

def wrongAnswer : List (Event Client Op Result) :=
  [.invoke 54 (.search 100), .respond 54 (.search 100) (.value (some 1))]

def storeAndSearch : Schedule :=
  storeEntry 54 ++ [.respond 54, .invoke 54 (.search 5)] ++ advances 54 7 ++ [.respond 54, .invoke 54 (.search 100)] ++
    advances 54 7 ++ [.respond 54]

/-- Node 0 learns the root of tree 0, and client 0 searches tree 0 while client 54 works on tree 1. -/
def working : List ForestAction :=
  .interfere (0, .deliver 0 0) :: (insertToLock 54 5 7).map (onForest 1) ++
    (.invoke 0 (.search 100) :: List.replicate 12 (.advance 0 .none)) ++
    .respond 0 :: storeAndSearch.map (onForest 1)

def rightAnswers : List (Event Client Op Result) :=
  [.invoke 54 (.insert 5 7), .invoke 0 (.search 100), .respond 0 (.search 100) (.value (some 1)),
    .respond 54 (.insert 5 7) .done, .invoke 54 (.search 5), .respond 54 (.search 5) (.value (some 7)),
    .invoke 54 (.search 100), .respond 54 (.search 100) (.value none)]

theorem growing_run : ∃ s, (system oneLock).run firstTree growing = some s ∧
    (forest oneLock oneOnSecond).history ((ForestState.init 2 twoRoots).growTo 0 s) disturbing = wrongAnswer ∧
    (forest oneLock oneOnSecond).history ((ForestState.init 2 twoRoots).growTo 0 s) working = rightAnswers := by
  have answers : (((system oneLock).run firstTree growing).map fun s =>
      ((forest oneLock oneOnSecond).history ((ForestState.init 2 twoRoots).growTo 0 s) disturbing,
        (forest oneLock oneOnSecond).history ((ForestState.init 2 twoRoots).growTo 0 s) working)) =
        some (wrongAnswer, rightAnswers) := by
    rw [← replays_run]
    decide +kernel
  obtain ⟨s, run, same⟩ := Option.map_eq_some_iff.mp answers
  exact ⟨s, run, Prod.mk.inj same⟩

theorem growing_own : ∀ a ∈ growing, ∀ t, a.thread? = some t → oneOnSecond t = 0 := by
  intro a ha t moves
  refine if_neg ?_
  rintro rfl
  exact growing_clients a ha moves

theorem growing_lifts {s : State} (run : (system oneLock).run firstTree growing = some s) :
    (forest oneLock oneOnSecond).run (ForestState.init 2 twoRoots) (growing.map (onForest 0)) =
      some ((ForestState.init 2 twoRoots).growTo 0 s) := by
  have start : ForestState.init 2 twoRoots = (ForestState.init 2 twoRoots).growTo 0 firstTree := by
    simp only [ForestState.growTo, firstTree, Forest.setTree_tree]
    rfl
  have lifted := run_onForest oneLock (S := ForestState.init 2 twoRoots) (s := firstTree) growing_own
  rwa [← start, run] at lifted

theorem growing_silent : onTree oneOnSecond 1
    ((forest oneLock oneOnSecond).history (ForestState.init 2 twoRoots) (growing.map (onForest 0))) = [] := by
  refine List.filter_eq_nil_iff.mpr fun e he => ?_
  obtain ⟨b, hb, moves⟩ := history_clients he
  obtain ⟨a, ha, rfl⟩ := List.mem_map.mp hb
  have same : a.thread? = some (clientOf e) := by
    cases a with
    | interfere e => cases moves
    | _ => exact moves
  simp [growing_own a ha _ same]

theorem history_after_growing {s : State} (run : (system oneLock).run firstTree growing = some s) (as : List ForestAction) :
    onTree oneOnSecond 1 ((forest oneLock oneOnSecond).history (ForestState.init 2 twoRoots)
      (growing.map (onForest 0) ++ as)) =
    onTree oneOnSecond 1 ((forest oneLock oneOnSecond).history ((ForestState.init 2 twoRoots).growTo 0 s) as) := by
  have silent := growing_silent
  rw [onTree] at silent
  rw [(forest oneLock oneOnSecond).history_append (growing_lifts run), onTree, List.filter_append, silent]
  rfl

theorem disturbed_history : onTree oneOnSecond 1
    ((forest oneLock oneOnSecond).history (ForestState.init 2 twoRoots) disturbed) = wrongAnswer := by
  obtain ⟨s, run, answer, -⟩ := growing_run
  rw [disturbed, history_after_growing run, answer]
  rfl

theorem searchAlone_history : (system oneLock).history (State.init (twoRoots 1)) searchAlone =
    [.invoke 54 (.search 100), .respond 54 (.search 100) (.value none)] := by
  decide +kernel

def forestKeysBelow (as : List ForestAction) : Bool :=
  as.all fun a => match a with
    | .invoke _ op => op.key < kKeyMax
    | _ => true

theorem disturbed_keys : ∀ t op, .invoke t op ∈ disturbed → op.key < kKeyMax := by
  have all : forestKeysBelow disturbed = true := by decide +kernel
  intro t op mem
  simpa using List.all_eq_true.mp all _ mem

theorem oneOnSecond_own : ∀ c, oneOnSecond c = oneOnSecond 54 → c = 54 := by
  intro c same
  unfold oneOnSecond at same
  split at same
  · assumption
  · simp at same

theorem twoRoots_nonnull : ∀ i, i < 2 → twoRoots i ≠ .null := by
  intro i _ null
  have offset := congrArg GlobalAddress.nodeID null
  cases offset

theorem twoRoots_distinct : ∀ i j, i < 2 → j < 2 → twoRoots i = twoRoots j → i = j := by
  intro i j _ _ same
  have offset : 8 * (i + 1) = 8 * (j + 1) := congrArg GlobalAddress.offset same
  lia

theorem oneOnSecond_inside : ∀ c, oneOnSecond c < 2 := by
  intro c
  unfold oneOnSecond
  split <;> decide

theorem searchAlone_own : OneClient 54 searchAlone := by
  intro u op mem
  simp only [searchAlone, advances, List.mem_append, List.mem_cons, List.mem_replicate, List.not_mem_nil] at mem
  simp only [Action.invoke.injEq, reduceCtorEq, and_false, or_false] at mem
  obtain ⟨rfl, rfl⟩ := mem
  exact ⟨rfl, by decide⟩

/-- Trees are not isolated. -/
theorem trees_not_isolated : ¬ ∀ (cfg : Config) (treeOf : Client → TreeID) (n : Nat) (roots : TreeID → GlobalAddress)
    (as : List ForestAction) (bs : Schedule) (t : Client), (∀ c, treeOf c < n) →
    (∀ i, i < n → roots i ≠ .null) → (∀ i j, i < n → j < n → roots i = roots j → i = j) →
    (∀ t op, .invoke t op ∈ as → op.key < kKeyMax) → (∀ c, treeOf c = treeOf t → c = t) → OneClient t bs →
    (onTree treeOf (treeOf t) ((forest cfg treeOf).history (ForestState.init n roots) as)).map withoutResult =
      ((system cfg).history (State.init (roots (treeOf t))) bs).map withoutResult →
    onTree treeOf (treeOf t) ((forest cfg treeOf).history (ForestState.init n roots) as) =
      (system cfg).history (State.init (roots (treeOf t))) bs := by
  intro isolated
  have same := isolated oneLock oneOnSecond 2 twoRoots disturbed searchAlone 54 oneOnSecond_inside twoRoots_nonnull
    twoRoots_distinct disturbed_keys oneOnSecond_own searchAlone_own
  rw [show oneOnSecond 54 = 1 from rfl, disturbed_history, searchAlone_history] at same
  cases same rfl

/-! ### Two trees at work -/

def worked : List ForestAction := growing.map (onForest 0) ++ working

def workAlone : Schedule := insertToLock 54 5 7 ++ storeAndSearch

theorem worked_history : onTree oneOnSecond 1
    ((forest oneLock oneOnSecond).history (ForestState.init 2 twoRoots) worked) = onTree oneOnSecond 1 rightAnswers := by
  obtain ⟨s, run, -, answer⟩ := growing_run
  rw [worked, history_after_growing run, answer]

theorem workAlone_history : ((system oneLock).history (State.init (twoRoots 1)) workAlone).map withoutResult =
    (onTree oneOnSecond 1 rightAnswers).map withoutResult := by
  decide +kernel

theorem worked_keys : ∀ t op, .invoke t op ∈ worked → op.key < kKeyMax := by
  have all : forestKeysBelow worked = true := by decide +kernel
  intro t op mem
  simpa using List.all_eq_true.mp all _ mem

def learnsFirst : ForestAction → Bool
  | .interfere (i, .deliver m _) => i = 0 && m = 0
  | _ => true

theorem worked_ownRoots : (forest oneLock oneOnSecond).Throughout (OwnRoots oneLock oneOnSecond)
    (ForestState.init 2 twoRoots) worked := by
  have all : worked.all learnsFirst = true := by decide +kernel
  refine System.throughout_of_forall fun a member S => ?_
  have learns := List.all_eq_true.mp all a member
  cases a with
  | interfere e =>
      obtain ⟨i, e⟩ := e
      cases e with
      | deliver m k =>
          simp only [learnsFirst, Bool.and_eq_true, decide_eq_true_eq] at learns
          obtain ⟨rfl, rfl⟩ := learns
          refine fun b level sent => .inr fun c node => ?_
          rw [show c = 0 from node]
          rfl
      | _ => trivial
  | _ => trivial

theorem trees_isolated_working :
    (∀ i, i < 2 → ∃ s, Alone oneLock oneOnSecond i (State.init (twoRoots i)) s
      ((forest oneLock oneOnSecond).history (ForestState.init 2 twoRoots) worked)) ∧
    onTree oneOnSecond 1 rightAnswers = (system oneLock).history (State.init (twoRoots 1)) workAlone := by
  obtain ⟨alone, equal⟩ :=
    trees_isolated oneOnSecond_inside twoRoots_nonnull twoRoots_distinct worked_keys worked_ownRoots
  refine ⟨alone, ?_⟩
  rw [← worked_history]
  refine equal 54 workAlone oneOnSecond_own (oneClient_iff (by decide +kernel)) ?_
  rw [show oneOnSecond 54 = 1 from rfl, worked_history, workAlone_history]

end Disturbed
end Sherman
