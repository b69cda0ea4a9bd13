import Sherman.Tree.Committing

namespace Sherman

open Shared Concurrency

variable {m : Mode} {cfg : Config} {s s' : Shared} {g g' : Ghost}

theorem rely_execute (inv : Invariant m cfg (s, g)) {z : Posted} (executed : s.Executed z s')
    (info : g'.info = g.info) (owner : g'.owner = g.owner) (holding : g'.holding = g.holding)
    (owed : g'.owed = g.owed) {u : Client} (status : StatusLe u (s, g) (s', g')) :
    Rely m cfg u (s, g) (s', g') where
  linked a l x h := by
    have := linked_congr info owner
    exact this ▸ h
  reach _ a l x _ h h' := by
    obtain ⟨y, hy, links⟩ := h'
    refine h ⟨y, executed.pending_sub y hy, ?_⟩
    simpa only [Links, owner] using links
  path := by
    rw [executed.path]
  owner a h := ⟨owner ▸ h, by rw [info]⟩
  private_ a _ := ⟨fun quiet y hy => quiet y (executed.pending_sub y hy),
    congrFun (executed.view inv.lock.single) a⟩
  owed a h := owed ▸ h
  holding la h := by
    refine ⟨holding ▸ h, ?_⟩
    exact (executed.lock la).trans (if_neg (inv.lock.no_unlock_of_holding h z executed.mem_pending))
  held a l x h linked :=
    executed.mem_other (inv.lock.quiet_of_holding h linked.2 z executed.mem_pending)
  lock la b h := by
    rw [executed.lock] at h
    split at h
    · cases h
    · exact h
  pending y hy _ := executed.pending_sub y hy
  status := status
  enabled n h := by
    rw [executed.dir]
    exact h
  rooted n h := by
    rw [executed.dir]
    exact h

theorem bindings_execute (inv : Invariant m cfg (s, g)) {z : Posted} (executed : s.Executed z s')
    (owner : g'.owner = g.owner) : Bindings s' g' = Bindings s g := by
  funext k v
  simp only [Bindings, executed.view inv.lock.single, owner]

theorem interfere_execute (inv : Invariant m cfg (s, g)) {z : Posted} (executed : s.Executed z s') :
    ∃ g', Invariant m cfg (s', g') ∧ (∀ u, Rely m cfg u (s, g) (s', g')) ∧
      Bindings s' g' = Bindings s g ∧ postedTrack g' = postedTrack g ∧
      (m.visible → ∃ c, Linearizes c (executedTrack g) (Executed s g) (executedTrack g')
        (Executed s' g')) ∧ ∀ c, (g'.status c).map Running.op = (g.status c).map Running.op := by
  have single := inv.lock.single
  have tree := inv.tree.execute executed single
  have lock := inv.lock.execute executed
  have only : ∀ c, m.only = some c → ∀ y ∈ s'.pending, y.client = c :=
    fun c hc y hy => inv.only c hc y (executed.pending_sub y hy)
  have high : m.high → ∀ n, (s'.dir n).High := fun high n => executed.dir ▸ inv.high high n
  by_cases leaf : m.visible ∧ ∃ a p, z.write.target = some a ∧ g.owner a = none ∧
      s.mem a = some (.leaf p)
  · obtain ⟨vis, a, p, target, owner, mem⟩ := leaf
    have visible := inv.visible vis
    obtain ⟨op, r, commits⟩ :=
      visible.commit.pending z executed.mem_pending a p target owner mem
    have effect := visible.executed_effect inv.tree single executed target owner mem commits
    have status : g.status z.client = some ⟨op, some z.write, some r, none⟩ := commits.status
    refine ⟨g.setStatus z.client (some ⟨op, some z.write, some r, some r⟩),
      ⟨tree.congr rfl rfl rfl rfl rfl rfl rfl rfl rfl rfl, lock.congr rfl rfl rfl rfl rfl,
        fun _ => visible.execute_leaf inv.tree single executed commits, only, high⟩, fun u => ?_,
      bindings_execute inv executed rfl, ?_, fun _ => ⟨z.client, .inr ⟨op, r, ?_, ?_, effect⟩⟩, fun c => ?_⟩
    · refine rely_execute inv executed (by rfl) (by rfl) (by rfl) (by rfl) ?_
      by_cases same : u = z.client
      · subst same
        exact .inr ⟨op, z.write, r, status, Function.update_self _ _ _⟩
      · exact .inl (Function.update_of_ne same _ _)
    · funext c
      by_cases same : c = z.client
      · subst same
        simp [postedTrack, status]
      · simp [postedTrack, same]
    · simp [executedTrack, status]
    · funext c
      by_cases same : c = z.client
      · subst same
        simp [executedTrack]
      · simp [executedTrack, same]
    · by_cases same : c = z.client
      · subst same
        simp [status]
      · simp [same]
  · have off : m.visible → OffLeaves s g z.write :=
      fun vis a p target owner mem => leaf ⟨vis, a, p, target, owner, mem⟩
    exact ⟨g, ⟨tree, lock, fun vis => (inv.visible vis).execute_off inv.tree single executed (off vis),
      only, high⟩, fun u => rely_execute inv executed rfl rfl rfl rfl (.inl rfl),
      bindings_execute inv executed rfl, rfl,
      fun vis => ⟨z.client, .inl ⟨rfl, (off vis).executed_eq inv.tree single executed⟩⟩, fun _ => rfl⟩

theorem enabled_processNewRoot {d : Directory} {a : GlobalAddress} {level : Nat}
    (h : d.enableCache = true) : (d.processNewRoot a level).enableCache = true := by
  unfold Directory.processNewRoot
  split
  · simp [h]
  · exact h

theorem Directory.High.processNewRoot {d : Directory} (h : d.High) {a : GlobalAddress} {level : Nat} :
    (d.processNewRoot a level).High := by
  unfold Directory.processNewRoot
  split
  · rename_i newer
    intro enabled
    simp only [Bool.or_eq_true, decide_eq_true_eq] at enabled ⊢
    rcases enabled with old | high
    · exact (h old).trans newer.le
    · exact Int.ofNat_le.mpr high
  · exact h

theorem rooted_processNewRoot {d : Directory} {a : GlobalAddress} {level : Nat}
    (h : d.gRootPtr ≠ .null) (nonnull : a ≠ .null) : (d.processNewRoot a level).gRootPtr ≠ .null := by
  unfold Directory.processNewRoot
  split
  · exact nonnull
  · exact h

theorem sound_interfere (e : Env) (w : World) (s' : Shared) (inv : Invariant m cfg w)
    (step : interfere e w.1 = some s') :
    ∃ g', Invariant m cfg (s', g') ∧ (∀ u, Rely m cfg u w (s', g')) ∧
      Bindings s' g' = Bindings w.1 w.2 ∧ postedTrack g' = postedTrack w.2 ∧
      (m.visible → ∃ c, Linearizes c (executedTrack w.2) (Executed w.1 w.2) (executedTrack g')
        (Executed s' g')) ∧ ∀ c, (g'.status c).map Running.op = (w.2.status c).map Running.op := by
  obtain ⟨s, g⟩ := w
  cases e with
  | execute i =>
      obtain ⟨z, executed⟩ := executed_of_interfere step
      exact interfere_execute inv executed
  | deliver n i =>
      simp only [interfere] at step
      cases message : s.sent[i]? with
      | none => simp [message] at step
      | some x =>
          obtain ⟨a, level⟩ := x
          simp only [message, Option.some.injEq] at step
          subst step
          obtain ⟨high, linked⟩ := inv.tree.sent (a, level) (List.mem_of_getElem? message)
          have same : SamePages s
              { s with dir := Function.update s.dir n ((s.dir n).processNewRoot a level) } g g :=
            ⟨rfl, rfl, rfl, rfl, rfl, rfl⟩
          refine ⟨g, same.invariant inv (inv.tree.locate inv.tree.sent (fun i => ?_) inv.tree.cache)
            (inv.lock.congr rfl rfl rfl rfl rfl) (fun vis => (inv.visible vis).exposure.cache) fun high i => ?_,
            fun u => same.rely rfl (fun la h => ⟨h, rfl⟩) (fun la b h => h) (fun i h => ?_) fun i h => ?_,
            same.bindings, rfl, fun _ => ⟨0, .inl ⟨rfl, same.executed⟩⟩, fun _ => rfl⟩
          · by_cases at_n : i = n
            · subst at_n
              rw [Function.update_self]
              exact (inv.tree.dir i).processNewRoot high linked
            · rw [Function.update_of_ne at_n]
              exact inv.tree.dir i
          · by_cases at_n : i = n
            · subst at_n
              simp only [Function.update_self]
              exact (inv.high high i).processNewRoot
            · simp only [Function.update_of_ne at_n]
              exact inv.high high i
          · by_cases at_n : i = n
            · subst at_n
              simpa using enabled_processNewRoot h
            · simpa [at_n] using h
          · by_cases at_n : i = n
            · subst at_n
              simpa using rooted_processNewRoot h (inv.tree.ne_null linked)
            · simpa [at_n] using h
  | evict n e =>
      simp only [interfere, Option.some.injEq] at step
      subst step
      have frame := fun t : Client => frame_invalidate (t := t) inv n e
      refine ⟨g, (frame 0).inv, fun u => (frame (u + 1)).rely u (Nat.succ_ne_self u).symm, (frame 0).bindings,
        rfl, fun vis => ⟨0, .inl ⟨rfl, (frame 0).executed vis⟩⟩, fun _ => rfl⟩

/-! ## Invoking and returning -/

theorem setStatus_invariant (inv : Invariant m cfg (s, g)) {t : Client} {r : Option Running}
    (new : ∀ op w x, r ≠ some ⟨op, some w, some x, none⟩)
    (old : m.visible → ∀ op w x, g.status t ≠ some ⟨op, some w, some x, none⟩) :
    Invariant m cfg (s, g.setStatus t r) := by
  refine ⟨inv.tree.congr rfl rfl rfl rfl rfl rfl rfl rfl rfl rfl, inv.lock.congr rfl rfl rfl rfl rfl,
    fun vis => ?_, inv.only, inv.high⟩
  obtain ⟨exposure, disjoint, commit⟩ := inv.visible vis
  refine ⟨⟨exposure.mem, exposure.view, exposure.cache, exposure.target, exposure.owed⟩, disjoint,
    fun z hz a p target owner mem => ?_, fun c op w x status => ?_⟩
  · obtain ⟨op, x, c⟩ := commit.pending z hz a p target owner mem
    refine ⟨op, x, ?_, c.low, c.high, c.effect, c.shrinks⟩
    have other : z.client ≠ t := by
      intro same
      exact old vis op z.write x (same ▸ c.status)
    rw [Ghost.setStatus_status, Function.update_of_ne other]
    exact c.status
  · have other : c ≠ t := by
      rintro rfl
      rw [Ghost.setStatus_status, Function.update_self] at status
      exact new op w x status
    rw [Ghost.setStatus_status, Function.update_of_ne other] at status
    exact commit.status c op w x status

theorem setStatus_rely {t u : Client} (other : u ≠ t) (r : Option Running) :
    Rely m cfg u (s, g) (s, g.setStatus t r) :=
  ⟨fun _ _ _ h => h, fun _ _ _ _ _ h => h, rfl, fun _ h => ⟨h, rfl⟩, fun _ _ => ⟨id, rfl⟩,
    fun _ h => h, fun _ h => ⟨h, rfl⟩, fun _ _ _ _ _ => rfl, fun _ _ h => h, fun _ h _ => h,
    .inl (by simp [other]), fun _ h => h, fun _ h => h⟩

theorem Finished.executed (inv : Invariant m cfg (s, g)) (vis : m.visible) {t : Client} {op : Op}
    {r : Result} (finished : Finished m t op r (s, g)) (done : ¬ LinkPending s t) :
    ∃ run, g.status t = some run ∧ run.op = op ∧ run.executed = some r := by
  have committed : ∀ op, Committed m t op (s, g) → ∃ run, g.status t = some run ∧ run.op = op ∧
      run.executed = some .done := by
    rintro op ⟨commit, executed, status, h⟩
    rcases h vis with rfl | ⟨rfl, a, p, rfl⟩
    · exact ⟨_, status, rfl, rfl⟩
    · obtain ⟨pending, b, q, target, -, mem⟩ := (inv.visible vis).commit.status t _ _ _ status
      cases target
      exact absurd ⟨_, pending, rfl, a, p, rfl, by rw [mem]; rfl⟩ done
  cases op with
  | insert k v =>
      obtain ⟨rfl, h⟩ := finished
      exact committed _ h
  | del k =>
      obtain ⟨rfl, h⟩ := finished
      exact committed _ h
  | search k =>
      obtain ⟨posted, executed, status, -, h⟩ := finished
      exact ⟨_, status, rfl, h vis⟩

theorem Finished.posted {t : Client} {op : Op} {r : Result} (finished : Finished m t op r (s, g))
    (tracked : m.only = some t ∨ ∀ k, op ≠ .search k) : postedTrack g t = some (op, some r) := by
  cases op with
  | insert k v =>
      obtain ⟨rfl, commit, executed, status, -⟩ := finished
      simp only at status
      simp [postedTrack, status]
  | del k =>
      obtain ⟨rfl, commit, executed, status, -⟩ := finished
      simp only at status
      simp [postedTrack, status]
  | search k =>
      obtain ⟨posted, executed, status, h, -⟩ := finished
      simp only at status
      rcases tracked with only | h'
      · simp [postedTrack, status, h only]
      · exact absurd rfl (h' k)

end Sherman
