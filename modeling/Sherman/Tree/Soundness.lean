import Sherman.Tree.Splitting

namespace Sherman

open Shared Concurrency

variable {m : Mode} {cfg : Config} {t : Client} {w : World} {k : Key}

/-! ## Starting an operation -/

theorem Invariant.cached_reach (inv : Invariant m cfg w) {n : NodeID} {e : CacheEntry} {a : GlobalAddress}
    (hit : (w.1.cache n).searchFromCache k = some (e, a)) : ∃ x, Reach m w a 0 x ∧ x ≤ k := by
  obtain ⟨mem, p, ptr, low, -, rfl⟩ := IndexCache.searchFromCache_spec hit
  obtain ⟨sound, exposed⟩ := inv.cache_sound mem ptr
  obtain ⟨x, le, child⟩ := sound.ok.child_spec (sound.fromKey ▸ low)
  have points := sound.points.2 _ _ child
  rw [sound.level] at points
  refine ⟨x, ⟨points, fun vis => ?_⟩, le⟩
  exact ((exposed vis).2 _ _ child).2

theorem runs_insertFromRoot {v : Value} {Q : Unit → World → Prop} (bound : k < kKeyMax)
    (fresh : Fresh t (.insert k v) w) (empty : ∀ l, w.1.path t l = .null)
    (h : ∀ w', Committed m t (.insert k v) w' → Q () w') : Runs m cfg t (insertFromRoot k v) Q w := by
  refine runs_bind (runs_getRootPtr fun w₁ root rely₁ inv₁ ⟨top, linked, _⟩ => ?_)
  refine runs_lastCall fun w₂ rely₂ inv₂ => ⟨⟨bound, ⟨top, kKeyMin, root_reach inv₂ (rely₂.linked _ _ _ linked),
    Nat.zero_le k, .top (rely₂.linked _ _ _ linked)⟩, (rely₁.trans rely₂).status.fresh fresh,
    fun i _ => .inl ?_⟩, fun _ w₃ w₄ post rely₄ _ => h w₄ (rely₄.status.committed post)⟩
  rw [(rely₁.trans rely₂).path]
  exact empty i

theorem runs_delFromRoot {Q : Unit → World → Prop} (bound : k < kKeyMax) (fresh : Fresh t (.del k) w)
    (h : ∀ w', Committed m t (.del k) w' → Q () w') : Runs m cfg t (delFromRoot k) Q w := by
  refine runs_bind (runs_getRootPtr fun w₁ root rely₁ inv₁ ⟨top, linked, _⟩ => ?_)
  exact runs_lastCall fun w₂ rely₂ inv₂ => ⟨⟨bound, ⟨top, kKeyMin, root_reach inv₂ (rely₂.linked _ _ _ linked),
    Nat.zero_le k⟩, (rely₁.trans rely₂).status.fresh fresh⟩,
    fun _ w₃ w₄ post rely₄ _ => h w₄ (rely₄.status.committed post)⟩

theorem runs_beforeOperation {α : Type} {next : Unit → Code α} {Q : α → World → Prop}
    (h : ∀ w', StatusLe t w w' → (∀ l, w'.1.path t l = .null) → Runs m cfg t (next ()) Q w') :
    Runs m cfg t (verb .beforeOperation >>= next) Q w := by
  refine runs_path (fun _ _ => .null) (fun _ _ => rfl) (fun _ => ⟨id, trivial⟩) fun w₁ w₂ _ _ status _ path => h w₂ status ?_
  exact fun l => congrFun path l

theorem runs_insert {v : Value} {Q : Unit → World → Prop} (bound : k < kKeyMax)
    (fresh : Fresh t (.insert k v) w) (h : ∀ w', Committed m t (.insert k v) w' → Q () w') :
    Runs m cfg t (insert k v) Q w := by
  refine runs_beforeOperation fun w₁ status₁ empty₁ => ?_
  have fresh₁ := status₁.fresh fresh
  refine runs_load (fun s => (s.dir (cfg.nodeOf t)).enableCache) (fun _ _ => rfl) (fun _ => ⟨id, trivial⟩) fun w₂ rely₂ _ => ?_
  have fresh₂ := rely₂.status.fresh fresh₁
  have empty₂ : ∀ l, w₂.1.path t l = .null := fun l => by rw [rely₂.path]; exact empty₁ l
  split
  · rename_i enabled
    refine runs_load (fun s => (s.cache (cfg.nodeOf t)).searchFromCache k) (fun _ _ => rfl) (fun _ => ⟨id, trivial⟩)
      fun w₃ rely₃ inv₃ => ?_
    have fresh₃ := rely₃.status.fresh fresh₂
    have empty₃ : ∀ l, w₃.1.path t l = .null := fun l => by rw [rely₃.path]; exact empty₂ l
    split
    · rename_i entry cacheAddr hit
      obtain ⟨x, reach, le⟩ := inv₃.cached_reach hit
      refine runs_bind (runs_getRootPtr fun w₄ root rely₄ inv₄ ⟨top, linked, high⟩ => ?_)
      refine runs_call fun w₅ rely₅ _ => ?_
      have rely := rely₄.trans rely₅
      refine ⟨⟨rfl, bound, ⟨x, rely.extends.reach_mono reach, le⟩, rely.status.fresh fresh₃, ?_⟩,
        fun stored w₆ post => ?_⟩
      · unfold Route
        rw [if_pos rfl]
        refine ⟨fun l => by rw [rely.path]; exact empty₃ l, (rely₃.trans rely).enabled _ enabled, top,
          (high (rely₃.enabled _ enabled)).1, rely₅.linked _ _ _ linked⟩
      · cases stored with
        | true => exact runs_ret fun w₇ rely₇ _ => h w₇ (rely₇.status.committed post)
        | false =>
            obtain ⟨-, fresh₆, path₆⟩ := post
            refine runs_invalidate fun w₇ keeps₇ => ?_
            refine runs_insertFromRoot bound (keeps₇.status.fresh fresh₆) (fun l => ?_) h
            rw [keeps₇.path, path₆, rely.path]
            exact empty₃ l
    · exact runs_insertFromRoot bound fresh₃ empty₃ h
  · exact runs_insertFromRoot bound fresh₂ empty₂ h

theorem runs_del {Q : Unit → World → Prop} (bound : k < kKeyMax) (fresh : Fresh t (.del k) w)
    (h : ∀ w', Committed m t (.del k) w' → Q () w') : Runs m cfg t (del k) Q w := by
  refine runs_beforeOperation fun w₁ status₁ _ => ?_
  have fresh₁ := status₁.fresh fresh
  refine runs_load (fun s => (s.dir (cfg.nodeOf t)).enableCache) (fun _ _ => rfl) (fun _ => ⟨id, trivial⟩) fun w₂ rely₂ _ => ?_
  have fresh₂ := rely₂.status.fresh fresh₁
  split
  · refine runs_load (fun s => (s.cache (cfg.nodeOf t)).searchFromCache k) (fun _ _ => rfl) (fun _ => ⟨id, trivial⟩)
      fun w₃ rely₃ inv₃ => ?_
    have fresh₃ := rely₃.status.fresh fresh₂
    split
    · rename_i entry cacheAddr hit
      obtain ⟨x, reach, le⟩ := inv₃.cached_reach hit
      refine runs_call fun w₄ rely₄ _ => ⟨⟨rfl, bound, ⟨x, rely₄.extends.reach_mono reach, le⟩,
        rely₄.status.fresh fresh₃⟩, fun deleted w₅ post => ?_⟩
      cases deleted with
      | true => exact runs_ret fun w₆ rely₆ _ => h w₆ (rely₆.status.committed post)
      | false =>
          exact runs_invalidate fun w₆ keeps₆ => runs_delFromRoot bound (keeps₆.status.fresh post.2) h
    · exact runs_delFromRoot bound fresh₃ h
  · exact runs_delFromRoot bound fresh₂ h

theorem runs_search {Q : Option Value → World → Prop} (bound : k < kKeyMax) (fresh : Fresh t (.search k) w)
    (h : ∀ v w', Searched m t k (.value v) w' → Q v w') : Runs m cfg t (search k) Q w := by
  refine runs_bind (runs_getRootPtr fun w₁ root rely₁ inv₁ ⟨top, linked, _⟩ => ?_)
  have fresh₁ := rely₁.status.fresh fresh
  have next : ∀ w' p l x entry, Rely m cfg t w₁ w' → Reach m w' p l x → x ≤ k →
      (Option.isSome entry = true → l = 0) →
      Runs m cfg t (call (.searchNext p k root entry)) Q w' := by
    intro w' p l x entry rely reach le cached
    exact runs_lastCall fun w₂ rely₂ inv₂ => ⟨⟨bound, ⟨l, x, rely₂.extends.reach_mono reach, le, cached⟩,
      ⟨top, root_reach inv₂ ((rely.trans rely₂).linked _ _ _ linked)⟩,
      (rely.trans rely₂).status.fresh fresh₁⟩, fun v w₃ w₄ post rely₄ _ => h v w₄ (rely₄.status.searched post)⟩
  have fromRoot : ∀ w', Rely m cfg t w₁ w' → Invariant m cfg w' →
      Runs m cfg t (call (.searchNext root k root none)) Q w' := fun w' rely inv =>
    next w' root top kKeyMin none rely (root_reach inv (rely.linked _ _ _ linked)) (Nat.zero_le k)
      fun h => by cases h
  refine runs_load (fun s => (s.dir (cfg.nodeOf t)).enableCache) (fun _ _ => rfl) (fun _ => ⟨id, trivial⟩) fun w₂ rely₂ inv₂ => ?_
  split
  · refine runs_load (fun s => (s.cache (cfg.nodeOf t)).searchFromCache k) (fun _ _ => rfl) (fun _ => ⟨id, trivial⟩)
      fun w₃ rely₃ inv₃ => ?_
    split
    · rename_i entry cacheAddr hit
      obtain ⟨x, reach, le⟩ := inv₃.cached_reach hit
      exact next w₃ cacheAddr 0 x (some entry) (rely₂.trans rely₃) reach le fun _ => rfl
    · exact fromRoot w₃ (rely₂.trans rely₃) inv₃
  · exact fromRoot w₂ rely₂ inv₂

theorem runs_main {op : Op} (fresh : Fresh t op w) (bound : op.key < kKeyMax) :
    Runs m cfg t (main op) (Finished m t op) w := by
  cases op with
  | insert k v =>
      refine runs_bind (runs_insert bound fresh fun w₁ committed => runs_ret fun w₂ rely₂ _ => ?_)
      exact ⟨rfl, rely₂.status.committed committed⟩
  | del k =>
      refine runs_bind (runs_del bound fresh fun w₁ committed => runs_ret fun w₂ rely₂ _ => ?_)
      exact ⟨rfl, rely₂.status.committed committed⟩
  | search k =>
      refine runs_bind (runs_search bound fresh fun v w₁ searched => runs_ret fun w₂ rely₂ _ => ?_)
      exact rely₂.status.searched searched

/-! ## The obligations -/

theorem runs_body {p : Proc} (inv : Invariant m cfg w) (pre : Pre m cfg t p w) (may : MayCall m t p w.1) :
    Runs m cfg t (body cfg p) (Post m t p w) w := by
  cases p with
  | pageSearch a k fromCache => exact runs_pageSearch pre
  | internalPageStore a k v root level => exact runs_internalPageStore pre
  | internalSplitUp a splitKey sibling root level => exact runs_internalSplitUp inv pre may
  | leafPageStore a k v root level fromCache => exact runs_leafPageStore pre
  | leafSplitUp a splitKey sibling root level fromCache => exact runs_leafSplitUp inv pre may
  | leafPageDel a k level fromCache => exact runs_leafPageDel pre
  | insertInternalNext p k v root level => exact runs_insertInternalNext pre
  | insertNext p k v root => exact runs_insertNext pre
  | delNext p k => exact runs_delNext pre
  | searchNext p k root entry => exact runs_searchNext pre

theorem protocol_sound (m : Mode) (cfg : Config) : (protocol m cfg).Sound (system cfg) where
  guar_inv _ _ _ _ h := h.inv
  guar_rely _ _ _ _ h := h.rely
  guar_active t _ op w w' h active := (h.op t).trans active
  rely_active t op w w' h active := h.status.op.trans active
  rely_idle t w w' h idle := by
    rcases h.status with same | ⟨op, wr, r, before, -⟩
    · exact same.trans idle
    · cases before.symm.trans idle
  invoke t op w inv idle may := by
    have unused : w.2.status t = none := idle
    refine ⟨w.2.setStatus t (some ⟨op, none, none, none⟩), setStatus_invariant inv (by simp)
      fun _ => by simp [unused], fun u hu => setStatus_rely hu _, ⟨rfl, rfl, idle, rfl⟩, ?_, ?_, may.2⟩
    · simp [protocol]
    · exact Function.update_self t _ w.2.status
  respond t op r w inv active finished may := by
    have executed := fun vis => Finished.executed inv vis finished (may vis)
    refine ⟨w.2.setStatus t none, setStatus_invariant inv (by simp) fun vis op' wr x status => ?_,
      fun u hu => setStatus_rely hu _, ⟨rfl, rfl, rfl, Finished.posted finished, fun vis => ?_⟩,
      Function.update_self ..⟩
    · obtain ⟨run, status', -, done⟩ := executed vis
      rw [status'] at status
      cases status
      cases done
    · obtain ⟨run, status, rfl, done⟩ := executed vis
      simp [executedTrack, status, done]
  interfere e w s inv step := by
    obtain ⟨g, inv', rely, bindings, posted, executed, op⟩ := sound_interfere e w s inv step
    exact ⟨g, inv', rely, bindings, posted, executed, op⟩
  main t op w _ _ started := runs_main started.1 started.2
  proc t p w inv pre may := runs_body inv pre may

end Sherman
