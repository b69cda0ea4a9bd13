import Sherman.Tree.CacheStoring
import Sherman.Tree.Sequential

namespace Sherman

open Shared Concurrency IndexCache

variable {cfg : Config} {c : Client} {w : World} {k : Key} {v : Value}

/-! ## The operations -/

theorem adds_insertFromRoot {Q : Unit → World → Prop} (sane : Sane cfg c w) (complete : Complete w)
    (free : AllCurrent cfg c w ∨ (ownCache cfg c w).NoHit k) (h : ∀ w', Whole w' → Q () w') :
    Adds cfg c (insertFromRoot k v) Q w := by
  refine adds_bind (adds_rootPtr fun root w₁ calm₁ sane₁ rootOk => ?_)
  have way : Way cfg c k root w₁ := ⟨sane₁, complete.calm calm₁ sane sane₁,
    rootOk.desc (free.imp (fun current => current.same calm₁.toSame) fun missed => calm₁.cache.noHit missed)⟩
  exact adds_loop way (fun _ => id) (fun _ _ _ => id) fun _ => h

theorem adds_delFromRoot {Q : Unit → World → Prop} (sane : Sane cfg c w) (complete : Complete w)
    (free : AllCurrent cfg c w ∨ (ownCache cfg c w).NoHit k) (h : ∀ w', Whole w' → Q () w') :
    Adds cfg c (delFromRoot k) Q w := by
  refine adds_bind (adds_rootPtr fun root w₁ calm₁ sane₁ rootOk => ?_)
  have way : Way cfg c k root w₁ := ⟨sane₁, complete.calm calm₁ sane sane₁,
    rootOk.desc (free.imp (fun current => current.same calm₁.toSame) fun missed => calm₁.cache.noHit missed)⟩
  exact adds_loop way (fun _ => id) (fun _ _ _ => id) fun _ => h

theorem Kept.allCurrent (sane : Sane cfg c w) (off : ¬ (w.1.dir (cfg.nodeOf c)).enableCache = true) :
    AllCurrent cfg c w := allCurrent_of_empty (sane.cache.empty (Bool.eq_false_iff.mpr off))

theorem adds_insert {Q : Unit → World → Prop} (sane : Sane cfg c w) (complete : Complete w)
    (h : ∀ w', Whole w' → Q () w') : Adds cfg c (insert k v) Q w := by
  refine adds_skip trivial fun _ w₁ calm₁ sane₁ => ?_
  refine adds_loadEnableCache fun w₂ calm₂ sane₂ => ?_
  have complete₂ := complete.calm (calm₁.trans calm₂) sane sane₂
  split
  · refine adds_searchFromCache fun w₃ calm₃ sane₃ => ?_
    have complete₃ := complete₂.calm calm₃ sane₂ sane₃
    split
    · rename_i entry cacheAddr hit
      have only := sane₃.cache.narrow.onlyHit sane₃.cache.ok hit
      refine adds_bind (adds_rootPtr fun root w₄ calm₄ sane₄ _ => ?_)
      refine adds_call fun w₅ calm₅ sane₅ _ => ?_
      have complete₅ := complete₃.calm (calm₄.trans calm₅) sane₃ sane₅
      refine ⟨complete₅, fun stored w₆ _ post => ?_⟩
      cases stored with
      | true => exact adds_ret fun w₇ calm₇ sane₇ => h w₇ (Whole.calm post calm₇ sane₇)
      | false =>
          have same₆ : Same cfg c w₃ w₆ := (calm₄.trans calm₅).toSame.trans post
          refine adds_invalidate (same₆.cache.onlyHit only) fun w₇ calm₇ sane₇ missed => ?_
          have complete₇ := complete₃.same (same₆.trans calm₇.toSame).toSameInner sane₃.tree sane₇.tree
          exact adds_insertFromRoot sane₇ complete₇ (.inr missed) h
    · rename_i missed
      exact adds_insertFromRoot sane₃ complete₃ (.inr (sane₃.cache.narrow.noHit sane₃.cache.ok missed)) h
  · rename_i off
    exact adds_insertFromRoot sane₂ complete₂ (.inl (sane₂.allCurrent off)) h

theorem adds_del {Q : Unit → World → Prop} (sane : Sane cfg c w) (complete : Complete w)
    (h : ∀ w', Whole w' → Q () w') : Adds cfg c (del k) Q w := by
  refine adds_skip trivial fun _ w₁ calm₁ sane₁ => ?_
  refine adds_loadEnableCache fun w₂ calm₂ sane₂ => ?_
  have complete₂ := complete.calm (calm₁.trans calm₂) sane sane₂
  split
  · refine adds_searchFromCache fun w₃ calm₃ sane₃ => ?_
    have complete₃ := complete₂.calm calm₃ sane₂ sane₃
    split
    · rename_i entry cacheAddr hit
      have only := sane₃.cache.narrow.onlyHit sane₃.cache.ok hit
      refine adds_call fun w₄ calm₄ sane₄ _ => ⟨trivial, fun deleted w₅ _ post => ?_⟩
      have same₅ : Same cfg c w₃ w₅ := calm₄.toSame.trans post
      cases deleted with
      | true =>
          refine adds_ret fun w₆ calm₆ sane₆ => h w₆ (sane₆.whole ?_)
          exact complete₃.same (same₅.trans calm₆.toSame).toSameInner sane₃.tree sane₆.tree
      | false =>
          refine adds_invalidate (same₅.cache.onlyHit only) fun w₆ calm₆ sane₆ missed => ?_
          have complete₆ := complete₃.same (same₅.trans calm₆.toSame).toSameInner sane₃.tree sane₆.tree
          exact adds_delFromRoot sane₆ complete₆ (.inr missed) h
    · rename_i missed
      exact adds_delFromRoot sane₃ complete₃ (.inr (sane₃.cache.narrow.noHit sane₃.cache.ok missed)) h
  · rename_i off
    exact adds_delFromRoot sane₂ complete₂ (.inl (sane₂.allCurrent off)) h

theorem adds_search {Q : Option Value → World → Prop} (sane : Sane cfg c w) (complete : Complete w)
    (h : ∀ value w', Whole w' → Q value w') : Adds cfg c (search k) Q w := by
  refine adds_bind (adds_rootPtr fun root w₁ calm₁ sane₁ rootOk => ?_)
  have fromRoot : ∀ w', Calm cfg c w₁ w' → Sane cfg c w' → AllCurrent cfg c w' ∨ (ownCache cfg c w').NoHit k →
      Adds cfg c (call (.searchNext root k root none)) Q w' := by
    intro w' calm' sane' free
    have complete' := complete.calm (calm₁.trans calm') sane sane'
    have way : Way cfg c k root w' := ⟨sane', complete', (rootOk.same calm'.toSame).desc free⟩
    exact adds_loop way (fun _ => id) (fun _ _ _ => id) h
  refine adds_loadEnableCache fun w₂ calm₂ sane₂ => ?_
  split
  · refine adds_searchFromCache fun w₃ calm₃ sane₃ => ?_
    have calm := calm₂.trans calm₃
    split
    · rename_i entry cacheAddr hit
      have only := sane₃.cache.narrow.onlyHit sane₃.cache.ok hit
      have whole₃ : Whole w₃ := ⟨sane₃.tree, complete.calm (calm₁.trans calm) sane sane₃⟩
      refine adds_wholeCall whole₃ (fun w₄ calm₄ sane₄ whole₄ => ?_)
        fun value _ _ _ post u calm sane => h value u (Whole.calm post calm sane)
      exact ⟨whole₄.complete, calm₄.cache.onlyHit only, rootOk.same (calm.trans calm₄).toSame⟩
    · rename_i missed
      exact fromRoot w₃ calm sane₃ (.inr (sane₃.cache.narrow.noHit sane₃.cache.ok missed))
  · rename_i off
    exact fromRoot w₂ calm₂ sane₂ (.inl (sane₂.allCurrent off))

theorem adds_main {op : Op} (sane : Sane cfg c w) (complete : Complete w) :
    Adds cfg c (main op) (fun _ w' => Complete w') w := by
  cases op with
  | insert k v =>
      refine adds_bind (adds_insert sane complete fun w₁ whole₁ => adds_ret fun w₂ calm₂ sane₂ => ?_)
      exact (whole₁.calm calm₂ sane₂).complete
  | del k =>
      refine adds_bind (adds_del sane complete fun w₁ whole₁ => adds_ret fun w₂ calm₂ sane₂ => ?_)
      exact (whole₁.calm calm₂ sane₂).complete
  | search k =>
      refine adds_bind (adds_search sane complete fun value w₁ whole₁ => adds_ret fun w₂ calm₂ sane₂ => ?_)
      exact (whole₁.calm calm₂ sane₂).complete

/-! ## The obligations -/

theorem adds_body {p : Proc} (sane : Sane cfg c w) (pre : Pre (.one c True) cfg c p w) (more : CachePre cfg c p w) :
    Adds cfg c (body cfg p) (CachePost cfg c p w) w := by
  cases p with
  | pageSearch a k fromCache => exact adds_pageSearchBody sane pre more
  | internalPageStore a k v root level => exact adds_internalPageStore sane pre more
  | internalSplitUp a splitKey sibling root level => exact adds_internalSplitUp sane pre more
  | leafPageStore a k v root level fromCache => exact adds_leafPageStore sane more
  | leafSplitUp a splitKey sibling root level fromCache => exact adds_leafSplitUp sane pre more
  | leafPageDel a k level fromCache => exact adds_leafPageDel cfg c w
  | insertInternalNext p k v root level => exact adds_insertInternalNext sane pre more
  | insertNext p k v root => exact adds_insertNext ⟨sane, more.1, more.2⟩
  | delNext p k => exact adds_delNext ⟨sane, more.1, more.2⟩
  | searchNext p k root entry =>
      cases entry with
      | none => exact adds_searchNext_direct ⟨sane, more.1, more.2⟩
      | some e => exact adds_searchNext_cached sane more.1 pre more.2.1 more.2.2

theorem caching_sound (cfg : Config) (c : Client) : (caching cfg c).Sound (system cfg) where
  rely_idle t w w' rely _ idle same := by
    obtain ⟨calm, tree⟩ := rely same
    obtain ⟨inv, complete⟩ := idle same
    exact ⟨tree inv, complete.same calm.toSameInner inv (tree inv)⟩
  invoke t op w g inv cache idle may _ inv' others _ := by
    obtain rfl := may.1 c rfl
    have calm : Calm cfg t w (w.1, g) := ghost_calm (others (t + 1) (Nat.succ_ne_self t)).linked
    have cache' : CacheInv cfg t (w.1, g) := cache.keep cache.ok calm.linked calm.cache calm.enabled
    exact ⟨cache', fun _ _ _ => ⟨calm, fun _ => inv'.tree⟩, rfl, ((idle rfl).calm calm ⟨inv', cache'⟩).complete⟩
  respond t op r w g inv cache finished _ inv' others _ := by
    have calm : Calm cfg c w (w.1, g) := ghost_calm (others (t + 1) (Nat.succ_ne_self t)).linked
    have cache' : CacheInv cfg c (w.1, g) := cache.keep cache.ok calm.linked calm.cache calm.enabled
    exact ⟨cache', fun _ _ _ => ⟨calm, fun _ => inv'.tree⟩,
      fun _ => Whole.calm ⟨inv.tree, finished⟩ calm ⟨inv', cache'⟩⟩
  interfere e w s g inv cache step inv' all := by
    obtain ⟨calm, ok⟩ := interfere_calm (s, g) inv step (all c).linked
    exact ⟨cache.keep (ok _ cache.ok) calm.linked calm.cache calm.enabled, fun _ _ => ⟨calm, fun _ => inv'.tree⟩⟩
  main t op w inv cache _ started := by
    obtain ⟨rfl, complete⟩ := started
    exact adds_main ⟨inv, cache⟩ complete
  proc t p w inv cache pre more may := by
    obtain rfl := may.1 c rfl
    exact adds_body ⟨inv, cache⟩ pre more

/-! ## Runs -/

variable {root : GlobalAddress}

theorem init_caching (nonnull : root ≠ .null) :
    (caching cfg c).strengthen.Good (system cfg) (State.init root) (Ghost.init root) := by
  obtain ⟨inv, idle⟩ := init_good (.one c True) cfg nonnull
  have nothing : ∀ x ∈ ownCache cfg c (Shared.init root, Ghost.init root), False := fun x hx => by cases hx
  refine ⟨⟨inv, ⟨ok_nil, fun x hx => (nothing x hx).elim, fun x hx => (nothing x hx).elim,
    fun x hx => (nothing x hx).elim⟩, fun filled => absurd rfl filled⟩, fun t => ⟨idle t, fun _ => ⟨inv.tree, ?_⟩⟩⟩
  intro b y linked
  cases (init_linked.mp linked).2.1

theorem cacheInv_of_run (nonnull : root ≠ .null) {as : List (Action Client Op Choice Env)} (own : OneClient c as)
    {s : State} (run : (system cfg).run (State.init root) as = some s) :
    ∃ g, TreeInv s.shared g ∧ CacheInv cfg c (s.shared, g) := by
  have sound := Protocol.Strengthening.strengthen_sound (protocol_sound (.one c True) cfg) (caching_sound cfg c)
  have may : (system cfg).Throughout (caching cfg c).strengthen.May (State.init root) as :=
    System.Throughout.mono (system cfg) (fun _ _ may =>
      Protocol.Strengthening.strengthen_may may (fun _ _ _ _ _ => trivial) fun _ _ _ => trivial)
      ((oneRunning_init True cfg c nonnull).throughout own)
  obtain ⟨g, good⟩ := Protocol.good_run sound (init_caching nonnull) may run
  exact ⟨g, good.1.1.tree, good.1.2⟩

end Sherman
