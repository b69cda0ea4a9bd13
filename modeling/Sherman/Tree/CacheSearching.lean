import Sherman.Tree.CacheRules

namespace Sherman

open Shared Concurrency IndexCache

variable {cfg : Config} {c : Client} {w w' w'' : World} {k : Key} {a : GlobalAddress} {p : InternalPage}

/-! ## What `page_search` caches -/

theorem Same.cached (h : Same cfg c w w') : Cached cfg c a w w' :=
  ⟨h.toSameInner, h.enabled, fun _ => h.cache, fun current => current.same h⟩

theorem Cached.trans (h : Cached cfg c a w w') (h' : Same cfg c w' w'') : Cached cfg c a w w'' :=
  ⟨h.toSameInner.trans h'.toSameInner, h'.enabled ∘ h.enabled, fun high => (h.fades high).trans h'.cache,
    fun current => (h.current current).same h'⟩

theorem Cached.after (h' : Cached cfg c a w' w'') (h : Same cfg c w w') (inv : TreeInv w.1 w.2)
    (inv' : TreeInv w'.1 w'.2) : Cached cfg c a w w'' :=
  ⟨h.toSameInner.trans h'.toSameInner, h'.enabled ∘ h.enabled,
    fun high => h.cache.trans (h'.fades fun x linked => high x (h.back inv inv' linked)),
    fun current => h'.current (current.same h)⟩

theorem Routed.before {r : SearchResult} (routed : Routed a k r w') (h : SameInner w w') : Routed a k r w := by
  intro l x linked
  obtain ⟨p, view, answer⟩ := routed l x (h.linked _ _ _ linked)
  exact ⟨p, (h.view a l x linked) ▸ view, answer⟩

theorem CacheInv.addToCache (cacheInv : CacheInv cfg c w) (inv : TreeInv w.1 w.2)
    (linked : w.2.Linked a 1 p.hdr.lowest) (view : w.1.view a = some (.internal p)) (low : p.hdr.lowest ≤ k)
    (desc : Descends cfg c k a w) (on : (w.1.dir (cfg.nodeOf c)).enableCache = true)
    (mono : ∀ a l x, w.2.Linked a l x → w'.2.Linked a l x) (dir : w'.1.dir = w.1.dir)
    (added : ownCache cfg c w' = (ownCache cfg c w).addToCache p) : CacheInv cfg c w' := by
  have sound := inv.view_sound a _ view
  have ok : p.Ok := sound.ok
  have fence := ok.fence
  have level : p.hdr.level = 1 := by
    have info := sound.info.symm.trans linked.1
    simp only [Option.some.injEq, Prod.mk.injEq] at info
    exact info.1
  refine ⟨?_, fun _ => dir ▸ on⟩
  rw [added]
  refine (cacheInv.toCacheCovers.addToCache inv linked view fun x hx live meets => ?_).mono mono
  obtain ⟨before, after⟩ := cacheInv.covers inv linked.2 view level hx meets
  rcases desc with ⟨y, leaf⟩ | current | ⟨missed, inside⟩
  · cases (linked.level_eq leaf).1
  · obtain ⟨b, q, linkedB, viewB, lowB, highB⟩ := current x hx live
    have okB : q.Ok := (inv.view_sound b _ viewB).ok
    have fenceB := okB.fence
    have levelB : q.hdr.level = 1 := by
      have info := (inv.view_sound b _ viewB).info.symm.trans linkedB.1
      simp only [Option.some.injEq, Prod.mk.injEq] at info
      exact info.1
    obtain rfl := inv.page_unique (k := p.hdr.lowest) viewB linkedB.2 view linked.2 (levelB.trans level.symm)
      (lowB ▸ before) (by simp only [Page.hdr]; lia) le_rfl fence
    rw [view, Option.some.injEq, Page.internal.injEq] at viewB
    subst viewB
    exact ⟨lowB.ge, highB.le⟩
  · obtain ⟨page, same, high⟩ := inside _ linked
    rw [view, Option.some.injEq] at same
    subst same
    exact absurd ⟨before.trans low, (Nat.le_sub_one_of_lt high).trans after⟩ (missed x hx live)

theorem adds_cacheLevelOne {x : Key} {Q : Unit → World → Prop} (sane : Sane cfg c w)
    (linked : w.2.Linked a p.hdr.level x) (view : w.1.view a = some (.internal p)) (low : p.hdr.lowest ≤ k)
    (desc : (∃ x, w.2.Linked a 1 x) → Descends cfg c k a w)
    (h : ∀ w', Cached cfg c a w w' → Sane cfg c w' → Q () w') : Adds cfg c (cacheLevelOne p) Q w := by
  unfold cacheLevelOne
  split
  · rename_i level
    rw [level] at linked
    refine adds_loadEnableCache fun w₁ calm₁ sane₁ => ?_
    split
    · rename_i on
      refine adds_last (adds_verb fun w₂ choice r w₃ calm₂ sane₂ step mono inv₃ => ?_)
      simp only [perform, Option.some.injEq, Prod.mk.injEq, true_and] at step
      have calm := calm₁.trans calm₂
      have linked₂ := calm.linked _ _ _ linked
      have view₂ : w₂.1.view a = some (.internal p) := by rw [calm.all, view]
      have start : x = p.hdr.lowest := by
        have info := (sane₂.tree.view_sound a _ view₂).info.symm.trans linked₂.1
        simp only [Option.some.injEq, Prod.mk.injEq] at info
        exact info.2.symm
      subst start
      have added : ownCache cfg c w₃ = (ownCache cfg c w₂).addToCache p := by
        rw [ownCache, ← step]
        exact Function.update_self ..
      have all : w₃.1.view = w₂.1.view := by rw [← step]; exact view_congr rfl rfl
      have dir : w₃.1.dir = w₂.1.dir := by rw [← step]
      have cache₃ : CacheInv cfg c w₃ := sane₂.cache.addToCache sane₂.tree linked₂ view₂ low
        ((desc ⟨_, linked⟩).same calm.toSame sane.tree sane₂.tree) (calm₂.enabled on) mono dir added
      refine ⟨cache₃, adds_ret fun w₄ calm₄ sane₄ => h w₄ ?_ sane₄⟩
      have cached₃ : Cached cfg c a w₂ w₃ := by
        refine ⟨⟨by rw [← step], mono, fun b _ _ _ => by rw [all]⟩, fun on => by rwa [dir],
          fun high => absurd linked₂ (high _), fun current e he live => ?_⟩
        rcases mem_addToCache (added ▸ he) with he | rfl
        · obtain ⟨b, q, linkedB, viewB, range⟩ := current e he live
          exact ⟨b, q, mono _ _ _ linkedB, by rw [all, viewB], range⟩
        · exact ⟨a, p, mono _ _ _ linked₂, by rw [all, view₂], rfl, rfl⟩
      exact (cached₃.after calm.toSame sane.tree sane₂.tree).trans calm₄.toSame
    · exact adds_ret fun w₂ calm₂ sane₂ => h w₂ (calm₁.trans calm₂).toSame.cached sane₂
  · exact adds_ret fun w₁ calm₁ sane₁ => h w₁ calm₁.toSame.cached sane₁

/-! ## `page_search` -/

theorem adds_pageSearchAgain {fromCache : Bool} {w₀ : World} (sane₀ : Sane cfg c w₀)
    (desc : (∃ x, w₀.2.Linked a 1 x) → Descends cfg c k a w₀) (calm : Calm cfg c w₀ w) :
    Adds cfg c (call (.pageSearch a k fromCache)) (CachePost cfg c (.pageSearch a k fromCache) w₀) w := by
  refine adds_lastCall fun w₁ calm₁ sane₁ _ => ⟨fun levelOne => ?_, fun r w₂ w₃ _ post calm₃ _ => ?_⟩
  · obtain ⟨x, linked⟩ := levelOne
    have calm := calm.trans calm₁
    exact (desc ⟨x, calm.back sane₀.tree sane₁.tree linked⟩).same calm.toSame sane₀.tree sane₁.tree
  · obtain ⟨cached, routed⟩ := post
    have calm := calm.trans calm₁
    exact ⟨(cached.after calm.toSame sane₀.tree sane₁.tree).trans calm₃.toSame,
      fun r' same => (routed r' same).before calm.toSameInner⟩

theorem adds_searchLeaf {fromCache : Bool} {q : LeafPage} {w₀ : World} (sane₀ : Sane cfg c w₀)
    (desc : (∃ x, w₀.2.Linked a 1 x) → Descends cfg c k a w₀) (calm : Calm cfg c w₀ w)
    (view : w₀.1.view a = some (.leaf q)) :
    Adds cfg c (searchLeaf q a k fromCache) (CachePost cfg c (.pageSearch a k fromCache) w₀) w := by
  have done : ∀ result, Adds cfg c (pure result) (CachePost cfg c (.pageSearch a k fromCache) w₀) w := by
    refine fun result => adds_ret fun w₁ calm₁ _ => ⟨(calm.trans calm₁).toSame.cached, fun r _ l x linked => ?_⟩
    obtain ⟨p, internal, -⟩ := sane₀.tree.linked_internal linked
    rw [view] at internal
    cases internal
  unfold searchLeaf
  split
  · exact adds_pageSearchAgain sane₀ desc calm
  · split
    · exact done none
    · refine adds_assert fun _ => ?_
      split
      · exact done _
      · split
        · exact adds_stop
        · exact done _

theorem adds_searchInternal {fromCache : Bool} {w₀ : World} (sane₀ : Sane cfg c w₀) (sane : Sane cfg c w)
    (bound : k < kKeyMax) {l : Nat} {x : Key} (linked : w₀.2.Linked a l x) (le : x ≤ k)
    (desc : (∃ x, w₀.2.Linked a 1 x) → Descends cfg c k a w₀) (calm : Calm cfg c w₀ w)
    (view : w₀.1.view a = some (.internal p)) :
    Adds cfg c (searchInternal p a k fromCache) (CachePost cfg c (.pageSearch a k fromCache) w₀) w := by
  have sound := sane₀.tree.view_sound a _ view
  have info := sound.info.symm.trans linked.1
  simp only [Option.some.injEq, Prod.mk.injEq] at info
  obtain ⟨rfl, rfl⟩ := info
  have low : p.hdr.lowest ≤ k := le
  have desc' : (∃ x, w.2.Linked a 1 x) → Descends cfg c k a w := by
    rintro ⟨x, new⟩
    exact (desc ⟨x, calm.back sane₀.tree sane.tree new⟩).same calm.toSame sane₀.tree sane.tree
  unfold searchInternal
  refine adds_assert fun _ => adds_assert fun _ => ?_
  split
  · exact adds_pageSearchAgain sane₀ desc calm
  · refine adds_bind (adds_cacheLevelOne sane (calm.linked _ _ _ linked) (by rw [calm.all, view]) low desc'
      fun w₁ cached₁ sane₁ => ?_)
    have answer : ∀ r : SearchResult, (if r.slibing ≠ .null then p.hdr.highest ≤ k
        else p.hdr.lowest ≤ k ∧ k < p.hdr.highest ∧ r.nextLevel = p.child k) →
        Adds cfg c (pure (some r)) (CachePost cfg c (.pageSearch a k fromCache) w₀) w₁ := by
      refine fun r holds => adds_ret fun w₂ calm₂ _ =>
        ⟨(cached₁.after calm.toSame sane₀.tree sane.tree).trans calm₂.toSame, ?_⟩
      rintro r' same l x -
      cases same
      exact ⟨p, view, holds⟩
    split
    · rename_i past
      refine answer _ ?_
      have nonnull : p.hdr.siblingPtr ≠ .null := by
        rcases sound.points.1 with ⟨last, -⟩ | ⟨-, sibling⟩
        · exact absurd bound (not_lt.mpr (last ▸ past))
        · exact sane₀.tree.ne_null sibling
      rw [if_pos nonnull]
      exact past
    · rename_i inside
      have inside : k < p.hdr.highest := not_le.mp inside
      split
      · exact adds_stop
      · refine adds_ofExcept fun next found => answer _ ?_
        rw [InternalPage.search_ok low inside, Except.ok.injEq] at found
        exact ⟨low, inside, found.symm⟩

theorem adds_pageSearchBody {fromCache : Bool} (sane : Sane cfg c w)
    (pre : Pre (.one c True) cfg c (.pageSearch a k fromCache) w) (desc : (∃ x, w.2.Linked a 1 x) → Descends cfg c k a w) :
    Adds cfg c (pageSearch a k fromCache) (CachePost cfg c (.pageSearch a k fromCache) w) w := by
  obtain ⟨bound, l, x, reach, le, -⟩ := pre
  refine adds_readPage fun w₁ calm₁ sane₁ => ?_
  split
  · exact adds_stop
  · rename_i page view
    refine adds_bind (adds_storePath fun w₂ calm₂ sane₂ => ?_)
    have calm := calm₁.trans calm₂
    rw [calm₁.all] at view
    split
    · exact adds_searchLeaf sane desc calm view
    · exact adds_searchInternal sane sane₂ bound reach.1 le desc calm view
    · exact adds_stop

end Sherman
