import Sherman.Tree.CacheSearching

namespace Sherman

open Shared Concurrency IndexCache

variable {cfg : Config} {c : Client} {w w' : World} {k : Key} {a root : GlobalAddress}

/-! ## The next page of a descent -/

structure Found (a : GlobalAddress) (k : Key) (r : SearchResult) (w w' : World) : Prop where
  routed : Routed a k r w
  linked : ∃ x, w.2.Linked a r.level x
  leaf : r.isLeaf = true ↔ r.level = 0
  sibling : r.slibing ≠ .null → ∃ y, w'.2.Linked r.slibing r.level y
  child : r.slibing = .null → r.level ≠ 0 → ∃ y, w'.2.Linked r.nextLevel (r.level - 1) y

theorem Descends.sibling {r : SearchResult} (desc : Descends cfg c k a w) (found : Found a k r w w')
    (cached : Cached cfg c a w w') (right : r.slibing ≠ .null) : Descends cfg c k r.slibing w' := by
  obtain ⟨x, linked⟩ := found.linked
  obtain ⟨y, next⟩ := found.sibling right
  rcases Nat.eq_zero_or_eq_succ_pred r.level with level | level
  · exact .inl ⟨y, level ▸ next⟩
  · rw [level] at linked next
    obtain ⟨p, view, past⟩ := found.routed _ x linked
    rw [if_pos right] at past
    rcases desc with ⟨z, leaf⟩ | current | ⟨missed, inside⟩
    · cases (linked.level_eq leaf).1
    · exact .inr (.inl (cached.current current))
    · have high : ∀ z, ¬ w.2.Linked a 1 z := by
        intro z one
        obtain ⟨page, same, below⟩ := inside z one
        rw [view, Option.some.injEq] at same
        subst same
        exact absurd below (not_lt.mpr past)
      refine .inr (.inr ⟨(cached.fades high).noHit missed, fun z one => ?_⟩)
      have same := (next.level_eq one).1
      exact absurd (same ▸ linked) (high x)

theorem Descends.child {r : SearchResult} (desc : Descends cfg c k a w) (complete : Complete w)
    (inv : TreeInv w.1 w.2) (inv' : TreeInv w'.1 w'.2) (found : Found a k r w w') (cached : Cached cfg c a w w')
    (down : r.slibing = .null) (inner : r.level ≠ 0) : Descends cfg c k r.nextLevel w' := by
  obtain ⟨x, linked⟩ := found.linked
  obtain ⟨y, next⟩ := found.child down inner
  obtain ⟨l, level⟩ := Nat.exists_eq_succ_of_ne_zero inner
  rw [level] at linked
  rw [level, Nat.succ_sub_one] at next
  obtain ⟨p, view, low, high, child⟩ : ∃ p, w.1.view a = some (.internal p) ∧ p.hdr.lowest ≤ k ∧ k < p.hdr.highest ∧
      r.nextLevel = p.child k := by
    obtain ⟨p, view, routed⟩ := found.routed _ x linked
    rw [if_neg (not_not.mpr down)] at routed
    exact ⟨p, view, routed⟩
  rcases desc with ⟨z, leaf⟩ | current | ⟨missed, inside⟩
  · cases (linked.level_eq leaf).1
  · exact .inr (.inl (cached.current current))
  · rcases Nat.eq_zero_or_pos l with rfl | pos
    · exact .inl ⟨y, next⟩
    · have above : ∀ z, ¬ w.2.Linked a 1 z := fun z one => absurd (linked.level_eq one).1 (by omega)
      refine .inr (.inr ⟨(cached.fades above).noHit missed, fun z one => ?_⟩)
      obtain rfl : l = 1 := (next.level_eq one).1
      have sound := inv.view_sound a _ view
      have info := sound.info.symm.trans linked.1
      simp only [Option.some.injEq, Prod.mk.injEq] at info
      obtain ⟨page, viewC, highC⟩ := complete.routes inv linked.2 view info.1 low high
      rw [child] at one ⊢
      exact ⟨page, (cached.view _ 0 z (cached.back inv inv' one)).trans viewC, highC⟩

theorem adds_pageSearch {β : Type} {fromCache : Bool} {next : Option SearchResult → Code β} {Q : β → World → Prop}
    (desc : ∀ w₁, Calm cfg c w w₁ → Sane cfg c w₁ → (∃ x, w₁.2.Linked a 1 x) → Descends cfg c k a w₁)
    (h : ∀ w₁ w₂ result, Calm cfg c w w₁ → Sane cfg c w₁ → Pre (.one c True) cfg c (.pageSearch a k fromCache) w₁ →
      Cached cfg c a w₁ w₂ → Sane cfg c w₂ →
      (result = none → fromCache = true) →
      (∀ r, result = some r → Found a k r w₁ w₂ ∧ (fromCache = true → r.slibing = .null)) →
        Adds cfg c (next result) Q w₂) :
    Adds cfg c (call (.pageSearch a k fromCache) >>= next) Q w := by
  refine adds_call fun w₁ calm₁ sane₁ pre => ⟨desc w₁ calm₁ sane₁, fun result w₂ post added => ?_⟩
  obtain ⟨cached₂, routed₂⟩ := added
  obtain ⟨-, -, answer⟩ := post
  refine adds_calm fun w₃ calm₃ sane₃ => ?_
  refine h w₁ w₃ result calm₁ sane₁ pre (cached₂.trans calm₃.toSame) sane₃ ?_ ?_
  · rintro rfl
    exact answer.1
  · rintro r rfl
    obtain ⟨l, x, linked, ⟨rfl, leaf, next⟩, -, direct⟩ := answer
    refine ⟨⟨routed₂ r rfl, ⟨x, linked⟩, leaf, fun right => ?_, fun down inner => ?_⟩, direct⟩
    · rw [if_pos right] at next
      obtain ⟨-, -, y, reach, -⟩ := next
      exact ⟨y, calm₃.linked _ _ _ reach.1⟩
    · rw [if_neg (not_not.mpr down), if_neg inner] at next
      obtain ⟨-, y, reach, -⟩ := next
      exact ⟨y, calm₃.linked _ _ _ reach.1⟩

/-! ## What a loop keeps -/

theorem CompleteBut.calm (complete : CompleteBut k w) (calm : Calm cfg c w w') (sane : Sane cfg c w)
    (sane' : Sane cfg c w') : CompleteBut k w' := complete.same calm.toSameInner sane.tree sane'.tree

theorem Whole.calm (whole : Whole w) (calm : Calm cfg c w w') (sane' : Sane cfg c w') : Whole w' :=
  ⟨sane'.tree, whole.complete.same calm.toSameInner whole.tree sane'.tree⟩

theorem Kept.whole (sane : Sane cfg c w) (complete : Complete w) : Whole w := ⟨sane.tree, complete⟩

structure Way (cfg : Config) (c : Client) (k : Key) (a : GlobalAddress) (w : World) : Prop where
  sane : Sane cfg c w
  complete : Complete w
  desc : Descends cfg c k a w

theorem Way.calm (way : Way cfg c k a w) (calm : Calm cfg c w w') (sane' : Sane cfg c w') : Way cfg c k a w' :=
  ⟨sane', way.complete.calm calm way.sane sane', way.desc.same calm.toSame way.sane.tree sane'.tree⟩

theorem Way.sibling {r : SearchResult} (way : Way cfg c k a w) (sane' : Sane cfg c w') (found : Found a k r w w')
    (cached : Cached cfg c a w w') (right : r.slibing ≠ .null) : Way cfg c k r.slibing w' :=
  ⟨sane', way.complete.same cached.toSameInner way.sane.tree sane'.tree, way.desc.sibling found cached right⟩

theorem Way.child {r : SearchResult} (way : Way cfg c k a w) (sane' : Sane cfg c w') (found : Found a k r w w')
    (cached : Cached cfg c a w w') (down : r.slibing = .null) (inner : r.level ≠ 0) : Way cfg c k r.nextLevel w' :=
  ⟨sane', way.complete.same cached.toSameInner way.sane.tree sane'.tree,
    way.desc.child way.complete way.sane.tree sane'.tree found cached down inner⟩

theorem adds_wholeCall {p : Proc} {Q : Ret p → World → Prop} (whole : Whole w)
    (pre : ∀ w', Calm cfg c w w' → Sane cfg c w' → Whole w' → CachePre cfg c p w')
    (post : ∀ r u u', Whole u → CachePost cfg c p u r u' → ∀ u'', Calm cfg c u' u'' → Sane cfg c u'' → Q r u'') :
    Adds cfg c (call p) Q w := by
  refine adds_lastCall fun w₁ calm₁ sane₁ _ => ?_
  have whole₁ := whole.calm calm₁ sane₁
  exact ⟨pre w₁ calm₁ sane₁ whole₁,
    fun r w₂ w₃ _ post₂ calm₃ sane₃ => post r w₁ w₂ whole₁ post₂ w₃ calm₃ sane₃⟩

theorem adds_loop {p : Proc} {Q : Ret p → World → Prop} (way : Way cfg c k a w)
    (pre : ∀ w', Complete w' ∧ Descends cfg c k a w' → CachePre cfg c p w')
    (post : ∀ u r u', CachePost cfg c p u r u' → Whole u') (h : ∀ r w', Whole w' → Q r w') :
    Adds cfg c (call p) Q w := by
  refine adds_wholeCall (way.sane.whole way.complete) (fun w₁ calm₁ sane₁ whole₁ => pre w₁ ⟨whole₁.complete, ?_⟩) ?_
  · exact (way.calm calm₁ sane₁).desc
  · exact fun r u u' _ left w₂ calm₂ sane₂ => h r w₂ ((post u r u' left).calm calm₂ sane₂)

/-! ## The loops -/

variable {v : Value}

theorem adds_searchPage {β : Type} {next : Option SearchResult → Code β} {Q : β → World → Prop}
    (way : Way cfg c k a w)
    (h : ∀ w₁ w₂ r, Way cfg c k a w₁ → Sane cfg c w₂ → Found a k r w₁ w₂ → Cached cfg c a w₁ w₂ →
      Adds cfg c (next (some r)) Q w₂) : Adds cfg c (call (.pageSearch a k false) >>= next) Q w := by
  refine adds_pageSearch (fun w₁ calm₁ sane₁ _ => (way.calm calm₁ sane₁).desc) ?_
  intro w₁ w₂ result calm₁ sane₁ _ cached₂ sane₂ lost answer
  cases result with
  | none => cases lost rfl
  | some r => exact h w₁ w₂ r (way.calm calm₁ sane₁) sane₂ (answer r rfl).1 cached₂

theorem adds_insertNext (way : Way cfg c k a w) :
    Adds cfg c (insertNext a k v root) (CachePost cfg c (.insertNext a k v root) w) w := by
  refine adds_searchPage way fun w₁ w₂ r way₁ sane₂ found cached => ?_
  have whole₂ : Whole w₂ := ⟨sane₂.tree, way₁.complete.same cached.toSameInner way₁.sane.tree sane₂.tree⟩
  have store : ∀ b, Adds cfg c (do let _ ← call (.leafPageStore b k v root 0 false))
      (CachePost cfg c (.insertNext a k v root) w) w₂ := by
    refine fun b => adds_bind (adds_wholeCall whole₂ (fun _ _ _ whole => whole.complete) ?_)
    intro stored u u' whole post u'' calm sane
    refine adds_ret fun u₃ calm₃ sane₃ => Whole.calm ?_ calm₃ sane₃
    cases stored with
    | true => exact Whole.calm post calm sane
    | false => exact sane.whole (whole.complete.same (post.toSameInner.trans calm.toSameInner) whole.tree sane.tree)
  have again : ∀ b, Way cfg c k b w₂ → Adds cfg c (call (.insertNext b k v root))
      (CachePost cfg c (.insertNext a k v root) w) w₂ := fun b way₂ =>
    adds_loop way₂ (fun _ => id) (fun _ _ _ => id) fun _ _ whole => whole
  dsimp only
  split
  · exact store a
  · refine adds_assert fun inner => ?_
    split
    · rename_i right
      exact again _ (way₁.sibling sane₂ found cached right)
    · rename_i down
      split
      · exact again _ (way₁.child sane₂ found cached (not_not.mp down) inner)
      · exact store _

theorem adds_delNext (way : Way cfg c k a w) :
    Adds cfg c (delNext a k) (CachePost cfg c (.delNext a k) w) w := by
  refine adds_searchPage way fun w₁ w₂ r way₁ sane₂ found cached => ?_
  have whole₂ : Whole w₂ := ⟨sane₂.tree, way₁.complete.same cached.toSameInner way₁.sane.tree sane₂.tree⟩
  have delete : ∀ b, Adds cfg c (do let _ ← call (.leafPageDel b k 0 false))
      (CachePost cfg c (.delNext a k) w) w₂ := by
    refine fun b => adds_bind (adds_wholeCall whole₂ (fun _ _ _ _ => trivial) ?_)
    intro deleted u u' whole post u'' calm sane
    refine adds_ret fun u₃ calm₃ sane₃ => Whole.calm ?_ calm₃ sane₃
    exact sane.whole (whole.complete.same (Same.toSameInner post |>.trans calm.toSameInner) whole.tree sane.tree)
  have again : ∀ b, Way cfg c k b w₂ → Adds cfg c (call (.delNext b k)) (CachePost cfg c (.delNext a k) w) w₂ :=
    fun b way₂ => adds_loop way₂ (fun _ => id) (fun _ _ _ => id) fun _ _ whole => whole
  dsimp only
  split
  · exact delete a
  · refine adds_assert fun inner => ?_
    split
    · rename_i right
      exact again _ (way₁.sibling sane₂ found cached right)
    · rename_i down
      split
      · exact again _ (way₁.child sane₂ found cached (not_not.mp down) inner)
      · exact delete _

theorem adds_searchNext_direct (way : Way cfg c k a w) :
    Adds cfg c (searchNext a k root none) (CachePost cfg c (.searchNext a k root none) w) w := by
  refine adds_searchPage way fun w₁ w₂ r way₁ sane₂ found cached => ?_
  have whole₂ : Whole w₂ := ⟨sane₂.tree, way₁.complete.same cached.toSameInner way₁.sane.tree sane₂.tree⟩
  have done : ∀ value : Option Value, Adds cfg c (pure value) (CachePost cfg c (.searchNext a k root none) w) w₂ :=
    fun value => adds_ret fun w₃ calm₃ sane₃ => whole₂.calm calm₃ sane₃
  have again : ∀ b, Way cfg c k b w₂ → Adds cfg c (call (.searchNext b k root none))
      (CachePost cfg c (.searchNext a k root none) w) w₂ := fun b way₂ =>
    adds_loop way₂ (fun _ => id) (fun _ _ _ => id) fun _ _ whole => whole
  dsimp only
  split
  · split
    · exact done _
    · split
      · rename_i right
        exact again _ (way₁.sibling sane₂ found cached right)
      · exact done _
  · rename_i inner
    by_cases right : r.slibing ≠ .null
    · rw [if_pos right]
      exact again _ (way₁.sibling sane₂ found cached right)
    · rw [if_neg right]
      exact again _ (way₁.child sane₂ found cached (not_not.mp right) (mt found.leaf.mpr inner))

theorem adds_searchNext_cached {e : CacheEntry} (sane : Sane cfg c w) (complete : Complete w)
    (pre : Pre (.one c True) cfg c (.searchNext a k root (some e)) w) (only : (ownCache cfg c w).OnlyHit k e)
    (rootOk : RootOk cfg c root w) :
    Adds cfg c (searchNext a k root (some e)) (CachePost cfg c (.searchNext a k root (some e)) w) w := by
  obtain ⟨-, ⟨l, x, reach, -, bottom⟩, -⟩ := pre
  obtain rfl := bottom rfl
  have high : ∀ w₁, Calm cfg c w w₁ → ∀ y, ¬ w₁.2.Linked a 1 y := fun w₁ calm y one =>
    absurd ((calm.linked _ _ _ reach.1).level_eq one).1 (by decide)
  refine adds_pageSearch (fun w₁ calm₁ _ levelOne => levelOne.elim fun y one => absurd one (high w₁ calm₁ y)) ?_
  intro w₁ w₂ result calm₁ sane₁ _ cached₂ sane₂ _ answer
  have same₂ : Same cfg c w w₂ :=
    calm₁.toSame.trans ⟨cached₂.toSameInner, cached₂.fades (high w₁ calm₁), cached₂.enabled⟩
  have whole₂ : Whole w₂ := ⟨sane₂.tree, complete.same same₂.toSameInner sane.tree sane₂.tree⟩
  cases result with
  | none =>
      refine adds_invalidate (same₂.cache.onlyHit only) fun w₃ calm₃ sane₃ missed => ?_
      have whole₃ := whole₂.calm calm₃ sane₃
      have desc₃ := (rootOk.same (same₂.trans calm₃.toSame)).desc (.inr missed)
      have way₃ : Way cfg c k root w₃ := ⟨sane₃, whole₃.complete, desc₃⟩
      exact adds_loop way₃ (fun _ => id) (fun _ _ _ => id) fun _ _ whole => whole
  | some r =>
      obtain ⟨found, direct⟩ := answer r rfl
      have done : ∀ value : Option Value, Adds cfg c (pure value)
          (CachePost cfg c (.searchNext a k root (some e)) w) w₂ := fun value =>
        adds_ret fun w₃ calm₃ sane₃ => whole₂.calm calm₃ sane₃
      obtain ⟨y, linked⟩ := found.linked
      have leaf := found.leaf.mpr ((calm₁.linked _ _ _ reach.1).level_eq linked).1.symm
      dsimp only
      rw [if_pos leaf]
      split
      · exact done _
      · rw [if_neg (not_not.mpr (direct rfl))]
        exact done _

end Sherman
