import Sherman.Tree.CacheDescending

namespace Sherman

open Shared Concurrency IndexCache

variable {cfg : Config} {c : Client} {w w' : World} {k splitKey : Key} {a b v sibling root : GlobalAddress}
  {p p' q sib : InternalPage} {level : Nat}

/-! ## Writing a page above the leaves -/

theorem CompleteBut.internalWrite (complete : CompleteBut (if p.hdr.level = 2 then k else kKeyMin) w)
    (inv : TreeInv w.1 w.2) (inv' : TreeInv w'.1 w'.2) (linked : w.2.Linked a p.hdr.level p.hdr.lowest)
    (view : w.1.view a = some (.internal p)) (stored : p.Stored k v p')
    (wrote : Wrote (.page a (.internal p'.setConsistent)) w w') : Complete w' := by
  have written := wrote.written
  have linked' := wrote.linked _ _ _ linked
  refine complete.write inv inv' wrote.linked wrote.rootPtr (fun b l x _ other => wrote.others other) view ?_ ?_ ?_
  · intro one b y new low high
    -- the fences are the same
    have apart := inv'.disjoint a _ written linked'.2 b y (by
      simpa only [Page.hdr, InternalPage.setConsistent, stored.level, one] using new)
    simp only [Page.hdr, InternalPage.setConsistent, stored.lowest, stored.highest] at apart
    lia
  · intro two b y child
    by_cases same : y = k
    · exact parented_of_linked inv' (two ▸ linked') written ((stored.child v y).mpr (.inl ⟨rfl, same⟩))
    · exact parented_of_linked inv' (two ▸ linked') written ((stored.child b y).mpr (.inr ⟨same, child⟩))
  · intro nonzero _
    split at nonzero
    · rename_i two
      rw [if_pos two]
      exact parented_of_linked inv' (two ▸ linked') written ((stored.child v k).mpr (.inl ⟨rfl, rfl⟩))
    · exact absurd rfl nonzero

theorem CompleteBut.internalSplit (complete : CompleteBut (if p.hdr.level = 2 then k else kKeyMin) w)
    (inv : TreeInv w.1 w.2) (inv' : TreeInv w'.1 w'.2) (linked : w.2.Linked a p.hdr.level p.hdr.lowest)
    (view : w.1.view a = some (.internal p)) (stored : p.Stored k v p') (halves : p'.Halves b q sib splitKey)
    (other : b ≠ a) (new : w.1.view b = some (.internal sib.setConsistent))
    (wrote : Wrote (.page a (.internal q.setConsistent)) w w') :
    CompleteBut (if p.hdr.level = 1 then splitKey else kKeyMin) w' := by
  have written := wrote.written
  have linked' := wrote.linked _ _ _ linked
  have viewB : w'.1.view b = some (.internal sib.setConsistent) := (wrote.others other).trans new
  obtain ⟨levelQ, lowQ, highQ, -⟩ := halves.page_hdr
  obtain ⟨levelS, lowS, highS, -⟩ := halves.sibling_hdr
  rw [stored.level] at levelQ levelS
  rw [stored.lowest] at lowQ
  rw [stored.highest] at highS
  have linkedB := inv'.sibling_linked written stored halves
  have placed : p.hdr.level = 2 → ∀ d y, p'.Child d y → Parented w' y := by
    intro two d y child
    rcases (halves.child d y).mp child with left | right
    · exact parented_of_linked inv' (two ▸ linked') written left
    · exact parented_of_linked inv' (two ▸ linkedB) viewB right
  refine complete.write inv inv' wrote.linked wrote.rootPtr (fun d l x _ other => wrote.others other) view ?_ ?_ ?_
  · intro one d y start low high
    rw [if_pos one]
    have apart := inv'.disjoint a _ written linked'.2 d y (by
      simpa only [Page.hdr, InternalPage.setConsistent, levelQ, one] using start)
    have apart' := inv'.disjoint b _ viewB linkedB.2 d y (by
      simpa only [Page.hdr, InternalPage.setConsistent, levelS, one] using start)
    simp only [Page.hdr, InternalPage.setConsistent, lowQ, highQ] at apart
    simp only [Page.hdr, InternalPage.setConsistent, lowS, highS] at apart'
    lia
  · intro two d y child
    by_cases same : y = k
    · exact placed two v y ((stored.child v y).mpr (.inl ⟨rfl, same⟩))
    · exact placed two d y ((stored.child d y).mpr (.inr ⟨same, child⟩))
  · intro nonzero _
    split at nonzero
    · rename_i two
      rw [if_pos two]
      exact placed two v k ((stored.child v k).mpr (.inl ⟨rfl, rfl⟩))
    · exact absurd rfl nonzero

/-! ## `internal_page_store` -/

theorem adds_internalWrite (sane : Sane cfg c w) (complete : CompleteBut (if p.hdr.level = 2 then k else kKeyMin) w)
    (linked : w.2.Linked a p.hdr.level p.hdr.lowest) (view : w.1.view a = some (.internal p))
    (stored : p.Stored k v p') {Q : Unit → World → Prop} (h : ∀ w', Whole w' → Q () w') :
    Adds cfg c (writePageAndUnlock (.page a (.internal p'.setConsistent)) (cfg.lockAddr a) false) Q w := by
  refine adds_writePageAndUnlock fun w₁ w₂ w₃ calm₁ sane₁ wrote sane₂ calm₃ sane₃ => h w₃ (Whole.calm ?_ calm₃ sane₃)
  exact sane₂.whole ((complete.calm calm₁ sane sane₁).internalWrite sane₁.tree sane₂.tree (calm₁.linked _ _ _ linked)
    (by rw [calm₁.all, view]) stored wrote)

theorem adds_internalSplit (sane : Sane cfg c w) (complete : CompleteBut (if p.hdr.level = 2 then k else kKeyMin) w)
    (linked : w.2.Linked a p.hdr.level p.hdr.lowest) (view : w.1.view a = some (.internal p))
    (stored : p.Stored k v p') (halves : p'.Halves b q sib splitKey) (other : b ≠ a)
    (new : w.1.view b = some (.internal sib.setConsistent)) {Q : Unit → World → Prop} (h : ∀ w', Whole w' → Q () w') :
    Adds cfg c (do
      writePageAndUnlock (.page a (.internal q.setConsistent)) (cfg.lockAddr a) true
      call (.internalSplitUp a splitKey b root p.hdr.level)) Q w := by
  refine adds_bind (adds_writePageAndUnlock fun w₁ w₂ w₃ calm₁ sane₁ wrote sane₂ calm₃ sane₃ => ?_)
  have complete₂ := (complete.calm calm₁ sane sane₁).internalSplit sane₁.tree sane₂.tree (calm₁.linked _ _ _ linked)
    (by rw [calm₁.all, view]) stored halves other (by rw [calm₁.all, new]) wrote
  refine adds_lastCall fun w₄ calm₄ sane₄ _ => ⟨complete₂.calm (calm₃.trans calm₄) sane₂ sane₄, ?_⟩
  exact fun _ w₅ w₆ _ post calm₆ sane₆ => h w₆ (Whole.calm post calm₆ sane₆)

theorem adds_internalPageStore (sane : Sane cfg c w)
    (pre : Pre (.one c True) cfg c (.internalPageStore a k v root level) w)
    (complete : CompleteBut (if level = 2 then k else kKeyMin) w) :
    Adds cfg c (internalPageStore cfg a k v root level)
      (CachePost cfg c (.internalPageStore a k v root level) w) w := by
  obtain ⟨nonzero, ⟨x, linked, le⟩, child, owed, -, -⟩ := pre
  obtain ⟨p, view, rfl, rfl⟩ := sane.inner nonzero linked
  have ok : p.Ok := (sane.tree.view_sound a _ view).ok
  refine adds_lockAndReadPage fun w₁ calm₁ sane₁ => ?_
  have complete₁ := complete.calm calm₁ sane sane₁
  have linked₁ := calm₁.linked _ _ _ linked
  have view₁ : w₁.1.view a = some (.internal p) := by rw [calm₁.all, view]
  rw [view₁]
  refine adds_assert fun _ => adds_assert fun _ => ?_
  split
  · refine adds_bind (adds_unlockAddr fun w₂ calm₂ sane₂ => adds_assert fun _ => ?_)
    refine adds_lastCall fun w₃ calm₃ sane₃ _ => ⟨complete₁.calm (calm₂.trans calm₃) sane₁ sane₃, ?_⟩
    exact fun _ w₄ w₅ _ post calm₅ sane₅ => Whole.calm post calm₅ sane₅
  · rename_i inside
    have inside : k < p.hdr.highest := not_le.mp inside
    obtain ⟨p', store, stored⟩ := ok.store v (sane.owed_inside linked view child owed le) inside
    refine adds_assert fun _ => adds_ofExcept fun value result => ?_
    rw [store, Except.ok.injEq] at result
    subst result
    split
    · rename_i full
      refine adds_alloc fun w₂ b calm₂ sane₂ fresh => ?_
      obtain ⟨q, sib, splitKey, split, halves⟩ := (stored.full full).split b
      refine adds_ofExcept fun value result => ?_
      rw [split, Except.ok.injEq] at result
      subst result
      refine adds_bind (adds_writeSync fresh (fun w₃ same₃ sane₃ new _ => ?_) sane₂)
      have linked₃ := same₃.linked _ _ _ (calm₂.linked _ _ _ linked₁)
      have view₃ : w₃.1.view a = some (.internal p) := by
        obtain ⟨l, level⟩ := Nat.exists_eq_succ_of_ne_zero nonzero
        rw [same₃.view a l _ (level ▸ calm₂.linked _ _ _ linked₁), calm₂.all, view₁]
      have other : b ≠ a := by
        rintro rfl
        obtain ⟨l, level⟩ := Nat.exists_eq_succ_of_ne_zero nonzero
        exact fresh l _ (level ▸ calm₂.linked _ _ _ linked₁)
      exact adds_internalSplit sane₃ ((complete₁.calm calm₂ sane₁ sane₂).same same₃.toSameInner sane₂.tree sane₃.tree)
        linked₃ view₃ stored halves other new fun w' whole => whole
    · exact adds_internalWrite sane₁ complete₁ linked₁ view₁ stored fun w' whole => whole

/-! ## A new root, or the level above -/

theorem adds_updateNewRoot {l : Nat} {x : Key} {Q : Bool → World → Prop} (sane : Sane cfg c w)
    (complete : CompleteBut (if l = 1 then splitKey else kKeyMin) w) (linked : w.2.Linked a l x)
    (h : ∀ updated w', Same cfg c w w' ∨ updated = true → Sane cfg c w' → (updated = true → Complete w') →
      Q updated w') :
    Adds cfg c (updateNewRoot a splitKey sibling (l + 1) a) Q w := by
  refine adds_alloc fun w₁ n calm₁ sane₁ fresh => ?_
  refine adds_bind (adds_writeSync fresh (fun w₂ same₂ sane₂ new _ => ?_) sane₁)
  refine adds_verb fun w₃ choice swapped w₄ calm₃ sane₃ step mono inv₄ => ?_
  have same₃ : Same cfg c w w₃ := calm₁.toSame.trans (same₂.trans calm₃.toSame)
  simp only [perform] at step
  split at step
  · split at step
    · rename_i root
      simp only [Option.some.injEq, Prod.mk.injEq] at step
      obtain ⟨rfl, step⟩ := step
      have view₄ : w₄.1.view = w₃.1.view := by rw [← step]; exact view_congr rfl rfl
      have cache₄ : CacheInv cfg c w₄ := by
        refine sane₃.cache.keep ?_ mono ?_ fun on => by rwa [← step]
        · rw [ownCache, ← step]
          exact sane₃.cache.ok
        · rw [ownCache, ownCache, ← step]
          exact .refl _
      have sane₄ : Sane cfg c w₄ := ⟨inv₄, cache₄⟩
      have complete₄ : Complete w₄ := by
        obtain ⟨top, rooted, -⟩ := sane₃.tree.root
        rw [root] at rooted
        obtain ⟨rfl, rfl⟩ := rooted.level_eq (same₃.linked _ _ _ linked)
        have page := (congrFun (view₄.trans calm₃.all) n).trans new
        exact (complete.same same₃.toSameInner sane.tree sane₃.tree).newRoot sane₃.tree inv₄.tree mono view₄ rooted
          (by rw [← step]) page rfl
      refine ⟨cache₄, adds_skip trivial fun _ w₅ calm₅ sane₅ => adds_ret fun w₆ calm₆ sane₆ => ?_⟩
      exact h true w₆ (.inr rfl) sane₆ fun _ => complete₄.calm (calm₅.trans calm₆) sane₄ sane₆
    · simp only [Option.some.injEq, Prod.mk.injEq] at step
      obtain ⟨rfl, step⟩ := step
      have leaves : Leaves w₃.1 w₄.1 := step ▸ .refl _
      have calm₄ : Calm cfg c w₃ w₄ := leaves.calm mono
      have more₄ := Framed.keep _ _ sane₃.more calm₄ leaves.ok
      refine ⟨more₄, adds_ret fun w₅ calm₅ sane₅ => ?_⟩
      exact h false w₅ (.inl (same₃.trans (calm₄.trans calm₅).toSame)) sane₅ fun updated => by cases updated
  · cases step

theorem adds_internalParentStore {Q : Unit → World → Prop} (sane : Sane cfg c w)
    (complete : CompleteBut (if level = 1 then splitKey else kKeyMin) w) (h : ∀ w', Whole w' → Q () w') :
    Adds cfg c (internalParentStore splitKey sibling root level) Q w := by
  refine adds_bind (adds_loadPath fun up w₁ calm₁ sane₁ => ?_)
  split
  · refine adds_lastCall fun w₂ calm₂ sane₂ _ =>
      ⟨?_, fun _ w₃ w₄ _ post calm₄ sane₄ => h w₄ (Whole.calm post calm₄ sane₄)⟩
    have := complete.calm (calm₁.trans calm₂) sane sane₂
    simpa only [CachePre, Nat.add_eq_right, Nat.reduceEqDiff] using this
  · exact adds_stop

theorem adds_internalSplitUp (sane : Sane cfg c w)
    (pre : Pre (.one c True) cfg c (.internalSplitUp a splitKey sibling root level) w)
    (complete : CompleteBut (if level = 1 then splitKey else kKeyMin) w) :
    Adds cfg c (internalSplitUp a splitKey sibling root level)
      (CachePost cfg c (.internalSplitUp a splitKey sibling root level) w) w := by
  obtain ⟨-, ⟨x, linked⟩, -⟩ := pre
  unfold internalSplitUp
  split
  · rename_i top
    subst top
    refine adds_bind (adds_updateNewRoot sane complete linked fun updated w₁ same₁ sane₁ done => ?_)
    cases updated with
    | true => exact adds_ret fun w₂ calm₂ sane₂ => (sane₁.whole (done rfl)).calm calm₂ sane₂
    | false =>
        have same₁ := same₁.resolve_right (by decide)
        have complete₁ := complete.same same₁.toSameInner sane.tree sane₁.tree
        exact adds_internalParentStore sane₁ complete₁ fun _ whole => whole
  · exact adds_internalParentStore sane complete fun _ whole => whole

theorem adds_insertInternalNext (sane : Sane cfg c w)
    (pre : Pre (.one c True) cfg c (.insertInternalNext a k v root level) w)
    (complete : CompleteBut (if level = 2 then k else kKeyMin) w) :
    Adds cfg c (insertInternalNext a k v root level)
      (CachePost cfg c (.insertInternalNext a k v root level) w) w := by
  obtain ⟨nonzero, ⟨l, x, ⟨linked, -⟩, -, high, -⟩, -⟩ := pre
  refine adds_pageSearch (fun w₁ calm₁ _ levelOne => ?_) ?_
  · obtain ⟨y, one⟩ := levelOne
    have := ((calm₁.linked _ _ _ linked).level_eq one).1
    have := high trivial
    omega
  intro w₁ w₂ result calm₁ sane₁ _ cached₂ sane₂ lost _
  have complete₂ := (complete.calm calm₁ sane sane₁).same cached₂.toSameInner sane₁.tree sane₂.tree
  cases result with
  | none => cases lost rfl
  | some r =>
      dsimp only
      refine adds_assert fun _ => ?_
      have loop : ∀ b, Adds cfg c (call (.insertInternalNext b k v root level))
          (CachePost cfg c (.insertInternalNext a k v root level) w) w₂ := fun b =>
        adds_lastCall fun w₃ calm₃ sane₃ _ => ⟨complete₂.calm calm₃ sane₂ sane₃,
          fun _ w₄ w₅ _ post calm₅ sane₅ => Whole.calm post calm₅ sane₅⟩
      split
      · exact loop _
      · split
        · exact loop _
        · exact adds_lastCall fun w₃ calm₃ sane₃ _ => ⟨complete₂.calm calm₃ sane₂ sane₃,
            fun _ w₄ w₅ _ post calm₅ sane₅ => Whole.calm post calm₅ sane₅⟩

/-! ## The leaves -/

theorem adds_insertInternal {Q : Unit → World → Prop} (whole : Whole w) (two : level ≠ 2)
    (h : ∀ w', Whole w' → Q () w') : Adds cfg c (insertInternal k v level) Q w := by
  refine adds_bind (adds_rootPtr fun root w₁ calm₁ sane₁ _ => ?_)
  refine adds_wholeCall (whole.calm calm₁ sane₁) (fun w₂ calm₂ sane₂ whole₂ => ?_)
    fun _ _ _ _ post u calm sane => h u (Whole.calm post calm sane)
  rw [CachePre, if_neg two]
  exact whole₂.complete

theorem adds_leafParentStore {fromCache : Bool} {Q : Unit → World → Prop} (whole : Whole w)
    (h : ∀ w', Whole w' → Q () w') : Adds cfg c (leafParentStore splitKey sibling root 0 fromCache) Q w := by
  refine adds_bind (adds_loadPath fun up w₁ calm₁ sane₁ => ?_)
  split
  · exact adds_wholeCall (whole.calm calm₁ sane₁) (fun _ _ _ whole => whole.complete)
      fun _ _ _ _ post u calm sane => h u (Whole.calm post calm sane)
  · exact adds_assert fun _ => adds_insertInternal (whole.calm calm₁ sane₁) (by decide) h

theorem adds_leafSplitUp {fromCache : Bool} (sane : Sane cfg c w)
    (pre : Pre (.one c True) cfg c (.leafSplitUp a splitKey sibling root level fromCache) w) (complete : Complete w) :
    Adds cfg c (leafSplitUp a splitKey sibling root level fromCache)
      (CachePost cfg c (.leafSplitUp a splitKey sibling root level fromCache) w) w := by
  obtain ⟨rfl, ⟨x, linked⟩, -⟩ := pre
  unfold leafSplitUp
  split
  · rename_i top
    subst top
    refine adds_bind (adds_updateNewRoot (l := 0) sane complete linked fun updated w₁ same₁ sane₁ done => ?_)
    cases updated with
    | true => exact adds_ret fun w₂ calm₂ sane₂ => (sane₁.whole (done rfl)).calm calm₂ sane₂
    | false =>
        have same₁ := same₁.resolve_right (by decide)
        have complete₁ := complete.same same₁.toSameInner sane.tree sane₁.tree
        exact adds_leafParentStore (sane₁.whole complete₁) fun _ whole => whole
  · exact adds_leafParentStore (sane.whole complete) fun _ whole => whole

variable {value : Value} {fromCache : Bool}

theorem adds_leafPageStore (sane : Sane cfg c w) (complete : Complete w) :
    Adds cfg c (leafPageStore cfg a k value root level fromCache)
      (CachePost cfg c (.leafPageStore a k value root level fromCache) w) w := by
  refine adds_lockAndReadPage fun w₁ calm₁ sane₁ => ?_
  have whole₁ := (sane.whole complete).calm calm₁ sane₁
  split
  · refine adds_assert fun _ => adds_assert fun _ => ?_
    split
    · refine adds_bind (adds_unlockAddr fun w₂ calm₂ _ => adds_ret fun w₃ calm₃ _ => ?_)
      exact ((calm₁.trans calm₂).trans calm₃).toSame
    · split
      · refine adds_bind (adds_unlockAddr fun w₂ calm₂ sane₂ => adds_assert fun _ => adds_bind ?_)
        refine adds_wholeCall (whole₁.calm calm₂ sane₂) (fun _ _ _ whole => whole.complete) ?_
        intro stored u u' whole post u'' calm sane
        refine adds_ret fun u₃ calm₃ sane₃ => Whole.calm ?_ calm₃ sane₃
        cases stored with
        | true => exact Whole.calm post calm sane
        | false =>
            exact sane.whole (whole.complete.same (post.toSameInner.trans calm.toSameInner) whole.tree sane.tree)
      · refine adds_assert fun _ => adds_ofExcept fun result _ => ?_
        dsimp only
        split
        · refine adds_bind (adds_writePageAndUnlock fun w₂ w₃ w₄ calm₂ sane₂ wrote sane₃ calm₄ sane₄ => ?_)
          have same : Same cfg c w₂ w₃ := wrote.same_entry sane₂.tree
          have whole₃ := sane₃.whole ((whole₁.calm calm₂ sane₂).complete.same same.toSameInner sane₂.tree sane₃.tree)
          exact adds_ret fun w₅ calm₅ sane₅ => whole₃.calm (calm₄.trans calm₅) sane₅
        · refine adds_alloc fun w₂ b calm₂ sane₂ fresh => adds_ofExcept fun halves _ => ?_
          refine adds_bind (adds_writeSync fresh (fun w₃ same₃ sane₃ _ _ => ?_) sane₂)
          have whole₃ := sane₃.whole ((whole₁.calm calm₂ sane₂).complete.same same₃.toSameInner sane₂.tree sane₃.tree)
          refine adds_bind (adds_writePageAndUnlock fun w₄ w₅ w₆ calm₄ sane₄ wrote sane₅ calm₆ sane₆ => ?_)
          have same : Same cfg c w₄ w₅ := wrote.same_leaf sane₅.tree
          have whole₅ := sane₅.whole ((whole₃.calm calm₄ sane₄).complete.same same.toSameInner sane₄.tree sane₅.tree)
          refine adds_bind (adds_wholeCall (whole₅.calm calm₆ sane₆) (fun _ _ _ whole => whole.complete) ?_)
          exact fun _ _ _ _ post u calm sane => adds_ret fun u' calm' sane' =>
            Whole.calm post (calm.trans calm') sane'
  · exact adds_stop

theorem adds_leafPageDel (cfg : Config) (c : Client) (w : World) :
    Adds cfg c (leafPageDel cfg a k level fromCache) (CachePost cfg c (.leafPageDel a k level fromCache) w) w := by
  refine adds_lockAndReadPage fun w₁ calm₁ sane₁ => ?_
  split
  · refine adds_assert fun _ => adds_assert fun _ => ?_
    split
    · exact adds_bind (adds_unlockAddr fun w₂ calm₂ _ => adds_ret fun w₃ calm₃ _ =>
        ((calm₁.trans calm₂).trans calm₃).toSame)
    · split
      · refine adds_bind (adds_unlockAddr fun w₂ calm₂ sane₂ => adds_assert fun _ => ?_)
        refine adds_call fun w₃ calm₃ _ _ => ⟨trivial, fun _ w₄ _ post => adds_ret fun w₅ calm₅ _ => ?_⟩
        exact ((calm₁.trans calm₂).trans calm₃).toSame.trans (Same.trans post calm₅.toSame)
      · refine adds_assert fun _ => ?_
        split
        · refine adds_bind (adds_writePageAndUnlock fun w₂ w₃ w₄ calm₂ sane₂ wrote _ calm₄ _ => ?_)
          have same : Same cfg c w₂ w₃ := wrote.same_entry sane₂.tree
          exact adds_ret fun w₅ calm₅ _ => (calm₁.trans calm₂).toSame.trans (same.trans (calm₄.trans calm₅).toSame)
        · exact adds_bind (adds_unlockAddr fun w₂ calm₂ _ => adds_ret fun w₃ calm₃ _ =>
            ((calm₁.trans calm₂).trans calm₃).toSame)
  · exact adds_stop

end Sherman
