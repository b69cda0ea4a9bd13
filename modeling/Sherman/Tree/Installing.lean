import Sherman.Tree.LevelOne

namespace Sherman

open Shared Concurrency IndexCache

/-- The separator a store into leaf `p` owes to the level above. -/
def LeafPage.separator (p : LeafPage) (k : Key) (v : Value) : Option Key :=
  match p.store k v with
  | .ok (_, page, cnt) =>
      if cnt = kLeafCardinality then some (page.sorted.getD (kLeafCardinality / 2) default).key else none
  | .error _ => none

structure Still (w w' : World) : Prop where
  linked : ∀ a l x, w.2.Linked a l x → w'.2.Linked a l x
  view : w'.1.view = w.1.view

def InsertEffect (k : Key) (v : Value) (w w' : World) : Prop :=
  ∀ a p, w.2.Linked a 0 p.hdr.lowest → w.1.view a = some (.leaf p) → p.hdr.lowest ≤ k → k < p.hdr.highest →
    Installs (p.separator k v) w w'

def OpEffect : Op → World → World → Prop
  | .insert k v, w, w' => InsertEffect k v w w'
  | _, w, w' => Installs none w w'

section Effects
variable {cfg : Config} {c : Client} {w w' w'' : World} {a b : GlobalAddress} {k splitKey : Key} {v : Value}

theorem LeafPage.split_key {p q sib : LeafPage} (split : p.split b = .ok (q, sib, splitKey)) :
    splitKey = (p.sorted.getD (kLeafCardinality / 2) default).key := by
  simp only [LeafPage.split] at split
  split at split
  · cases split
    rfl
  · cases split

theorem Calm.still (h : Calm cfg c w w') : Still w w' := ⟨h.linked, h.all⟩

theorem Still.trans (h : Still w w') (h' : Still w' w'') : Still w w'' :=
  ⟨fun a l x linked => h'.linked a l x (h.linked a l x linked), h'.view.trans h.view⟩

theorem Still.installs (h : Still w w') : Installs none w w' :=
  installs_of_view h.linked fun a _ _ => congrFun h.view a

theorem InsertEffect.after (h' : InsertEffect k v w' w'') (h : Still w w') : InsertEffect k v w w'' :=
  fun a p linked view low high => h.installs.trans (h' a p (h.linked _ _ _ linked) (h.view ▸ view) low high)

theorem InsertEffect.keep (h : InsertEffect k v w w') (h' : Installs none w' w'') : InsertEffect k v w w'' :=
  fun a p linked view low high => (h a p linked view low high).keep h'

theorem OpEffect.after {op : Op} (h' : OpEffect op w' w'') (h : Still w w') : OpEffect op w w'' := by
  cases op with
  | insert k v => exact InsertEffect.after h' h
  | del k => exact h.installs.trans h'
  | search k => exact h.installs.trans h'

theorem OpEffect.keep {op : Op} (h : OpEffect op w w') (h' : Installs none w' w'') : OpEffect op w w'' := by
  cases op with
  | insert k v => exact InsertEffect.keep h h'
  | del k => exact Installs.keep h h'
  | search k => exact Installs.keep h h'

theorem TreeInv.opEffect (inv : TreeInv w.1 w.2) (bottom : ∃ a, w.2.Linked a 1 kKeyMin) {op : Op}
    (below : op.key < kKeyMax) : ∃ sep, ∀ w', OpEffect op w w' → Installs sep w w' := by
  cases op with
  | insert k v =>
      obtain ⟨a, linked⟩ := bottom
      obtain ⟨b, leaf⟩ := inv.start_at linked (Nat.zero_le 1)
      obtain ⟨b, page, view, linked, level, low, high⟩ := inv.exists_page leaf (Nat.zero_le k) below
      cases page with
      | leaf p => exact ⟨p.separator k v, fun w' effect => effect b p linked view low high⟩
      | internal p =>
          have ok : p.Ok := (inv.view_sound b _ view).ok
          exact absurd level ok.level
  | del k => exact ⟨none, fun _ => id⟩
  | search k => exact ⟨none, fun _ => id⟩

theorem insertEffect_of_leaf (inv : TreeInv w.1 w.2) {x : Key} {p : LeafPage} (linked : w.2.Linked a 0 x)
    (view : w.1.view a = some (.leaf p)) (low : p.hdr.lowest ≤ k) (high : k < p.hdr.highest)
    (h : Installs (p.separator k v) w w') : InsertEffect k v w w' := by
  intro b q linkedB viewB lowB highB
  have levels : q.hdr.level = p.hdr.level := by
    have info := (inv.view_sound a _ view).info.symm.trans linked.1
    have infoB := (inv.view_sound b _ viewB).info.symm.trans linkedB.1
    simp only [Option.some.injEq, Prod.mk.injEq] at info infoB
    exact infoB.1.trans info.1.symm
  obtain rfl := inv.page_unique viewB linkedB.2 view linked.2 levels lowB highB low high
  rw [view, Option.some.injEq, Page.leaf.injEq] at viewB
  subst viewB
  exact h

end Effects

/-! ## The contracts -/

def InstallPre : Proc → Prop
  | .insertInternalNext _ _ _ _ level => level = 1
  | _ => True

def InstallPost : (p : Proc) → World → Ret p → World → Prop
  | .pageSearch .., w, _, w' => Still w w'
  | .internalPageStore _ k _ _ level, w, _, w' => Installs (if level = 1 then some k else none) w w'
  | .leafPageStore _ k v _ _ _, w, stored, w' => if stored then InsertEffect k v w w' else Still w w'
  | .leafSplitUp _ splitKey _ _ _ _, w, _, w' => Installs (some splitKey) w w'
  | .insertInternalNext _ k _ _ _, w, _, w' => Installs (some k) w w'
  | .insertNext _ k v _, w, _, w' => InsertEffect k v w w'
  | _, w, _, w' => Installs none w w'

/-- The client runs `op` on the tree of `w₀`, which has a page above the leaves. -/
@[reducible] def installing (cfg : Config) (c : Client) (high : Prop) (w₀ : World) (op : Op) :
    (protocol (.one c high) cfg).Strengthening where
  inv w := (∃ a, w.2.Linked a 1 kKeyMin) ∧ ∀ a l x, w₀.2.Linked a l x → w.2.Linked a l x
  rely t w w' := t = c → Calm cfg c w w'
  rely_refl _ w _ := .refl cfg c w
  rely_trans _ _ _ _ h h' := Calm.trans_own h h'
  mayInvoke _ op' s := op' = op ∧ s.view = w₀.1.view
  pre _ p _ := InstallPre p
  post _ := InstallPost
  idle _ _ := True
  started t op' w := t = c ∧ op' = op ∧ Still w₀ w
  finished _ _ _ w := OpEffect op w₀ w

variable {cfg : Config} {c : Client} {high : Prop} {w₀ w w₁ : World} {op : Op} {a b root sibling child : GlobalAddress}
  {k splitKey : Key} {v : Value} {level : Nat} {fromCache : Bool}

instance : Lasting (installing cfg c high w₀ op) where
  rely _ _ rely := rely rfl
  others _ _ _ other same := absurd same other
  keep _ _ inv calm _ := ⟨inv.1.imp fun a => calm.linked a 1 _, fun a l x h => calm.linked _ _ _ (inv.2 a l x h)⟩
  write _ _ inv linked _ _ := ⟨inv.1.imp fun a => linked a 1 _, fun a l x h => linked _ _ _ (inv.2 a l x h)⟩

/-! ## Searching -/

theorem installs_cacheLevelOne {p : InternalPage} {Q : Unit → World → Prop} (h : ∀ w', Still w w' → Q () w') :
    Within (installing cfg c high w₀ op) (cacheLevelOne p) Q w := by
  unfold cacheLevelOne
  split
  · refine adds_loadEnableCache fun w₁ calm₁ _ => ?_
    split
    · refine adds_last (adds_verb fun w₂ choice r w₃ calm₂ kept₂ step linked inv₃ => ?_)
      simp only [perform, Option.some.injEq, Prod.mk.injEq, true_and] at step
      have view : w₃.1.view = w₂.1.view := by rw [← step]; exact view_congr rfl rfl
      have still : Still w w₃ := (calm₁.trans calm₂).still.trans ⟨linked, view⟩
      refine ⟨⟨kept₂.more.1.imp fun a => linked a 1 _, fun a l x h => linked _ _ _ (kept₂.more.2 a l x h)⟩, ?_⟩
      exact adds_ret fun w₄ calm₄ _ => h w₄ (still.trans calm₄.still)
    · exact adds_ret fun w₂ calm₂ _ => h w₂ (calm₁.trans calm₂).still
  · exact adds_ret fun w₁ calm₁ _ => h w₁ calm₁.still

theorem installs_search_again (still : Still w₁ w) :
    Within (installing cfg c high w₀ op) (call (.pageSearch a k fromCache)) (fun _ w' => Still w₁ w') w :=
  adds_lastCall fun _ calm _ _ => ⟨trivial, fun _ _ _ _ post calm' _ =>
    still.trans (calm.still.trans (Still.trans post calm'.still))⟩

theorem installs_searchLeaf {p : LeafPage} (still : Still w₁ w) :
    Within (installing cfg c high w₀ op) (searchLeaf p a k fromCache) (fun _ w' => Still w₁ w') w := by
  have done : ∀ result, Within (installing cfg c high w₀ op) (pure result : Code (Option SearchResult))
      (fun _ w' => Still w₁ w') w := fun _ => adds_ret fun _ calm _ => still.trans calm.still
  unfold searchLeaf
  split
  · exact installs_search_again still
  · split
    · exact done _
    · refine adds_assert fun _ => ?_
      split
      · exact done _
      · split
        · exact adds_stop
        · exact done _

theorem installs_searchInternal {p : InternalPage} (still : Still w₁ w) :
    Within (installing cfg c high w₀ op) (searchInternal p a k fromCache) (fun _ w' => Still w₁ w') w := by
  unfold searchInternal
  refine adds_assert fun _ => adds_assert fun _ => ?_
  split
  · exact installs_search_again still
  · refine adds_bind (installs_cacheLevelOne fun w₂ still₂ => ?_)
    split
    · exact adds_ret fun _ calm _ => still.trans (still₂.trans calm.still)
    · split
      · exact adds_stop
      · exact adds_ofExcept fun _ _ => adds_ret fun _ calm _ => still.trans (still₂.trans calm.still)

theorem installs_pageSearch :
    Within (installing cfg c high w₀ op) (pageSearch a k fromCache) (fun _ w' => Still w w') w := by
  refine adds_readPage fun w₁ calm₁ _ => ?_
  cases w₁.1.view a with
  | none => exact adds_stop
  | some page =>
      refine adds_bind (adds_storePath fun w₂ calm₂ _ => ?_)
      have still := (calm₁.trans calm₂).still
      split
      · exact installs_searchLeaf still
      · exact installs_searchInternal still
      · exact adds_stop

/-! ## Stores above the leaves -/

theorem Wrote.installs_other {page : Page} {w w' : World} (h : Wrote (.page a page) w w')
    (other : ∀ x, ¬ w.2.Linked a 1 x) : Installs none w w' := by
  refine installs_of_view h.linked fun b x linked => h.others ?_
  rintro rfl
  exact other x linked

section Store
variable {p p' q sib : InternalPage} {w w' : World}

theorem Wrote.installs_store (h : Wrote (.page a (.internal p'.setConsistent)) w w') (inv : TreeInv w.1 w.2)
    (linked : w.2.Linked a p.hdr.level p.hdr.lowest) (view : w.1.view a = some (.internal p))
    (low : p.hdr.lowest ≤ k) (inside : k < p.hdr.highest) (ok : p.Ok) (store : p.store k child = .ok p')
    (stored : p.Stored k child p') (notFull : p'.cnt ≠ kInternalCardinality) :
    Installs (if p.hdr.level = 1 then some k else none) w w' := by
  split
  · rename_i one
    rw [one] at linked
    refine installs_of_store inv linked view low inside h.linked (fun b x _ other => h.others other) fun r hr => ?_
    rw [ok.piece_store store stored notFull, List.mem_singleton] at hr
    subst hr
    refine ⟨a, p'.setConsistent, ?_, h.written, rfl⟩
    have := h.linked _ _ _ linked
    rwa [← stored.lowest] at this
  · rename_i above
    exact h.installs_other fun x one => above (linked.level_eq one).1

theorem Wrote.installs_split (h : Wrote (.page a (.internal q.setConsistent)) w w') (inv : TreeInv w.1 w.2)
    (inv' : TreeInv w'.1 w'.2) (linked : w.2.Linked a p.hdr.level p.hdr.lowest) (view : w.1.view a = some (.internal p))
    (low : p.hdr.lowest ≤ k) (inside : k < p.hdr.highest) (ok : p.Ok) (store : p.store k child = .ok p')
    (stored : p.Stored k child p') (full : p'.cnt = kInternalCardinality) (split : p'.split b = .ok (q, sib, splitKey))
    (halves : p'.Halves b q sib splitKey) (other : b ≠ a) (new : w.1.view b = some (.internal sib.setConsistent)) :
    Installs (if p.hdr.level = 1 then some k else none) w w' := by
  split
  · rename_i one
    have linkedB := inv'.sibling_linked h.written stored halves
    rw [one] at linked linkedB
    refine installs_of_store inv linked view low inside h.linked (fun b x _ other => h.others other) fun r hr => ?_
    rw [ok.pieces_split store stored full split, List.mem_pair] at hr
    rcases hr with rfl | rfl
    · refine ⟨a, q.setConsistent, ?_, h.written, rfl⟩
      have := h.linked _ _ _ linked
      rwa [← stored.lowest, ← halves.page_hdr.2.1] at this
    · refine ⟨b, sib.setConsistent, ?_, (h.others other).trans new, rfl⟩
      rwa [← halves.sibling_hdr.2.1] at linkedB
  · rename_i above
    exact h.installs_other fun x one => above (linked.level_eq one).1

end Store

theorem installs_internalPageStore {w : World} (kept : Kept (installing cfg c high w₀ op) w)
    (pre : Pre (.one c high) cfg c (.internalPageStore a k child root level) w) :
    Within (installing cfg c high w₀ op) (internalPageStore cfg a k child root level)
      (InstallPost (.internalPageStore a k child root level) w) w := by
  obtain ⟨nonzero, ⟨x, linked, le⟩, linkedV, owed, -, -⟩ := pre
  obtain ⟨p, view, rfl, rfl⟩ := kept.inner nonzero linked
  have ok : p.Ok := (kept.tree.view_sound a _ view).ok
  refine adds_lockAndReadPage fun w₁ calm₁ kept₁ => ?_
  have linked₁ := calm₁.linked _ _ _ linked
  have view₁ : w₁.1.view a = some (.internal p) := by rw [calm₁.all, view]
  rw [view₁]
  refine adds_assert fun _ => adds_assert fun _ => ?_
  split
  · refine adds_bind (adds_unlockAddr fun w₂ calm₂ _ => adds_assert fun _ => ?_)
    refine adds_lastCall fun w₃ calm₃ _ _ => ⟨trivial, fun _ w₄ w₅ _ post calm₅ _ => ?_⟩
    exact (((calm₁.trans calm₂).trans calm₃).still.installs.trans post).keep calm₅.still.installs
  · rename_i inside
    have inside : k < p.hdr.highest := not_le.mp inside
    obtain ⟨p', store, stored⟩ := ok.store child (kept.owed_inside linked view linkedV owed le) inside
    refine adds_assert fun _ => adds_ofExcept fun value result => ?_
    rw [store, Except.ok.injEq] at result
    subst result
    split
    · rename_i full
      refine adds_alloc fun w₂ b calm₂ kept₂ fresh => ?_
      obtain ⟨q, sib, splitKey, split, halves⟩ := (stored.full full).split b
      refine adds_ofExcept fun value result => ?_
      rw [split, Except.ok.injEq] at result
      subst result
      refine adds_bind (adds_writeSync fresh (fun w₃ same₃ kept₃ new _ => ?_) kept₂)
      have linked₃ := same₃.linked _ _ _ (calm₂.linked _ _ _ linked₁)
      obtain ⟨l, levelEq⟩ := Nat.exists_eq_succ_of_ne_zero nonzero
      have view₃ : w₃.1.view a = some (.internal p) := by
        rw [same₃.view a l _ (levelEq ▸ calm₂.linked _ _ _ linked₁), calm₂.all, view₁]
      have other : b ≠ a := by
        rintro rfl
        exact fresh l _ (levelEq ▸ calm₂.linked _ _ _ linked₁)
      have still₃ : Installs none w w₃ := (calm₁.trans calm₂).still.installs.trans same₃.toSameInner.installs
      refine adds_bind (adds_writePageAndUnlock fun w₄ w₅ w₆ calm₄ kept₄ wrote kept₅ calm₆ _ => ?_)
      have installed := wrote.installs_split kept₄.tree kept₅.tree (calm₄.linked _ _ _ linked₃)
        (by rw [calm₄.all, view₃]) le inside ok store stored full split halves other (by rw [calm₄.all, new])
      refine adds_lastCall fun w₇ calm₇ _ _ => ⟨trivial, fun _ w₈ w₉ _ post calm₉ _ => ?_⟩
      have before := still₃.trans (calm₄.still.installs.trans installed)
      exact (before.keep ((calm₆.trans calm₇).still.installs.trans post)).keep calm₉.still.installs
    · rename_i notFull
      refine adds_writePageAndUnlock fun w₂ w₃ w₄ calm₂ kept₂ wrote _ calm₄ _ => ?_
      have installed := wrote.installs_store kept₂.tree (calm₂.linked _ _ _ linked₁) (by rw [calm₂.all, view₁]) le
        inside ok store stored notFull
      exact ((calm₁.trans calm₂).still.installs.trans installed).keep calm₄.still.installs

/-! ## The level above -/

theorem installs_updateNewRoot {l : Nat} {x : Key} {Q : Bool → World → Prop} (linked : w.2.Linked a l x)
    (h : ∀ updated w', Installs none w w' → (updated = true → l ≠ 0) → Q updated w') :
    Within (installing cfg c high w₀ op) (updateNewRoot a splitKey sibling (l + 1) a) Q w := by
  refine adds_alloc fun w₁ n calm₁ kept₁ fresh => ?_
  refine adds_bind (adds_writeSync fresh (fun w₂ same₂ kept₂ new _ => ?_) kept₁)
  refine adds_verb fun w₃ choice swapped w₄ calm₃ kept₃ step mono inv₄ => ?_
  have installs₃ : Installs none w w₃ :=
    calm₁.still.installs.trans (same₂.toSameInner.installs.trans calm₃.still.installs)
  have view : w₄.1.view = w₃.1.view := by
    simp only [perform] at step
    split at step
    · split at step
      · simp only [Option.some.injEq, Prod.mk.injEq] at step
        rw [← step.2]
        exact view_congr rfl rfl
      · simp only [Option.some.injEq, Prod.mk.injEq] at step
        rw [← step.2]
    · cases step
  have higher : swapped = true → l ≠ 0 := by
    rintro rfl rfl
    obtain ⟨b, one⟩ := kept₃.more.1
    obtain ⟨top, rooted, below⟩ := kept₃.tree.root
    have base := calm₃.linked _ _ _ (same₂.linked _ _ _ (calm₁.linked _ _ _ linked))
    have isRoot : w₃.1.rootPtr = a := by
      simp only [perform] at step
      split at step
      · split at step
        · assumption
        · cases step
      · cases step
    rw [isRoot] at rooted
    have := below b 1 _ one
    rw [(rooted.level_eq base).1] at this
    cases this
  have more₄ : (∃ a, w₄.2.Linked a 1 kKeyMin) ∧ ∀ a l x, w₀.2.Linked a l x → w₄.2.Linked a l x :=
    ⟨kept₃.more.1.imp fun a => mono a 1 _, fun a l x h => mono _ _ _ (kept₃.more.2 a l x h)⟩
  have installs₄ : Installs none w w₄ := installs₃.trans (Still.installs ⟨mono, view⟩)
  refine ⟨more₄, ?_⟩
  cases swapped with
  | true =>
      refine adds_skip trivial fun _ w₅ calm₅ _ => adds_ret fun w₆ calm₆ _ => ?_
      exact h true w₆ (installs₄.trans (calm₅.trans calm₆).still.installs) higher
  | false => exact adds_ret fun w₅ calm₅ _ => h false w₅ (installs₄.trans calm₅.still.installs) higher

theorem installs_up {up : GlobalAddress} {Q : Unit → World → Prop}
    (h : ∀ w', Installs (if level = 1 then some splitKey else none) w w' → Q () w') :
    Within (installing cfg c high w₀ op) (call (.internalPageStore up splitKey sibling root level)) Q w :=
  adds_lastCall fun _ calm _ _ => ⟨trivial, fun _ _ w₃ _ post calm' _ =>
    h w₃ ((calm.still.installs.trans post).keep calm'.still.installs)⟩

theorem installs_internalParentStore {Q : Unit → World → Prop} (nonzero : level ≠ 0)
    (h : ∀ w', Installs none w w' → Q () w') :
    Within (installing cfg c high w₀ op) (internalParentStore splitKey sibling root level) Q w := by
  refine adds_bind (adds_loadPath fun up w₁ calm₁ _ => ?_)
  split
  · refine installs_up fun w₂ installs => ?_
    rw [if_neg (by simpa using nonzero)] at installs
    exact h w₂ (calm₁.still.installs.trans installs)
  · exact adds_stop

theorem installs_internalSplitUp
    (pre : Pre (.one c high) cfg c (.internalSplitUp a splitKey sibling root level) w) :
    Within (installing cfg c high w₀ op) (internalSplitUp a splitKey sibling root level)
      (fun _ w' => Installs none w w') w := by
  obtain ⟨nonzero, ⟨x, linked⟩, -⟩ := pre
  unfold internalSplitUp
  split
  · rename_i top
    subst top
    refine adds_bind (installs_updateNewRoot linked fun updated w₁ installs₁ _ => ?_)
    cases updated with
    | true => exact adds_ret fun w₂ calm₂ _ => installs₁.trans calm₂.still.installs
    | false => exact installs_internalParentStore nonzero fun w₂ installs₂ => installs₁.trans installs₂
  · exact installs_internalParentStore nonzero fun _ => id

theorem installs_insertInternal {Q : Unit → World → Prop} (h : ∀ w', Installs (some k) w w' → Q () w') :
    Within (installing cfg c high w₀ op) (insertInternal k child 1) Q w := by
  refine adds_bind (adds_getRootPtr fun root w₁ calm₁ _ => ?_)
  refine adds_lastCall fun w₂ calm₂ _ _ => ⟨rfl, fun _ w₃ w₄ _ post calm₄ _ => h w₄ ?_⟩
  exact ((calm₁.trans calm₂).still.installs.trans post).keep calm₄.still.installs

theorem installs_insertInternalNext :
    Within (installing cfg c high w₀ op) (insertInternalNext a k child root 1)
      (fun _ w' => Installs (some k) w w') w := by
  refine adds_call fun w₁ calm₁ _ _ => ⟨trivial, fun result w₂ _ still₂ => ?_⟩
  have still : Still w w₂ := calm₁.still.trans still₂
  have loop : ∀ b w', Still w w' → Within (installing cfg c high w₀ op) (call (.insertInternalNext b k child root 1))
      (fun _ w' => Installs (some k) w w') w' := fun b w' still =>
    adds_lastCall fun _ calm _ _ => ⟨rfl, fun _ _ _ _ post calm' _ =>
      ((still.trans calm.still).installs.trans post).keep calm'.still.installs⟩
  cases result with
  | none => exact adds_bind (adds_getRootPtr fun root w₃ calm₃ _ => loop root w₃ (still.trans calm₃.still))
  | some result =>
      refine adds_assert fun _ => ?_
      split
      · exact loop _ _ still
      · split
        · exact loop _ _ still
        · exact installs_up fun w₃ installs => still.installs.trans installs

theorem installs_leafParentStore {Q : Unit → World → Prop} (h : ∀ w', Installs (some splitKey) w w' → Q () w') :
    Within (installing cfg c high w₀ op) (leafParentStore splitKey sibling root 0 fromCache) Q w := by
  refine adds_bind (adds_loadPath fun up w₁ calm₁ _ => ?_)
  split
  · exact installs_up fun w₂ installs => h w₂ (calm₁.still.installs.trans installs)
  · exact adds_assert fun _ => installs_insertInternal fun w₂ installs => h w₂ (calm₁.still.installs.trans installs)

theorem installs_leafSplitUp
    (pre : Pre (.one c high) cfg c (.leafSplitUp a splitKey sibling root level fromCache) w) :
    Within (installing cfg c high w₀ op) (leafSplitUp a splitKey sibling root level fromCache)
      (fun _ w' => Installs (some splitKey) w w') w := by
  obtain ⟨rfl, ⟨x, linked⟩, -⟩ := pre
  unfold leafSplitUp
  split
  · rename_i top
    subst top
    refine adds_bind (installs_updateNewRoot (l := 0) linked fun updated w₁ installs₁ higher => ?_)
    cases updated with
    | true => exact absurd rfl (higher rfl)
    | false => exact installs_leafParentStore fun w₂ installs₂ => installs₁.trans installs₂
  · exact installs_leafParentStore fun _ => id

/-! ## The leaves -/

theorem installs_leafPageStore
    (pre : Pre (.one c high) cfg c (.leafPageStore a k v root level fromCache) w) :
    Within (installing cfg c high w₀ op) (leafPageStore cfg a k v root level fromCache)
      (InstallPost (.leafPageStore a k v root level fromCache) w) w := by
  obtain ⟨rfl, -, ⟨x, ⟨linked, -⟩, -⟩, -⟩ := pre
  refine adds_lockAndReadPage fun w₁ calm₁ kept₁ => ?_
  cases read : w₁.1.view a with
  | none => exact adds_stop
  | some page =>
  cases page with
  | internal p => exact adds_stop
  | leaf p =>
  refine adds_assert fun _ => adds_assert fun _ => ?_
  split
  · refine adds_bind (adds_unlockAddr fun w₂ calm₂ _ => adds_ret fun w₃ calm₃ _ => ?_)
    exact ((calm₁.trans calm₂).trans calm₃).still
  · split
    · refine adds_bind (adds_unlockAddr fun w₂ calm₂ _ => adds_assert fun _ => ?_)
      refine adds_call fun w₃ calm₃ _ _ => ⟨trivial, fun stored w₄ direct post => adds_ret fun w₅ calm₅ _ => ?_⟩
      cases stored with
      | true => exact (InsertEffect.keep post calm₅.still.installs).after ((calm₁.trans calm₂).trans calm₃).still
      | false => cases direct.1
    · rename_i inside
      refine adds_assert fun low => adds_ofExcept fun result stored => ?_
      obtain ⟨i, page, cnt⟩ := result
      have effect : ∀ w', Installs (p.separator k v) w₁ w' → InsertEffect k v w w' := fun w' installs =>
        (insertEffect_of_leaf kept₁.tree (calm₁.linked _ _ _ linked) read low (not_le.mp inside) installs).after
          calm₁.still
      dsimp only
      split
      · rename_i notFull
        have separator : p.separator k v = none := by rw [LeafPage.separator, stored]; exact if_neg notFull
        refine adds_bind (adds_writePageAndUnlock fun w₂ w₃ w₄ calm₂ kept₂ wrote _ calm₄ _ => ?_)
        refine adds_ret fun w₅ calm₅ _ => effect w₅ ?_
        have same : Same cfg c w₂ w₃ := wrote.same_entry kept₂.tree
        rw [separator]
        exact calm₂.still.installs.trans (same.toSameInner.installs.trans (calm₄.trans calm₅).still.installs)
      · rename_i full
        refine adds_alloc fun w₂ b calm₂ kept₂ fresh => adds_ofExcept fun halves split => ?_
        obtain ⟨q, sib, splitKey⟩ := halves
        have separator : p.separator k v = some splitKey := by
          rw [LeafPage.separator, stored, LeafPage.split_key split]
          exact if_pos (not_not.mp full)
        refine adds_bind (adds_writeSync fresh (fun w₃ same₃ _ _ _ => ?_) kept₂)
        refine adds_bind (adds_writePageAndUnlock fun w₄ w₅ w₆ calm₄ _ wrote kept₅ calm₆ _ => ?_)
        have same : Same cfg c w₄ w₅ := wrote.same_leaf kept₅.tree
        refine adds_call fun w₇ calm₇ _ _ => ⟨trivial, fun _ w₈ _ post => adds_ret fun w₉ calm₉ _ => effect w₉ ?_⟩
        have before : Installs none w₁ w₇ := calm₂.still.installs.trans (same₃.toSameInner.installs.trans
          (calm₄.still.installs.trans (same.toSameInner.installs.trans (calm₆.trans calm₇).still.installs)))
        rw [separator]
        exact (before.trans post).keep calm₉.still.installs

theorem installs_leafPageDel :
    Within (installing cfg c high w₀ op) (leafPageDel cfg a k level fromCache) (fun _ w' => Installs none w w') w := by
  refine adds_lockAndReadPage fun w₁ calm₁ _ => ?_
  have unlocked : ∀ async (deleted : Bool), Within (installing cfg c high w₀ op)
      (do unlockAddr (cfg.lockAddr a) async; return deleted) (fun _ w' => Installs none w w') w₁ := fun _ _ =>
    adds_bind (adds_unlockAddr fun w₂ calm₂ _ => adds_ret fun w₃ calm₃ _ =>
      ((calm₁.trans calm₂).trans calm₃).still.installs)
  split
  · refine adds_assert fun _ => adds_assert fun _ => ?_
    split
    · exact unlocked _ _
    · split
      · refine adds_bind (adds_unlockAddr fun w₂ calm₂ _ => adds_assert fun _ => ?_)
        refine adds_call fun w₃ calm₃ _ _ => ⟨trivial, fun _ w₄ _ post => adds_ret fun w₅ calm₅ _ => ?_⟩
        exact (((calm₁.trans calm₂).trans calm₃).still.installs.trans post).keep calm₅.still.installs
      · refine adds_assert fun _ => ?_
        split
        · refine adds_bind (adds_writePageAndUnlock fun w₂ w₃ w₄ calm₂ kept₂ wrote _ calm₄ _ => ?_)
          refine adds_ret fun w₅ calm₅ _ => ?_
          have same : Same cfg c w₂ w₃ := wrote.same_entry kept₂.tree
          exact (calm₁.trans calm₂).still.installs.trans
            (same.toSameInner.installs.trans (calm₄.trans calm₅).still.installs)
        · exact unlocked _ _
  · exact adds_stop

/-! ## The loops -/

theorem installs_again {p : Proc} {Q : Ret p → World → Prop} (pre : InstallPre p) (still : Still w₁ w)
    (h : ∀ r w₂ w₃ w₄, Still w₁ w₂ → InstallPost p w₂ r w₃ → Still w₃ w₄ → Q r w₄) :
    Within (installing cfg c high w₀ op) (call p) Q w :=
  adds_lastCall fun w₂ calm _ _ => ⟨pre, fun r w₃ w₄ _ post calm' _ =>
    h r w₂ w₃ w₄ (still.trans calm.still) post calm'.still⟩

theorem installs_insertNext :
    Within (installing cfg c high w₀ op) (insertNext a k v root) (fun _ w' => InsertEffect k v w w') w := by
  refine adds_call fun w₁ calm₁ _ _ => ⟨trivial, fun result w₂ _ still₂ => ?_⟩
  have still : Still w w₂ := calm₁.still.trans still₂
  have loop : ∀ b w', Still w w' → Within (installing cfg c high w₀ op) (call (.insertNext b k v root))
      (fun _ w' => InsertEffect k v w w') w' := fun b w' still =>
    installs_again trivial still fun _ _ _ _ before post after => (InsertEffect.keep post after.installs).after before
  have store : ∀ b, Within (installing cfg c high w₀ op) (do let _ ← call (.leafPageStore b k v root 0 false))
      (fun _ w' => InsertEffect k v w w') w₂ := fun b =>
    adds_call fun w₃ calm₃ _ _ => ⟨trivial, fun stored w₄ direct post => adds_ret fun w₅ calm₅ _ => by
      cases stored with
      | true => exact (InsertEffect.keep post calm₅.still.installs).after (still.trans calm₃.still)
      | false => cases direct.1⟩
  cases result with
  | none => exact adds_bind (adds_getRootPtr fun root w₃ calm₃ _ => loop root w₃ (still.trans calm₃.still))
  | some result =>
      dsimp only
      split
      · exact store a
      · refine adds_assert fun _ => ?_
        split
        · exact loop _ _ still
        · split
          · exact loop _ _ still
          · exact store _

theorem installs_delNext :
    Within (installing cfg c high w₀ op) (delNext a k) (fun _ w' => Installs none w w') w := by
  refine adds_call fun w₁ calm₁ _ _ => ⟨trivial, fun result w₂ _ still₂ => ?_⟩
  have still : Still w w₂ := calm₁.still.trans still₂
  have loop : ∀ b w', Still w w' → Within (installing cfg c high w₀ op) (call (.delNext b k))
      (fun _ w' => Installs none w w') w' := fun b w' still =>
    installs_again trivial still fun _ _ _ _ before post after => (before.installs.trans post).keep after.installs
  have delete : ∀ b, Within (installing cfg c high w₀ op) (do let _ ← call (.leafPageDel b k 0 false))
      (fun _ w' => Installs none w w') w₂ := fun b =>
    adds_call fun w₃ calm₃ _ _ => ⟨trivial, fun _ w₄ _ post => adds_ret fun w₅ calm₅ _ =>
      ((still.trans calm₃.still).installs.trans post).keep calm₅.still.installs⟩
  cases result with
  | none => exact adds_bind (adds_getRootPtr fun root w₃ calm₃ _ => loop root w₃ (still.trans calm₃.still))
  | some result =>
      dsimp only
      split
      · exact delete a
      · refine adds_assert fun _ => ?_
        split
        · exact loop _ _ still
        · split
          · exact loop _ _ still
          · exact delete _

theorem installs_searchNext {entry : Option CacheEntry} :
    Within (installing cfg c high w₀ op) (searchNext a k root entry) (fun _ w' => Installs none w w') w := by
  refine adds_call fun w₁ calm₁ _ _ => ⟨trivial, fun result w₂ _ still₂ => ?_⟩
  have still : Still w w₂ := calm₁.still.trans still₂
  have loop : ∀ b e w', Still w w' → Within (installing cfg c high w₀ op) (call (.searchNext b k root e))
      (fun _ w' => Installs none w w') w' := fun b e w' still =>
    installs_again trivial still fun _ _ _ _ before post after => (before.installs.trans post).keep after.installs
  cases result with
  | none =>
      cases entry with
      | none => exact loop a none w₂ still
      | some e => exact adds_skip trivial fun _ w₃ calm₃ _ => loop root none w₃ (still.trans calm₃.still)
  | some result =>
      dsimp only
      split
      · split
        · exact adds_ret fun w₃ calm₃ _ => (still.trans calm₃.still).installs
        · split
          · exact loop _ _ _ still
          · exact adds_ret fun w₃ calm₃ _ => (still.trans calm₃.still).installs
      · exact loop _ _ _ still

/-! ## The operations -/

theorem installs_insertFromRoot {Q : Unit → World → Prop} (h : ∀ w', InsertEffect k v w w' → Q () w') :
    Within (installing cfg c high w₀ op) (insertFromRoot k v) Q w :=
  adds_bind (adds_getRootPtr fun _ _ calm _ => installs_again trivial calm.still fun _ _ _ w₄ before post after =>
    h w₄ ((InsertEffect.keep post after.installs).after before))

theorem installs_insert {Q : Unit → World → Prop} (h : ∀ w', InsertEffect k v w w' → Q () w') :
    Within (installing cfg c high w₀ op) (insert k v) Q w := by
  refine adds_skip trivial fun _ w₁ calm₁ _ => adds_skip trivial fun enableCache w₂ calm₂ _ => ?_
  have still₂ := (calm₁.trans calm₂).still
  have fromRoot : ∀ w', Still w w' → Within (installing cfg c high w₀ op) (insertFromRoot k v) Q w' :=
    fun w' still => installs_insertFromRoot fun w'' effect => h w'' (effect.after still)
  cases enableCache with
  | false => exact fromRoot w₂ still₂
  | true =>
      refine adds_skip trivial fun hit w₃ calm₃ _ => ?_
      have still₃ := still₂.trans calm₃.still
      cases hit with
      | none => exact fromRoot w₃ still₃
      | some hit =>
          refine adds_bind (adds_getRootPtr fun root w₄ calm₄ _ => ?_)
          refine adds_call fun w₅ calm₅ _ _ => ⟨trivial, fun stored w₆ _ post => ?_⟩
          have still₅ := still₃.trans (calm₄.trans calm₅).still
          cases stored with
          | true =>
              refine adds_ret fun w₇ calm₇ _ => h w₇ ?_
              exact (InsertEffect.keep post calm₇.still.installs).after still₅
          | false => exact adds_skip trivial fun _ w₇ calm₇ _ =>
              fromRoot w₇ (still₅.trans (Still.trans post calm₇.still))

theorem installs_delFromRoot {Q : Unit → World → Prop} (h : ∀ w', Installs none w w' → Q () w') :
    Within (installing cfg c high w₀ op) (delFromRoot k) Q w :=
  adds_bind (adds_getRootPtr fun _ _ calm _ => installs_again trivial calm.still fun _ _ _ w₄ before post after =>
    h w₄ ((before.installs.trans post).keep after.installs))

theorem installs_del {Q : Unit → World → Prop} (h : ∀ w', Installs none w w' → Q () w') :
    Within (installing cfg c high w₀ op) (del k) Q w := by
  refine adds_skip trivial fun _ w₁ calm₁ _ => adds_skip trivial fun enableCache w₂ calm₂ _ => ?_
  have still₂ := (calm₁.trans calm₂).still
  have fromRoot : ∀ w', Installs none w w' → Within (installing cfg c high w₀ op) (delFromRoot k) Q w' :=
    fun w' installs => installs_delFromRoot fun w'' effect => h w'' (installs.trans effect)
  cases enableCache with
  | false => exact fromRoot w₂ still₂.installs
  | true =>
      refine adds_skip trivial fun hit w₃ calm₃ _ => ?_
      have still₃ := still₂.trans calm₃.still
      cases hit with
      | none => exact fromRoot w₃ still₃.installs
      | some hit =>
          refine adds_call fun w₄ calm₄ _ _ => ⟨trivial, fun deleted w₅ _ post => ?_⟩
          have installs₅ := (still₃.trans calm₄.still).installs.trans post
          cases deleted with
          | true => exact adds_ret fun w₆ calm₆ _ => h w₆ (installs₅.keep calm₆.still.installs)
          | false => exact adds_skip trivial fun _ w₆ calm₆ _ => fromRoot w₆ (installs₅.keep calm₆.still.installs)

theorem installs_search {Q : Option Value → World → Prop} (h : ∀ value w', Installs none w w' → Q value w') :
    Within (installing cfg c high w₀ op) (search k) Q w := by
  refine adds_bind (adds_getRootPtr fun root w₁ calm₁ _ => adds_skip trivial fun enableCache w₂ calm₂ _ => ?_)
  have still₂ := (calm₁.trans calm₂).still
  have loop : ∀ b e w', Still w w' → Within (installing cfg c high w₀ op) (call (.searchNext b k root e)) Q w' :=
    fun b e w' still => installs_again trivial still fun value _ _ w₄ before post after =>
      h value w₄ ((before.installs.trans post).keep after.installs)
  cases enableCache with
  | false => exact loop _ _ w₂ still₂
  | true =>
      refine adds_skip trivial fun hit w₃ calm₃ _ => ?_
      cases hit with
      | none => exact loop _ _ w₃ (still₂.trans calm₃.still)
      | some hit => exact loop _ _ w₃ (still₂.trans calm₃.still)

theorem installs_main (still : Still w₀ w) :
    Within (installing cfg c high w₀ op) (main op) (fun _ w' => OpEffect op w₀ w') w := by
  cases op with
  | insert k v =>
      refine adds_bind (installs_insert fun w₁ effect => adds_ret fun w₂ calm₂ _ => ?_)
      exact (effect.keep calm₂.still.installs).after still
  | del k =>
      refine adds_bind (installs_del fun w₁ installs => adds_ret fun w₂ calm₂ _ => ?_)
      exact (still.installs.trans installs).keep calm₂.still.installs
  | search k =>
      refine adds_bind (installs_search fun _ w₁ installs => adds_ret fun w₂ calm₂ _ => ?_)
      exact (still.installs.trans installs).keep calm₂.still.installs

theorem installs_body {p : Proc} (kept : Kept (installing cfg c high w₀ op) w) (pre : Pre (.one c high) cfg c p w)
    (more : InstallPre p) : Within (installing cfg c high w₀ op) (body cfg p) (InstallPost p w) w := by
  cases p with
  | pageSearch a k fromCache => exact installs_pageSearch
  | internalPageStore a k v root level => exact installs_internalPageStore kept pre
  | internalSplitUp a splitKey sibling root level => exact installs_internalSplitUp pre
  | leafPageStore a k v root level fromCache => exact installs_leafPageStore pre
  | leafSplitUp a splitKey sibling root level fromCache => exact installs_leafSplitUp pre
  | leafPageDel a k level fromCache => exact installs_leafPageDel
  | insertInternalNext p k v root level =>
      obtain rfl : level = 1 := more
      exact installs_insertInternalNext
  | insertNext p k v root => exact installs_insertNext
  | delNext p k => exact installs_delNext
  | searchNext p k root entry => exact installs_searchNext

theorem installing_sound (cfg : Config) (c : Client) (high : Prop) (w₀ : World) (op : Op) :
    (installing cfg c high w₀ op).Sound (system cfg) where
  rely_idle _ _ _ _ _ _ := trivial
  invoke t op' w g inv more _ may same inv' others _ := by
    have calm : Calm cfg c w (w.1, g) := ghost_calm (others (t + 1) (Nat.succ_ne_self t)).linked
    have more' := Framed.keep w (w.1, g) more calm id
    exact ⟨more', fun _ _ _ => calm, may.1 c rfl, same.1, more'.2, same.2⟩
  respond t op' r w g inv more _ _ inv' others _ := by
    have calm : Calm cfg c w (w.1, g) := ghost_calm (others (t + 1) (Nat.succ_ne_self t)).linked
    exact ⟨Framed.keep w (w.1, g) more calm id, fun _ _ _ => calm, trivial⟩
  interfere e w s g inv more step _ all := by
    obtain ⟨calm, ok⟩ := interfere_calm (s, g) inv step (all c).linked
    exact ⟨Framed.keep w (s, g) more calm (ok _), fun _ _ => calm⟩
  main t op' w _ _ _ started := by
    obtain ⟨rfl, rfl, still⟩ := started
    exact installs_main still
  proc t p w inv more pre install may := by
    obtain rfl := may.1 c rfl
    exact installs_body ⟨inv, more⟩ pre install

end Sherman
