import Sherman.Tree.Separators
import Sherman.Concurrency.Strengthening
import Sherman.Tree.Sequential

namespace Sherman

open Shared Concurrency IndexCache

abbrev ownCache (cfg : Config) (c : Client) (w : World) : IndexCache := w.1.cache (cfg.nodeOf c)

/-- Every entry covers whole level-1 pages, also when they have been split since, and live entries are disjoint. -/
structure CacheCovers (g : Ghost) (cache : IndexCache) : Prop where
  ok : cache.Ok
  narrow : cache.Narrow
  starts : ∀ x ∈ cache, ∃ a, g.Linked a 1 x.fromKey
  ends : ∀ x ∈ cache, x.toKey + 1 = kKeyMax ∨ ∃ a, g.Linked a 1 (x.toKey + 1)

structure CacheInv (cfg : Config) (c : Client) (w : World) : Prop extends CacheCovers w.2 (ownCache cfg c w) where
  enabled : ownCache cfg c w ≠ [] → (w.1.dir (cfg.nodeOf c)).enableCache = true

structure Same (cfg : Config) (c : Client) (w w' : World) : Prop extends SameInner w w' where
  cache : (ownCache cfg c w).Fades (ownCache cfg c w')
  enabled : (w.1.dir (cfg.nodeOf c)).enableCache = true → (w'.1.dir (cfg.nodeOf c)).enableCache = true

/-- So are the leaves and the pages not yet linked. -/
structure Calm (cfg : Config) (c : Client) (w w' : World) : Prop extends Same cfg c w w' where
  all : w'.1.view = w.1.view

def AllCurrent (cfg : Config) (c : Client) (w : World) : Prop :=
  ∀ e ∈ ownCache cfg c w, e.ptr ≠ none → ∃ a p, w.2.Linked a 1 p.hdr.lowest ∧ w.1.view a = some (.internal p) ∧
    e.fromKey = p.hdr.lowest ∧ e.toKey = p.hdr.highest - 1

/-- At page `a` of its descent for key `k`, the client may cache what it reads at level 1. -/
def Descends (cfg : Config) (c : Client) (k : Key) (a : GlobalAddress) (w : World) : Prop :=
  (∃ x, w.2.Linked a 0 x) ∨ AllCurrent cfg c w ∨ ((ownCache cfg c w).NoHit k ∧
    ∀ x, w.2.Linked a 1 x → ∃ page, w.1.view a = some page ∧ k < page.hdr.highest)

def RootOk (cfg : Config) (c : Client) (root : GlobalAddress) (w : World) : Prop :=
  ownCache cfg c w = [] ∨ ∃ l, 3 ≤ l ∧ w.2.Linked root l kKeyMin

/-! ## What is kept -/

section Kept
variable {cfg : Config} {c : Client} {w w' w'' : World} {k : Key} {a root : GlobalAddress}

theorem Same.refl (cfg : Config) (c : Client) (w : World) : Same cfg c w w :=
  ⟨.refl w, .refl _, id⟩

theorem Same.trans (h : Same cfg c w w') (h' : Same cfg c w' w'') : Same cfg c w w'' :=
  ⟨h.toSameInner.trans h'.toSameInner, h.cache.trans h'.cache, h'.enabled ∘ h.enabled⟩

theorem Calm.refl (cfg : Config) (c : Client) (w : World) : Calm cfg c w w := ⟨.refl cfg c w, rfl⟩

theorem Calm.trans (h : Calm cfg c w w') (h' : Calm cfg c w' w'') : Calm cfg c w w'' :=
  ⟨h.toSame.trans h'.toSame, h'.all.trans h.all⟩

theorem Calm.trans_own {t : Client} (h : t = c → Calm cfg c w w') (h' : t = c → Calm cfg c w' w'') (same : t = c) :
    Calm cfg c w w'' :=
  (h same).trans (h' same)

theorem AllCurrent.same (current : AllCurrent cfg c w) (h : Same cfg c w w') : AllCurrent cfg c w' := by
  intro e he live
  obtain ⟨b, p, linked, view, low, high⟩ := current e (h.cache.live he live) live
  exact ⟨b, p, h.linked _ _ _ linked, (h.view b 0 _ linked).trans view, low, high⟩

theorem Descends.same (desc : Descends cfg c k a w) (h : Same cfg c w w') (inv : TreeInv w.1 w.2)
    (inv' : TreeInv w'.1 w'.2) : Descends cfg c k a w' := by
  rcases desc with ⟨x, leaf⟩ | current | ⟨missed, inside⟩
  · exact .inl ⟨x, h.linked _ _ _ leaf⟩
  · exact .inr (.inl (current.same h))
  · refine .inr (.inr ⟨h.cache.noHit missed, fun x linked => ?_⟩)
    have linked := h.back inv inv' linked
    obtain ⟨page, view, high⟩ := inside x linked
    exact ⟨page, (h.view a 0 x linked).trans view, high⟩

theorem RootOk.same (rootOk : RootOk cfg c root w) (h : Same cfg c w w') : RootOk cfg c root w' := by
  rcases rootOk with empty | ⟨l, high, linked⟩
  · have := h.cache
    rw [empty] at this
    exact .inl this.nil
  · exact .inr ⟨l, high, h.linked _ _ _ linked⟩

theorem allCurrent_of_empty (empty : ownCache cfg c w = []) : AllCurrent cfg c w := by
  intro e he
  rw [empty] at he
  cases he

theorem CacheInv.empty (inv : CacheInv cfg c w) (off : (w.1.dir (cfg.nodeOf c)).enableCache = false) :
    ownCache cfg c w = [] := by
  by_contra filled
  rw [inv.enabled filled] at off
  cases off

theorem RootOk.desc (rootOk : RootOk cfg c root w) (free : AllCurrent cfg c w ∨ (ownCache cfg c w).NoHit k) :
    Descends cfg c k root w := by
  rcases free with current | missed
  · exact .inr (.inl current)
  · rcases rootOk with empty | ⟨l, high, linked⟩
    · exact .inr (.inl (allCurrent_of_empty empty))
    · refine .inr (.inr ⟨missed, fun x other => ?_⟩)
      obtain ⟨rfl, -⟩ := linked.level_eq other
      exact absurd high (by decide)

theorem CacheInv.keep (inv : CacheInv cfg c w) (ok : (ownCache cfg c w').Ok)
    (linked : ∀ a l x, w.2.Linked a l x → w'.2.Linked a l x)
    (cache : (ownCache cfg c w).Fades (ownCache cfg c w'))
    (enabled : (w.1.dir (cfg.nodeOf c)).enableCache = true → (w'.1.dir (cfg.nodeOf c)).enableCache = true) :
    CacheInv cfg c w' := by
  refine ⟨⟨ok, cache.narrow inv.narrow, fun x hx => ?_, fun x hx => ?_⟩, fun filled => enabled (inv.enabled ?_)⟩
  · obtain ⟨y, hy, range, -⟩ := cache x hx
    simp only [CacheEntry.sameRange, decide_eq_true_eq] at range
    obtain ⟨b, start⟩ := inv.starts y hy
    exact ⟨b, linked _ _ _ (range.1 ▸ start)⟩
  · obtain ⟨y, hy, range, -⟩ := cache x hx
    simp only [CacheEntry.sameRange, decide_eq_true_eq] at range
    rw [← range.2]
    rcases inv.ends y hy with last | ⟨b, start⟩
    · exact .inl last
    · exact .inr ⟨b, linked _ _ _ start⟩
  · intro empty
    rw [empty] at cache
    exact filled cache.nil

theorem CacheCovers.covers {s : Shared} {g : Ghost} {cache : IndexCache} (covers : CacheCovers g cache) (inv : TreeInv s g)
    {p : InternalPage} (owner : g.owner a = none) (view : s.view a = some (.internal p)) (level : p.hdr.level = 1)
    {x : CacheEntry} (hx : x ∈ cache) (meets : x.Meets p.hdr.lowest (p.hdr.highest - 1)) :
    x.fromKey ≤ p.hdr.lowest ∧ p.hdr.highest - 1 ≤ x.toKey := by
  have ok : p.Ok := (inv.view_sound a _ view).ok
  have fence := ok.fence
  have apart : ∀ y, (∃ b, g.Linked b 1 y) → y ≤ p.hdr.lowest ∨ p.hdr.highest ≤ y := by
    rintro y ⟨b, linked⟩
    exact inv.disjoint a _ view owner b y (level ▸ linked)
  obtain ⟨low, high⟩ := meets
  refine ⟨?_, ?_⟩
  · rcases apart _ (covers.starts x hx) with below | above
    · exact below
    · lia
  · rcases covers.ends x hx with last | next
    · have := ok.highest_le
      lia
    · rcases apart _ next with below | above
      · lia
      · lia

theorem CacheCovers.addToCache {s : Shared} {g : Ghost} {cache : IndexCache} (covers : CacheCovers g cache)
    (inv : TreeInv s g) {p : InternalPage} (linked : g.Linked a 1 p.hdr.lowest) (view : s.view a = some (.internal p))
    (alone : ∀ x ∈ cache, x.ptr ≠ none → x.Meets p.hdr.lowest (p.hdr.highest - 1) →
      p.hdr.lowest ≤ x.fromKey ∧ x.toKey ≤ p.hdr.highest - 1) : CacheCovers g (cache.addToCache p) := by
  have sound := inv.view_sound a _ view
  have ok : p.Ok := sound.ok
  have fence := ok.fence
  have level : p.hdr.level = 1 := by
    have info := sound.info.symm.trans linked.1
    simp only [Option.some.injEq, Prod.mk.injEq] at info
    exact info.1
  refine ⟨covers.ok.addToCache fence, covers.narrow.addToCache (fun x hx => covers.covers inv linked.2 view level hx) alone,
    fun x hx => ?_, fun x hx => ?_⟩
  · rcases mem_addToCache hx with hx | rfl
    · exact covers.starts x hx
    · exact ⟨a, linked⟩
  · rcases mem_addToCache hx with hx | rfl
    · exact covers.ends x hx
    · simp only [Nat.sub_add_cancel (Nat.one_le_of_lt fence)]
      rcases sound.points.1 with ⟨last, -⟩ | ⟨-, sibling⟩
      · exact .inl last
      · exact .inr ⟨_, level ▸ sibling⟩

theorem CacheCovers.mono {g g' : Ghost} {cache : IndexCache} (covers : CacheCovers g cache)
    (linked : ∀ a l x, g.Linked a l x → g'.Linked a l x) : CacheCovers g' cache :=
  ⟨covers.ok, covers.narrow, fun x hx => (covers.starts x hx).imp fun b => linked b 1 _,
    fun x hx => (covers.ends x hx).imp id (Exists.imp fun b => linked b 1 _)⟩

end Kept

/-! ## The contracts -/

def CachePre (cfg : Config) (c : Client) : Proc → World → Prop
  | .pageSearch a k _, w => (∃ x, w.2.Linked a 1 x) → Descends cfg c k a w
  | .internalPageStore _ k _ _ level, w => CompleteBut (if level = 2 then k else kKeyMin) w
  | .internalSplitUp _ splitKey _ _ level, w => CompleteBut (if level = 1 then splitKey else kKeyMin) w
  | .leafPageStore .., w => Complete w
  | .leafSplitUp .., w => Complete w
  | .leafPageDel .., _ => True
  | .insertInternalNext _ k _ _ level, w => CompleteBut (if level = 2 then k else kKeyMin) w
  | .insertNext p k _ _, w => Complete w ∧ Descends cfg c k p w
  | .delNext p k, w => Complete w ∧ Descends cfg c k p w
  | .searchNext p k _ none, w => Complete w ∧ Descends cfg c k p w
  | .searchNext _ k root (some e), w => Complete w ∧ (ownCache cfg c w).OnlyHit k e ∧ RootOk cfg c root w

def Routed (a : GlobalAddress) (k : Key) (result : SearchResult) (w : World) : Prop :=
  ∀ l x, w.2.Linked a (l + 1) x → ∃ p, w.1.view a = some (.internal p) ∧
    if result.slibing ≠ .null then p.hdr.highest ≤ k
    else p.hdr.lowest ≤ k ∧ k < p.hdr.highest ∧ result.nextLevel = p.child k

structure Cached (cfg : Config) (c : Client) (a : GlobalAddress) (w w' : World) : Prop extends SameInner w w' where
  enabled : (w.1.dir (cfg.nodeOf c)).enableCache = true → (w'.1.dir (cfg.nodeOf c)).enableCache = true
  fades : (∀ x, ¬ w.2.Linked a 1 x) → (ownCache cfg c w).Fades (ownCache cfg c w')
  current : AllCurrent cfg c w → AllCurrent cfg c w'

structure Whole (w : World) : Prop where
  tree : TreeInv w.1 w.2
  complete : Complete w

def CachePost (cfg : Config) (c : Client) : (p : Proc) → World → Ret p → World → Prop
  | .pageSearch a k _, w, result, w' =>
      Cached cfg c a w w' ∧ ∀ r, result = some r → Routed a k r w
  | .leafPageStore .., w, stored, w' => if stored then Whole w' else Same cfg c w w'
  | .leafPageDel .., w, _, w' => Same cfg c w w'
  | _, _, _, w' => Whole w'

@[reducible] def caching (cfg : Config) (c : Client) : (protocol (.one c True) cfg).Strengthening where
  inv := CacheInv cfg c
  rely t w w' := t = c → Calm cfg c w w' ∧ (TreeInv w.1 w.2 → TreeInv w'.1 w'.2)
  rely_refl _ w _ := ⟨.refl cfg c w, id⟩
  rely_trans _ _ _ _ h h' same := ⟨(h same).1.trans (h' same).1, (h' same).2 ∘ (h same).2⟩
  pre _ := CachePre cfg c
  post _ := CachePost cfg c
  idle t w := t = c → Whole w
  started t _ w := t = c ∧ Complete w
  finished _ _ _ w := Complete w

end Sherman
