import Sherman.Tree.CacheSoundness
import Sherman.Tree.RangeQuery
import Mathlib.Order.Interval.Finset.Nat

namespace Sherman

open Shared Concurrency IndexCache

/-! ## The leaves of the pages a scan finds -/

theorem IndexCache.collect_sublist (toKey : Key) (entries : List CacheEntry) :
    ∃ found : List (CacheEntry × InternalPage), (found.map Prod.fst).Sublist entries ∧
      collect toKey entries = found.map Prod.snd ∧ ∀ e ∈ found, e.1.ptr = some e.2 := by
  induction entries with
  | nil => exact ⟨[], .slnil, rfl, by simp⟩
  | cons x rest ih =>
      obtain ⟨found, sub, pages, live⟩ := ih
      cases ptr : x.ptr with
      | none => exact ⟨found, sub.cons x, by simp only [collect, ptr, pages], live⟩
      | some p =>
          by_cases above : toKey < x.fromKey
          · exact ⟨[], List.nil_sublist _, by simp [collect, ptr, above], by simp⟩
          · refine ⟨(x, p) :: found, sub.cons_cons x, by simp [collect, ptr, above, pages], fun e he => ?_⟩
            rcases List.mem_cons.mp he with rfl | he
            · exact ptr
            · exact live e he

theorem InternalPage.childrenFrom_sublist (highest fromKey toKey : Key) (ptr : GlobalAddress) (low : Key)
    (l : List InternalEntry) :
    (childrenFrom highest fromKey toKey ptr low l).Sublist (ptr :: l.map (·.ptr)) := by
  induction l generalizing ptr low with
  | nil =>
      rw [childrenFrom]
      split
      · exact List.nil_sublist _
      · exact List.Sublist.refl _
  | cons r rest ih =>
      rw [childrenFrom]
      split
      · exact (ih r.ptr r.key).cons ptr
      · exact (ih r.ptr r.key).cons_cons ptr

section Leaves
variable {s : Shared} {g : Ghost} {cache : IndexCache} {e : CacheEntry} {p : InternalPage} {fromKey toKey : Key}

theorem EntrySound.nodup_leaves (sound : EntrySound g e p) : (p.leaves fromKey toKey).Nodup := by
  refine (InternalPage.childrenFrom_sublist _ fromKey toKey _ _ _).nodup (List.nodup_cons.mpr ⟨fun mem => ?_, ?_⟩)
  · obtain ⟨r, hr, ptr⟩ := List.mem_map.mp mem
    have first := sound.child_linked (.inl ⟨rfl, rfl⟩)
    have later := sound.child_linked (.inr ⟨r, hr, ptr, rfl⟩)
    exact (sound.ok.range r hr).1.ne (first.level_eq later).2
  · refine List.pairwise_map.mpr (sound.ok.sorted.imp_of_mem fun {r r'} hr hr' less same => ?_)
    have linked := sound.child_linked (.inr ⟨r, hr, rfl, rfl⟩)
    have linked' := sound.child_linked (.inr ⟨r', hr', same.symm, rfl⟩)
    exact less.ne (linked.level_eq linked').2

theorem CacheCovers.nodup_leaves (covers : CacheCovers g cache)
    (entries : ∀ e ∈ cache, ∀ p, e.ptr = some p → EntrySound g e p) (fromKey toKey : Key) :
    ((cache.searchRangeFromCache fromKey toKey).flatMap (·.leaves fromKey toKey)).Nodup := by
  obtain ⟨found, sub, pages, live⟩ := collect_sublist toKey (cache.dropWhile (·.less ⟨fromKey, fromKey, none⟩))
  have sub := sub.trans (List.dropWhile_sublist _)
  have mem : ∀ e ∈ found, e.1 ∈ cache := fun e he => sub.subset (List.mem_map_of_mem he)
  have sound : ∀ e ∈ found, EntrySound g e.1 e.2 := fun e he => entries e.1 (mem e he) e.2 (live e he)
  rw [searchRangeFromCache, pages, List.flatMap_map]
  refine List.pairwise_flatMap.mpr ⟨fun e he => (sound e he).nodup_leaves, ?_⟩
  have ordered := List.pairwise_map.mp (covers.ok.ordered.sublist sub)
  refine ordered.imp_of_mem fun {e e'} he he' less => ?_
  rintro a ha _ ha' rfl
  obtain ⟨x, child⟩ := InternalPage.child_of_mem_leaves ha
  obtain ⟨x', child'⟩ := InternalPage.child_of_mem_leaves ha'
  obtain rfl := (((sound e he).child_linked child).level_eq ((sound e' he').child_linked child')).2
  -- the child starts in both entries
  obtain ⟨low, high⟩ := (sound e he).ok.child_range child
  obtain ⟨low', high'⟩ := (sound e' he').ok.child_range child'
  have meets : e.1.Meets e'.1.fromKey e'.1.toKey := by
    rw [CacheEntry.Meets, (sound e he).fromKey, (sound e he).toKey, (sound e' he').fromKey, (sound e' he').toKey]
    exact ⟨low.trans (Nat.le_sub_one_of_lt high'), low'.trans (Nat.le_sub_one_of_lt high)⟩
  have same := covers.narrow.apart covers.ok (mem e he) (mem e' he') (by simp [live e he])
    (by simp [live e' he']) meets
  rw [same, CacheEntry.less_iff] at less
  lia

theorem TreeInv.record (inv : TreeInv s g)
    (sound : ∀ e ∈ cache, ∀ p, e.ptr = some p → EntrySound g e p) {a : GlobalAddress} {r : LeafEntry}
    (ha : a ∈ (cache.searchRangeFromCache fromKey toKey).flatMap (·.leaves fromKey toKey))
    (hr : r ∈ Page.recordsIn fromKey toKey (s.view a)) :
    (fromKey ≤ r.key ∧ r.key ≤ toKey) ∧
      ∃ q, s.view a = some (.leaf q) ∧ g.owner a = none ∧ q.Holds r.key r.value := by
  obtain ⟨found, sub, pages, live⟩ := collect_sublist toKey (cache.dropWhile (·.less ⟨fromKey, fromKey, none⟩))
  rw [searchRangeFromCache, pages] at ha
  obtain ⟨p, hp, child⟩ := List.mem_flatMap.mp ha
  obtain ⟨e, he, rfl⟩ := List.mem_map.mp hp
  have mem : e.1 ∈ cache := (sub.trans (List.dropWhile_sublist _)).subset (List.mem_map_of_mem he)
  have entry := sound e.1 mem e.2 (live e he)
  obtain ⟨x, child⟩ := InternalPage.child_of_mem_leaves child
  obtain ⟨q, view, -⟩ := inv.linked_leaf (entry.child_linked child)
  rw [view, Page.recordsIn, LeafPage.recordsIn, List.mem_filter, decide_eq_true_eq] at hr
  obtain ⟨hr, nonnull, -, range⟩ := hr
  exact ⟨range, q, view, (entry.child_linked child).2, nonnull, r, hr, rfl, rfl⟩

theorem CacheCovers.nodup_keys (covers : CacheCovers g cache) (inv : TreeInv s g)
    (entries : ∀ e ∈ cache, ∀ p, e.ptr = some p → EntrySound g e p) (fromKey toKey : Key) :
    ((rangeRecords cache s.view fromKey toKey).map (·.key)).Nodup := by
  rw [rangeRecords, fetch_eq, List.nil_append, List.flatMap_map]
  refine List.pairwise_map.mpr (List.pairwise_flatMap.mpr ⟨fun a ha => ?_, ?_⟩)
  · cases view : s.view a with
    | none => exact List.Pairwise.nil
    | some page =>
        cases page with
        | internal p => exact List.Pairwise.nil
        | leaf q =>
            have ok : q.Ok := (inv.view_sound a _ view).ok
            rw [Page.recordsIn, LeafPage.recordsIn]
            refine (ok.distinct.filter _).imp_of_mem fun {r r'} hr hr' distinct => ?_
            simp only [List.mem_filter, decide_eq_true_eq] at hr hr'
            exact distinct hr.2.1 hr'.2.1
  · refine (covers.nodup_leaves entries fromKey toKey).imp_of_mem fun {a b} ha hb other r hr r' hr' same => ?_
    obtain ⟨-, q, view, owner, holds⟩ := inv.record entries ha hr
    obtain ⟨-, q', view', owner', holds'⟩ := inv.record entries hb hr'
    have ok : q.Ok := (inv.view_sound a _ view).ok
    have ok' : q'.Ok := (inv.view_sound b _ view').ok
    obtain ⟨low, high⟩ := ok.holds_range holds
    obtain ⟨low', high'⟩ := ok'.holds_range holds'
    rw [← same] at low' high'
    exact other (inv.page_unique view owner view' owner' (ok.level.trans ok'.level.symm) low high low' high')

theorem Filled.covers {cache' : IndexCache} (filled : Filled s cache cache') (inv : TreeInv s g)
    (covers : CacheCovers g cache) : CacheCovers g cache' := by
  induction filled with
  | same => exact covers
  | @add cache' a p before level view one apart ih =>
      obtain ⟨l, x, linked⟩ := inv.onLevel_linked level
      have linked : g.Linked a 1 p.hdr.lowest := ⟨one ▸ (inv.view_sound a _ view).info, linked.2⟩
      exact ih.addToCache inv linked view fun x hx live meets => absurd meets (apart x hx live)

end Leaves

/-! ## After a run of one client -/

/-- A range query after a run of one client writes the values of different keys of the range, so no more values
than the range has keys; also when its cache holds further level-1 pages. -/
theorem range_query_distinct (cfg : Config) (t : Client) {root : GlobalAddress} (nonnull : root ≠ .null)
    {as : Schedule} (own : OneClient t as) {s : State} (run : (system cfg).run (State.init root) as = some s)
    (idle : s.threads t = .idle) {cache : IndexCache} (filled : Filled s.shared (s.shared.cache (cfg.nodeOf t)) cache)
    (fromKey toKey : Key) :
    (∃ keys : List Key, keys.Nodup ∧ (∀ k ∈ keys, fromKey ≤ k ∧ k ≤ toKey) ∧
      keys.map (mapAfter (fun _ => none) ((system cfg).history (State.init root) as)) =
        (rangeQuery cache s.shared.view fromKey toKey).map some) ∧
      (rangeQuery cache s.shared.view fromKey toKey).length ≤ ((Finset.Icc fromKey toKey).filter fun k =>
        (mapAfter (fun _ => none) ((system cfg).history (State.init root) as) k).isSome).card := by
  obtain ⟨g₀, running⟩ := (oneRunning_init True cfg t nonnull).run own run
  have represents := running.represents idle
  obtain ⟨g, inv, cacheInv⟩ := cacheInv_of_run nonnull own run
  have covers := filled.covers inv cacheInv.toCacheCovers
  obtain ⟨-, entries⟩ := filled.sound inv cacheInv.ok (inv.cache _)
  rw [inv.leafMap] at represents
  generalize mapAfter (fun _ => none) ((system cfg).history (State.init root) as) = map at represents ⊢
  have bound : ∀ r ∈ rangeRecords cache s.shared.view fromKey toKey,
      (fromKey ≤ r.key ∧ r.key ≤ toKey) ∧ map r.key = some r.value := by
    intro r hr
    rw [rangeRecords, fetch_eq, List.nil_append, List.flatMap_map] at hr
    obtain ⟨a, ha, hr⟩ := List.mem_flatMap.mp hr
    obtain ⟨range, q, view, owner, holds⟩ := inv.record entries ha hr
    exact ⟨range, (represents _ _).mp ⟨a, q, owner, view, holds⟩⟩
  have nodup := covers.nodup_keys inv entries fromKey toKey
  refine ⟨⟨_, nodup, ?_, ?_⟩, ?_⟩
  · rintro k hk
    obtain ⟨r, hr, rfl⟩ := List.mem_map.mp hk
    exact (bound r hr).1
  · rw [rangeQuery, List.map_map, List.map_map]
    exact List.map_congr_left fun r hr => (bound r hr).2
  · rw [rangeQuery, List.length_map, ← List.length_map (·.key), ← List.toFinset_card_of_nodup nodup]
    refine Finset.card_le_card fun k hk => ?_
    obtain ⟨r, hr, rfl⟩ := List.mem_map.mp (List.mem_toFinset.mp hk)
    obtain ⟨range, value⟩ := bound r hr
    exact Finset.mem_filter.mpr ⟨Finset.mem_Icc.mpr range, by rw [value]; rfl⟩

theorem range_query_distinct_growth : ∃ s p, (system oneLock).run (State.init ⟨1, 8⟩) growth = some s ∧
    rangeQuery (IndexCache.addToCache [] p) s.shared.view 0 102 = [1, 1, 1, 1] ∧
      (∃ keys : List Key, keys.Nodup ∧ (∀ k ∈ keys, 0 ≤ k ∧ k ≤ 102) ∧
        keys.map (mapAfter (fun _ => none) growthHistory) = [some 1, some 1, some 1, some 1]) ∧
      4 ≤ ((Finset.Icc 0 102).filter fun k => (mapAfter (fun _ => none) growthHistory k).isSome).card := by
  obtain ⟨s, p, run, idle, filled, records⟩ := growth_filled
  have written : rangeQuery (IndexCache.addToCache [] p) s.shared.view 0 102 = [1, 1, 1, 1] := by
    have values := congrArg (List.map Prod.snd) records
    rwa [List.map_map] at values
  have distinct := range_query_distinct oneLock 0 (by decide) growth_own run idle filled 0 102
  rw [growth_history, written] at distinct
  exact ⟨s, p, run, written, distinct⟩

end Sherman
