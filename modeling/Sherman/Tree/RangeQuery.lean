import Sherman.Tree.Aborting
import Sherman.Tree.Caching
import Sherman.Tree.Sequential
import Sherman.Cache.Disjoint
import Sherman.Page.Routing

namespace Sherman

open Shared Concurrency

/-! ## The leaves of a cached page -/

namespace InternalPage
variable {highest fromKey toKey low k x : Key} {ptr a : GlobalAddress} {l : List InternalEntry} {p : InternalPage}

theorem child_of_mem_childrenFrom (mem : a ∈ childrenFrom highest fromKey toKey ptr low l) :
    a = ptr ∨ ∃ r ∈ l, r.ptr = a := by
  induction l generalizing ptr low with
  | nil =>
      rw [childrenFrom] at mem
      split at mem
      · cases mem
      · exact .inl (List.mem_singleton.mp mem)
  | cons r rest ih =>
      have later : a ∈ childrenFrom highest fromKey toKey r.ptr r.key rest →
          a = ptr ∨ ∃ y ∈ r :: rest, y.ptr = a := by
        intro mem
        rcases ih mem with rfl | ⟨y, hy, same⟩
        · exact .inr ⟨r, List.mem_cons_self, rfl⟩
        · exact .inr ⟨y, List.mem_cons_of_mem r hy, same⟩
      rw [childrenFrom] at mem
      split at mem
      · exact later mem
      · rcases List.mem_cons.mp mem with rfl | mem
        · exact .inl rfl
        · exact later mem

theorem route_mem_childrenFrom (lower : fromKey ≤ k) (upper : k ≤ toKey) (reaches : fromKey ≤ highest)
    (starts : low ≤ toKey) : route ptr l k ∈ childrenFrom highest fromKey toKey ptr low l := by
  induction l generalizing ptr low with
  | nil =>
      rw [childrenFrom, if_neg (not_or.mpr ⟨Nat.not_lt.mpr reaches, Nat.not_lt.mpr starts⟩)]
      exact List.mem_singleton.mpr rfl
  | cons r rest ih =>
      rw [route, childrenFrom]
      by_cases less : k < r.key
      · rw [if_pos less, if_neg (not_or.mpr ⟨Nat.not_lt.mpr (lower.trans less.le), Nat.not_lt.mpr starts⟩)]
        exact List.mem_cons_self
      · rw [if_neg less]
        have later := @ih r.key r.ptr ((Nat.not_lt.mp less).trans upper)
        split
        · exact later
        · exact List.mem_cons_of_mem ptr later

theorem child_of_mem_leaves (mem : a ∈ p.leaves fromKey toKey) : ∃ x, p.Child a x := by
  rcases child_of_mem_childrenFrom mem with rfl | ⟨r, hr, same⟩
  · exact ⟨_, .inl ⟨rfl, rfl⟩⟩
  · exact ⟨_, .inr ⟨r, hr, same, rfl⟩⟩

theorem Ok.child_mem_leaves (ok : p.Ok) (lower : fromKey ≤ k) (upper : k ≤ toKey)
    (reaches : fromKey ≤ p.hdr.highest) (starts : p.hdr.lowest ≤ toKey) : p.child k ∈ p.leaves fromKey toKey := by
  rw [child_eq_route ok.pos ok.space.le]
  exact route_mem_childrenFrom lower upper reaches starts

theorem Ok.child_eq (ok : p.Ok) (child : p.Child a x) (le : x ≤ k) (last : ∀ r ∈ p.live, r.key ≤ k → r.key ≤ x) :
    p.child k = a := by
  rw [child_eq_route ok.pos ok.space.le]
  rcases child with ⟨rfl, rfl⟩ | ⟨r, hr, rfl, rfl⟩
  · refine route_below fun r hr => ?_
    by_contra notAbove
    exact Nat.not_lt.mpr (last r hr (Nat.not_lt.mp notAbove)) (ok.range r hr).1
  · obtain ⟨front, back, cut⟩ := List.append_of_mem hr
    have sorted := ok.sorted
    rw [cut, List.pairwise_append, List.pairwise_cons] at sorted
    rw [cut, route_append_above (fun y hy => (sorted.2.2 y hy r List.mem_cons_self).le.trans le) le, route_below]
    intro y hy
    by_contra notAbove
    have atMost := last y (by rw [cut]; simp [hy]) (Nat.not_lt.mp notAbove)
    exact Nat.not_lt.mpr atMost (sorted.2.1.1 y hy)

end InternalPage

/-! ## What is written -/

/-- `range_query` writes value `v` of key `k`. The reads of a client follow the writes it has posted. -/
def Reported (s : Shared) (cache : IndexCache) (fromKey toKey k : Key) (v : Value) : Prop :=
  ∃ r ∈ rangeRecords cache s.view fromKey toKey, r.key = k ∧ r.value = v

theorem Reported.mem_rangeQuery {s : Shared} {cache : IndexCache} {fromKey toKey k : Key} {v : Value}
    (h : Reported s cache fromKey toKey k v) : v ∈ rangeQuery cache s.view fromKey toKey := by
  obtain ⟨r, mem, -, rfl⟩ := h
  exact List.mem_map_of_mem mem

/-- A live entry meets the range, the scan reaches it, and its page routes the key to the leaf whose fences
hold it now. -/
def Covered (s : Shared) (cache : IndexCache) (fromKey toKey k : Key) : Prop :=
  ∃ e ∈ cache, ∃ p, e.ptr = some p ∧ e.Meets fromKey toKey ∧
    (∀ x ∈ cache, x.less e = true → x.ptr ≠ none → x.fromKey ≤ toKey) ∧
    ∃ q, s.view (p.child k) = some (.leaf q) ∧ q.hdr.lowest ≤ k ∧ k < q.hdr.highest

section Sound
variable {s : Shared} {g : Ghost} {cache : IndexCache} {e : CacheEntry} {p : InternalPage} {q : LeafPage}
  {a : GlobalAddress} {fromKey toKey k x : Key} {v : Value}

theorem TreeInv.reported_iff (inv : TreeInv s g) (lower : fromKey ≤ k) (upper : k ≤ toKey) :
    Reported s cache fromKey toKey k v ↔ ∃ p ∈ cache.searchRangeFromCache fromKey toKey,
      ∃ a ∈ p.leaves fromKey toKey, ∃ q, s.view a = some (.leaf q) ∧ q.Holds k v := by
  simp only [Reported, rangeRecords, fetch_eq, List.nil_append, List.mem_flatMap, List.mem_map]
  constructor
  · rintro ⟨r, ⟨_, ⟨a, ⟨p, found, child⟩, rfl⟩, mem⟩, rfl, rfl⟩
    cases view : s.view a with
    | none => simp [view, Page.recordsIn] at mem
    | some page =>
        cases page with
        | internal p => simp [view, Page.recordsIn] at mem
        | leaf q =>
            simp only [view, Page.recordsIn, LeafPage.recordsIn, List.mem_filter, decide_eq_true_eq] at mem
            exact ⟨p, found, a, child, q, view, mem.2.1, r, mem.1, rfl, rfl⟩
  · rintro ⟨p, found, a, child, q, view, nonnull, r, mem, rfl, rfl⟩
    refine ⟨r, ⟨_, ⟨a, ⟨p, found, child⟩, rfl⟩, ?_⟩, rfl, rfl⟩
    have ok : q.Ok := (inv.view_sound a _ view).ok
    rw [view, Page.recordsIn, LeafPage.recordsIn, List.mem_filter, decide_eq_true_eq]
    exact ⟨mem, nonnull, ok.versions r mem, lower, upper⟩

theorem EntrySound.child_linked (sound : EntrySound g e p) (child : p.Child a x) : g.Linked a 0 x := by
  have linked := sound.points.2 a x child
  rwa [sound.level] at linked

theorem TreeInv.child_of_fences (inv : TreeInv s g) (sound : EntrySound g e p) (child : p.Child a x)
    (view : s.view a = some (.leaf q)) (low : q.hdr.lowest ≤ k) (high : k < q.hdr.highest) : p.child k = a := by
  have linked := sound.child_linked child
  have leaf := inv.view_sound a _ view
  have level : q.hdr.level = 0 := LeafPage.Ok.level leaf.ok
  have start : q.hdr.lowest = x := by
    have same := leaf.info.symm.trans linked.1
    simp only [Option.some.injEq, Prod.mk.injEq] at same
    exact same.2
  refine sound.ok.child_eq child (start ▸ low) fun r hr le => ?_
  have other := sound.child_linked (.inr ⟨r, hr, rfl, rfl⟩)
  rw [← level] at other
  rcases inv.disjoint a _ view linked.2 r.ptr r.key other with below | above
  · exact start ▸ below
  · exact absurd (above.trans le) (Nat.not_le.mpr high)

theorem TreeInv.reported_iff_covered (inv : TreeInv s g) (ok : cache.Ok)
    (sound : ∀ e ∈ cache, ∀ p, e.ptr = some p → EntrySound g e p) (range : fromKey ≤ toKey)
    (lower : fromKey ≤ k) (upper : k ≤ toKey) (bound : Bindings s g k v) :
    Reported s cache fromKey toKey k v ↔ Covered s cache fromKey toKey k := by
  rw [inv.reported_iff lower upper]
  constructor
  · rintro ⟨p, found, a, mem, q, view, holds⟩
    obtain ⟨e, entry, live, meets, passed⟩ := (IndexCache.mem_searchRangeFromCache ok range).mp found
    obtain ⟨x, child⟩ := InternalPage.child_of_mem_leaves mem
    have leafOk : q.Ok := (inv.view_sound a _ view).ok
    obtain ⟨low, high⟩ := leafOk.holds_range holds
    have routed := inv.child_of_fences (sound e entry p live) child view low high
    exact ⟨e, entry, p, live, meets, passed, q, routed ▸ view, low, high⟩
  · rintro ⟨e, entry, p, live, meets, passed, q, view, low, high⟩
    have entrySound := sound e entry p live
    have reaches : fromKey ≤ p.hdr.highest := by
      rw [← (ok.copies e entry p live).2]
      exact meets.2.trans (Nat.le_succ _)
    have starts : p.hdr.lowest ≤ toKey := (ok.copies e entry p live).1 ▸ meets.1
    have mem := entrySound.ok.child_mem_leaves lower upper reaches starts
    obtain ⟨x, child⟩ := InternalPage.child_of_mem_leaves mem
    have holds := (inv.bindings_iff view (entrySound.child_linked child).2 low high v).mp bound
    exact ⟨p, (IndexCache.mem_searchRangeFromCache ok range).mpr ⟨e, entry, live, meets, passed⟩, _, mem, q, view, holds⟩

end Sound

/-! ## After a run of one client -/

/-- Every level-1 page that meets the range has a live entry of its present fences. -/
def InnerCached (s : Shared) (cache : IndexCache) (fromKey toKey : Key) : Prop :=
  ∀ a p, OnLevel s a → s.view a = some (.internal p) → p.hdr.level = 1 → p.hdr.lowest ≤ toKey →
    fromKey < p.hdr.highest →
      ∃ e ∈ cache, e.ptr ≠ none ∧ e.fromKey = p.hdr.lowest ∧ e.toKey = p.hdr.highest - 1

/-- A cache with copies of present level-1 pages, none of which overlaps what was live when it was added. -/
inductive Filled (s : Shared) : IndexCache → IndexCache → Prop where
  | same (cache : IndexCache) : Filled s cache cache
  | add {cache cache' : IndexCache} {a : GlobalAddress} {p : InternalPage} (before : Filled s cache cache')
      (level : OnLevel s a) (view : s.view a = some (.internal p)) (one : p.hdr.level = 1)
      (apart : ∀ e ∈ cache', e.ptr ≠ none → ¬ e.Meets p.hdr.lowest (p.hdr.highest - 1)) :
      Filled s cache (cache'.addToCache p)

theorem Filled.sound {s : Shared} {g : Ghost} {cache cache' : IndexCache} (filled : Filled s cache cache')
    (inv : TreeInv s g) (ok : cache.Ok) (sound : ∀ e ∈ cache, ∀ p, e.ptr = some p → EntrySound g e p) :
    cache'.Ok ∧ ∀ e ∈ cache', ∀ p, e.ptr = some p → EntrySound g e p := by
  induction filled with
  | same => exact ⟨ok, sound⟩
  | @add cache' a p before level view one apart ih =>
      obtain ⟨ok', sound'⟩ := ih
      have page := inv.view_sound a _ view
      refine ⟨ok'.addToCache page.ok.fence, fun e he q live => ?_⟩
      rcases IndexCache.mem_addToCache he with he | rfl
      · exact sound' e he q live
      · cases live
        exact ⟨rfl, rfl, one, page.ok, page.points⟩

/-- A range query after a run of one client writes the values of all keys of the range exactly when all of
them are covered. -/
theorem range_query_complete_iff (cfg : Config) (t : Client) {root : GlobalAddress} (nonnull : root ≠ .null)
    {as : Schedule} (own : OneClient t as) {s : State} (run : (system cfg).run (State.init root) as = some s)
    (idle : s.threads t = .idle) {cache : IndexCache} (filled : Filled s.shared (s.shared.cache (cfg.nodeOf t)) cache)
    {fromKey toKey : Key} (range : fromKey ≤ toKey) :
    (∀ k v, mapAfter (fun _ => none) ((system cfg).history (State.init root) as) k = some v → fromKey ≤ k → k ≤ toKey →
        Reported s.shared cache fromKey toKey k v) ↔
      ∀ k v, mapAfter (fun _ => none) ((system cfg).history (State.init root) as) k = some v → fromKey ≤ k → k ≤ toKey →
        Covered s.shared cache fromKey toKey k := by
  obtain ⟨g, running⟩ := (oneRunning_init True cfg t nonnull).run own run
  have inv := running.good.1.tree
  have reachable : Reachable cfg s := ⟨root, as, nonnull, fun u op mem => (own u op mem).2, run⟩
  obtain ⟨ok, sound⟩ := filled.sound inv (reachable_cache_ok reachable _) (inv.cache _)
  have represents := running.represents idle
  rw [inv.leafMap] at represents
  refine forall_congr' fun k => forall_congr' fun v => forall_congr' fun bound => forall_congr' fun lower =>
    forall_congr' fun upper => ?_
  exact inv.reported_iff_covered ok sound range lower upper ((represents k v).mpr bound)

/-! ### A root that is a leaf -/

def oneInsert : Schedule := insertToLock 0 5 7 ++ storeEntry 0 ++ [.respond 0]

def leafAlone (s : State) : Bool :=
  match s.threads 0, s.shared.view s.shared.rootPtr with
  | .idle, some (.leaf _) => (s.shared.cache 0).isEmpty
  | _, _ => false

theorem leafAlone_eq {s : State} (h : leafAlone s = true) :
    s.threads 0 = .idle ∧ (∃ p, s.shared.view s.shared.rootPtr = some (.leaf p)) ∧ s.shared.cache 0 = [] := by
  unfold leafAlone at h
  split at h
  · rename_i q thread view
    exact ⟨thread, ⟨q, view⟩, List.isEmpty_iff.mp h⟩
  · cases h

theorem oneInsert_own : OneClient 0 oneInsert := by
  intro u op mem
  simp only [oneInsert, insertToLock, storeEntry, advances, List.mem_append, List.mem_cons, List.mem_replicate,
    List.not_mem_nil] at mem
  simp only [Action.invoke.injEq, reduceCtorEq, and_false, or_false] at mem
  obtain ⟨rfl, rfl⟩ := mem
  exact ⟨rfl, by decide⟩

theorem oneInsert_run : ∃ s, (system oneLock).run (State.init ⟨0, 8⟩) oneInsert = some s ∧ leafAlone s = true := by
  have ends : ((system oneLock).run (State.init ⟨0, 8⟩) oneInsert).any leafAlone = true := by decide +kernel
  exact (Option.any_eq_true _ _).mp ends

theorem oneInsert_map :
    mapAfter (fun _ => none) ((system oneLock).history (State.init ⟨0, 8⟩) oneInsert) 5 = some 7 := by
  decide +kernel

theorem innerCached_of_leaf {cfg : Config} {s : State} (h : Reachable cfg s) {q : LeafPage}
    (root : s.shared.view s.shared.rootPtr = some (.leaf q)) (cache : IndexCache) (fromKey toKey : Key) :
    InnerCached s.shared cache fromKey toKey := by
  intro a p onLevel view level
  obtain ⟨g, good⟩ := h.good
  have inv := good.1.tree
  obtain ⟨top, linked, below⟩ := inv.root
  obtain ⟨page, rootView, rootLevel, -⟩ := inv.linked_view linked
  rw [root, Option.some.injEq] at rootView
  have leafLevel : q.hdr.level = 0 := LeafPage.Ok.level (inv.view_sound _ _ root).ok
  have flat : top = 0 := by
    rw [← rootLevel, ← rootView]
    exact leafLevel
  obtain ⟨l, x, other⟩ := inv.onLevel_linked onLevel
  have same := (inv.view_sound a _ view).info.symm.trans other.1
  simp only [Option.some.injEq, Prod.mk.injEq] at same
  have : l ≤ 0 := flat ▸ below a l x other
  rw [← same.1] at this
  exact absurd (level.symm.trans_le this) (by decide)

theorem growth_filled : ∃ s p, (system oneLock).run (State.init ⟨1, 8⟩) growth = some s ∧ s.threads 0 = .idle ∧
    Filled s.shared (s.shared.cache (oneLock.nodeOf 0)) (IndexCache.addToCache [] p) ∧
    ((rangeRecords (IndexCache.addToCache [] p) s.shared.view 0 102).map fun r => (r.key, r.value)) =
      [(50, 1), (100, 1), (101, 1), (102, 1)] := by
  obtain ⟨s, run, shape⟩ := growth_run
  obtain ⟨idle, executed, rootPtr, p, -, -, mem, one, -, -, -, -, -, -, empty, records⟩ := grown_eq shape
  have level : OnLevel s.shared ⟨0, 24⟩ := rootPtr ▸ .leftmost .root
  have view : s.shared.view ⟨0, 24⟩ = some (.internal p) := by simp [view, executed, mem]
  refine ⟨s, p, run, idle, ?_, records⟩
  rw [show s.shared.cache (oneLock.nodeOf 0) = [] from empty]
  exact .add (.same []) level view one fun e he => by cases he

theorem growth_map : ∀ k ≤ 102, mapAfter (fun _ => none) growthHistory k =
    if (k, 1) ∈ [(50, 1), (100, 1), (101, 1), (102, 1)] then some 1 else none := by
  decide +kernel

theorem range_query_complete_iff_growth : ∃ s p, (system oneLock).run (State.init ⟨1, 8⟩) growth = some s ∧
    ∀ k v, mapAfter (fun _ => none) growthHistory k = some v → 0 ≤ k → k ≤ 102 →
      Reported s.shared (IndexCache.addToCache [] p) 0 102 k v ∧ Covered s.shared (IndexCache.addToCache [] p) 0 102 k := by
  obtain ⟨s, p, run, idle, filled, records⟩ := growth_filled
  have history := growth_history
  have reported : ∀ k v, mapAfter (fun _ => none) growthHistory k = some v → 0 ≤ k → k ≤ 102 →
      Reported s.shared (IndexCache.addToCache [] p) 0 102 k v := by
    intro k v bound _ upper
    rw [growth_map k upper] at bound
    split at bound
    · rename_i key
      cases bound
      have mem : (k, 1) ∈ (rangeRecords (IndexCache.addToCache [] p) s.shared.view 0 102).map fun r => (r.key, r.value) := by
        rw [records]
        exact key
      obtain ⟨r, hr, same⟩ := List.mem_map.mp mem
      simp only [Prod.mk.injEq] at same
      exact ⟨r, hr, same.1, same.2⟩
    · cases bound
  have covered := (range_query_complete_iff oneLock 0 (by decide) growth_own run idle filled (show (0 : Key) ≤ 102 by decide)).mp
    (by rwa [history])
  rw [history] at covered
  exact ⟨s, p, run, fun k v bound lower upper => ⟨reported k v bound lower upper, covered k v bound lower upper⟩⟩

/-- A tree of one leaf has no page to cache, and a range query of it returns nothing. -/
theorem range_query_misses : ¬ ∀ (cfg : Config) (t : Client) (root : GlobalAddress) (as : Schedule) (s : State)
    (fromKey toKey : Key), root ≠ .null → OneClient t as → (system cfg).run (State.init root) as = some s →
    s.threads t = .idle → fromKey ≤ toKey → InnerCached s.shared (s.shared.cache (cfg.nodeOf t)) fromKey toKey →
    ∀ k v, mapAfter (fun _ => none) ((system cfg).history (State.init root) as) k = some v → fromKey ≤ k → k ≤ toKey →
      v ∈ rangeQuery (s.shared.cache (cfg.nodeOf t)) s.shared.view fromKey toKey := by
  intro complete
  obtain ⟨s, run, alone⟩ := oneInsert_run
  obtain ⟨idle, ⟨q, root⟩, empty⟩ := leafAlone_eq alone
  have reachable : Reachable oneLock s :=
    ⟨⟨0, 8⟩, oneInsert, by decide, fun u op mem => (oneInsert_own u op mem).2, run⟩
  have cached := innerCached_of_leaf reachable root (s.shared.cache (oneLock.nodeOf 0)) 0 10
  have found := complete oneLock 0 ⟨0, 8⟩ oneInsert s 0 10 (by decide) oneInsert_own run idle (by decide) cached 5 7
    oneInsert_map (by decide) (by decide)
  rw [show s.shared.cache (oneLock.nodeOf 0) = [] from empty] at found
  cases found

end Sherman
