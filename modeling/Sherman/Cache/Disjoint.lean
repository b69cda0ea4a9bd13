import Sherman.Cache.Lookup

namespace Sherman
namespace IndexCache

variable {cache cache' : IndexCache} {e x y : CacheEntry} {k : Key} {a : GlobalAddress} {p : InternalPage}

/-- Every entry that overlaps a live one covers it. -/
def Narrow (cache : IndexCache) : Prop :=
  ∀ e ∈ cache, e.ptr ≠ none → ∀ x ∈ cache, x.Meets e.fromKey e.toKey → x.fromKey ≤ e.fromKey ∧ e.toKey ≤ x.toKey

def NoHit (cache : IndexCache) (k : Key) : Prop := ∀ e ∈ cache, e.ptr ≠ none → ¬ e.Contains k

def OnlyHit (cache : IndexCache) (k : Key) (e : CacheEntry) : Prop :=
  ∀ x ∈ cache, x.ptr ≠ none → x.Contains k → e.sameRange x = true

def Fades (cache cache' : IndexCache) : Prop :=
  ∀ x ∈ cache', ∃ y ∈ cache, y.sameRange x = true ∧ (x.ptr ≠ none → y = x)

theorem Fades.refl (cache : IndexCache) : Fades cache cache := fun x hx => ⟨x, hx, x.sameRange_refl, fun _ => rfl⟩

theorem Fades.trans {cache'' : IndexCache} (h : Fades cache cache') (h' : Fades cache' cache'') :
    Fades cache cache'' := by
  intro x hx
  obtain ⟨y, hy, range, same⟩ := h' x hx
  obtain ⟨z, hz, range', same'⟩ := h y hy
  refine ⟨z, hz, ?_, fun live => ?_⟩
  · simp only [CacheEntry.sameRange, decide_eq_true_eq] at range range' ⊢
    exact ⟨range'.1.trans range.1, range'.2.trans range.2⟩
  · cases same live
    exact same' live

theorem fades_invalidate (cache : IndexCache) (e : CacheEntry) : Fades cache (cache.invalidate e) := by
  intro x hx
  obtain ⟨y, hy, rfl⟩ := List.mem_map.mp hx
  refine ⟨y, hy, ?_, fun live => ?_⟩
  · split
    · exact y.sameRange_refl
    · exact y.sameRange_refl
  · split
    · rename_i killed
      rw [if_pos killed] at live
      exact absurd rfl live
    · rfl

theorem Fades.live (h : Fades cache cache') (hx : x ∈ cache') (live : x.ptr ≠ none) : x ∈ cache := by
  obtain ⟨y, hy, -, same⟩ := h x hx
  exact same live ▸ hy

theorem Fades.nil (h : Fades [] cache') : cache' = [] :=
  List.eq_nil_iff_forall_not_mem.mpr fun x hx => by
    obtain ⟨y, hy, -⟩ := h x hx
    cases hy

theorem Fades.narrow (h : Fades cache cache') (narrow : cache.Narrow) : cache'.Narrow := by
  intro e he live x hx meets
  obtain ⟨y, hy, range, -⟩ := h x hx
  simp only [CacheEntry.sameRange, decide_eq_true_eq] at range
  have := narrow e (h.live he live) live y hy (by rwa [CacheEntry.Meets, range.1, range.2])
  rwa [range.1, range.2] at this

theorem Fades.noHit (h : Fades cache cache') (missed : cache.NoHit k) : cache'.NoHit k :=
  fun e he live => missed e (h.live he live) live

theorem Fades.onlyHit (h : Fades cache cache') (only : cache.OnlyHit k e) : cache'.OnlyHit k e :=
  fun x hx live => only x (h.live hx live) live

theorem Ok.sameRange_eq (ok : cache.Ok) (hx : x ∈ cache) (hy : y ∈ cache) (same : x.sameRange y = true) : x = y := by
  obtain ⟨front, back, cut⟩ := List.append_of_mem hx
  have ordered := ok.ordered
  rw [cut, List.pairwise_append, List.pairwise_cons] at ordered
  simp only [CacheEntry.sameRange, decide_eq_true_eq] at same
  rw [cut, List.mem_append, List.mem_cons] at hy
  rcases hy with hy | rfl | hy
  · have less := ordered.2.2 y hy x List.mem_cons_self
    rw [CacheEntry.less_iff] at less
    lia
  · rfl
  · have less := ordered.2.1.1 y hy
    rw [CacheEntry.less_iff] at less
    lia

theorem Narrow.apart (narrow : cache.Narrow) (ok : cache.Ok) (hx : x ∈ cache) (hy : y ∈ cache) (liveX : x.ptr ≠ none)
    (liveY : y.ptr ≠ none) (meets : x.Meets y.fromKey y.toKey) : x = y := by
  have covers := narrow y hy liveY x hx meets
  have covered := narrow x hx liveX y hy ⟨meets.2, meets.1⟩
  refine ok.sameRange_eq hx hy ?_
  simp only [CacheEntry.sameRange, decide_eq_true_eq]
  exact ⟨le_antisymm covers.1 covered.1, le_antisymm covered.2 covers.2⟩

/-! ## Lookups -/

theorem Narrow.lands (narrow : cache.Narrow) (ok : cache.Ok) (hx : x ∈ cache) (live : x.ptr ≠ none)
    (inside : x.Contains k) : cache.findEntry k k = some x := by
  refine (findEntry_eq_some ok).mpr ⟨hx, inside.2, fun y hy less => ?_⟩
  by_contra reaches
  rw [CacheEntry.less_iff] at less
  have proper := ok.proper y hy
  obtain ⟨low, high⟩ := inside
  have covers := narrow x hx live y hy ⟨by lia, by lia⟩
  lia

theorem Narrow.searchFromCache (narrow : cache.Narrow) (ok : cache.Ok) (hx : x ∈ cache) (live : x.ptr = some p)
    (inside : x.Contains k) : cache.searchFromCache k = some (x, p.child k) := by
  simp only [IndexCache.searchFromCache, narrow.lands ok hx (by simp [live]) inside, live]
  exact if_pos inside

theorem Narrow.noHit (narrow : cache.Narrow) (ok : cache.Ok) (missed : cache.searchFromCache k = none) :
    cache.NoHit k := by
  intro e he live inside
  obtain ⟨p, live⟩ := Option.ne_none_iff_exists'.mp live
  rw [narrow.searchFromCache ok he live inside] at missed
  cases missed

theorem Narrow.onlyHit (narrow : cache.Narrow) (ok : cache.Ok) (found : cache.searchFromCache k = some (e, a)) :
    cache.OnlyHit k e := by
  intro x hx live inside
  obtain ⟨p, live⟩ := Option.ne_none_iff_exists'.mp live
  rw [narrow.searchFromCache ok hx live inside] at found
  cases found
  exact e.sameRange_refl

theorem OnlyHit.invalidate (only : cache.OnlyHit k e) : (cache.invalidate e).NoHit k := by
  intro x hx live inside
  obtain ⟨q, ptr⟩ := Option.ne_none_iff_exists'.mp live
  have same := only x (mem_invalidate hx ptr) live inside
  obtain ⟨y, hy, rfl⟩ := List.mem_map.mp hx
  split at live
  · exact live rfl
  · rename_i other
    rw [if_neg other] at same
    exact other same

/-! ## Caching a page -/

theorem Narrow.addToCache (narrow : cache.Narrow)
    (covers : ∀ x ∈ cache, x.Meets p.hdr.lowest (p.hdr.highest - 1) →
      x.fromKey ≤ p.hdr.lowest ∧ p.hdr.highest - 1 ≤ x.toKey)
    (alone : ∀ x ∈ cache, x.ptr ≠ none → x.Meets p.hdr.lowest (p.hdr.highest - 1) →
      p.hdr.lowest ≤ x.fromKey ∧ x.toKey ≤ p.hdr.highest - 1) : (cache.addToCache p).Narrow := by
  intro e he live x hx meets
  rcases mem_addToCache he with he | rfl
  · rcases mem_addToCache hx with hx | rfl
    · exact narrow e he live x hx meets
    · exact alone e he live ⟨meets.2, meets.1⟩
  · rcases mem_addToCache hx with hx | rfl
    · exact covers x hx meets
    · exact ⟨le_rfl, le_rfl⟩

theorem Ok.addToCache (ok : cache.Ok) (fence : p.hdr.lowest < p.hdr.highest) : (cache.addToCache p).Ok := by
  refine ⟨ordered_addToCache ok.ordered p, fun x hx => ?_, fun x hx q live => ?_⟩
  · rcases mem_addToCache hx with hx | rfl
    · exact ok.proper x hx
    · exact Nat.le_sub_one_of_lt fence
  · rcases mem_addToCache hx with hx | rfl
    · exact ok.copies x hx q live
    · cases live
      exact ⟨rfl, Nat.sub_add_cancel (Nat.one_le_of_lt fence)⟩

end IndexCache
end Sherman
