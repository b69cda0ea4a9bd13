import Sherman.Page.Internal

/-!
# The index cache

The entries of the skip list of `include/IndexCache.h`, in the order of `CacheEntryComparator`.
-/

namespace Sherman

structure CacheEntry where
  fromKey : Key
  toKey : Key
  ptr : Option InternalPage
  deriving DecidableEq

namespace CacheEntry

/-- `CacheEntryComparator`: by the upper end, the narrower interval first at equal ends. -/
def less (a b : CacheEntry) : Bool :=
  a.toKey < b.toKey ∨ (a.toKey = b.toKey ∧ b.fromKey < a.fromKey)

def sameRange (a b : CacheEntry) : Bool := a.fromKey = b.fromKey ∧ a.toKey = b.toKey

end CacheEntry

abbrev IndexCache := List CacheEntry

namespace IndexCache

/-- The first entry not smaller than `[fromKey, toKey]`, as the skip list seeks it. -/
def findEntry (cache : IndexCache) (fromKey toKey : Key) : Option CacheEntry :=
  cache.find? fun e => ¬ e.less ⟨fromKey, toKey, none⟩

def addEntry (cache : IndexCache) (e : CacheEntry) : Option IndexCache :=
  if cache.any e.sameRange then none
  else some (cache.takeWhile (·.less e) ++ e :: cache.dropWhile (·.less e))

def addToCache (cache : IndexCache) (p : InternalPage) : IndexCache :=
  let e : CacheEntry := ⟨p.hdr.lowest, p.hdr.highest - 1, some p⟩
  match cache.addEntry e with
  | some cache' => cache'
  | none => cache.map fun x => if e.sameRange x ∧ x.ptr = none then e else x

def searchFromCache (cache : IndexCache) (k : Key) : Option (CacheEntry × GlobalAddress) :=
  match cache.findEntry k k with
  | none => none
  | some e => match e.ptr with
    | none => none
    | some p => if e.fromKey ≤ k ∧ k ≤ e.toKey then some (e, p.child k) else none

def invalidate (cache : IndexCache) (e : CacheEntry) : IndexCache :=
  cache.map fun x => if e.sameRange x then { x with ptr := none } else x

/-- The scan of `search_range_from_cache`: it passes over evicted entries and returns at the first
live one that starts after the range. -/
def collect (toKey : Key) : List CacheEntry → List InternalPage
  | [] => []
  | e :: rest => match e.ptr with
    | none => collect toKey rest
    | some p => if toKey < e.fromKey then [] else p :: collect toKey rest

def searchRangeFromCache (cache : IndexCache) (fromKey toKey : Key) : List InternalPage :=
  collect toKey (cache.dropWhile (·.less ⟨fromKey, fromKey, none⟩))

/-- `1000ull * define::MB`: `get_a_random_entry` samples the keys below. -/
def sampleSpace : Nat := 1000 * (1024 * 1024)

def getARandomEntry (cache : IndexCache) (random : List Nat) : Option CacheEntry :=
  random.findSome? fun r => (cache.searchFromCache (r % sampleSpace)).map Prod.fst

/-! ## Entries -/

theorem mem_addToCache {cache : IndexCache} {p : InternalPage} {x : CacheEntry}
    (h : x ∈ cache.addToCache p) : x ∈ cache ∨ x = ⟨p.hdr.lowest, p.hdr.highest - 1, some p⟩ := by
  unfold addToCache at h
  generalize (⟨p.hdr.lowest, p.hdr.highest - 1, some p⟩ : CacheEntry) = e at h ⊢
  simp only at h
  split at h
  · rename_i cache' added
    unfold addEntry at added
    split at added
    · cases added
    · cases added
      rw [List.mem_append, List.mem_cons] at h
      rcases h with h | h | h
      · exact .inl (List.takeWhile_subset _ h)
      · exact .inr h
      · exact .inl (List.dropWhile_subset _ h)
  · obtain ⟨y, hy, rfl⟩ := List.mem_map.mp h
    split
    · exact .inr rfl
    · exact .inl hy

theorem mem_invalidate {cache : IndexCache} {e x : CacheEntry} {p : InternalPage}
    (h : x ∈ cache.invalidate e) (live : x.ptr = some p) : x ∈ cache := by
  obtain ⟨y, hy, rfl⟩ := List.mem_map.mp h
  split at live
  · cases live
  · rename_i other
    rw [if_neg other]
    exact hy

theorem searchFromCache_spec {cache : IndexCache} {k : Key} {e : CacheEntry} {a : GlobalAddress}
    (h : cache.searchFromCache k = some (e, a)) :
    e ∈ cache ∧ ∃ p, e.ptr = some p ∧ e.fromKey ≤ k ∧ k ≤ e.toKey ∧ a = p.child k := by
  unfold searchFromCache at h
  split at h
  · cases h
  · rename_i x found
    split at h
    · cases h
    · rename_i p live
      split at h
      · rename_i inside
        cases h
        exact ⟨List.mem_of_find?_eq_some found, p, live, inside.1, inside.2, rfl⟩
      · cases h

end IndexCache
end Sherman
