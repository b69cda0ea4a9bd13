import Sherman.Page.InternalSpec
import Sherman.Cache.IndexCache
import Mathlib.Data.List.TakeWhile
import Mathlib.Logic.Relation

namespace Sherman

namespace CacheEntry
variable {a b c : CacheEntry}

theorem less_iff : a.less b = true ↔ a.toKey < b.toKey ∨ (a.toKey = b.toKey ∧ b.fromKey < a.fromKey) := by
  simp [less]

theorem not_less_iff : a.less b = false ↔ b.toKey < a.toKey ∨ (a.toKey = b.toKey ∧ a.fromKey ≤ b.fromKey) := by
  rw [← Bool.not_eq_true, less_iff]
  lia

def Contains (e : CacheEntry) (k : Key) : Prop := e.fromKey ≤ k ∧ k ≤ e.toKey

instance (e : CacheEntry) (k : Key) : Decidable (e.Contains k) :=
  inferInstanceAs (Decidable (e.fromKey ≤ k ∧ k ≤ e.toKey))

def Meets (e : CacheEntry) (fromKey toKey : Key) : Prop := e.fromKey ≤ toKey ∧ fromKey ≤ e.toKey

instance (e : CacheEntry) (fromKey toKey : Key) : Decidable (e.Meets fromKey toKey) :=
  inferInstanceAs (Decidable (e.fromKey ≤ toKey ∧ fromKey ≤ e.toKey))

def Nested (a b : CacheEntry) : Prop :=
  a.toKey < b.fromKey ∨ b.toKey < a.fromKey ∨ (a.fromKey ≤ b.fromKey ∧ b.toKey ≤ a.toKey) ∨
    (b.fromKey ≤ a.fromKey ∧ a.toKey ≤ b.toKey)

theorem less_trans (h : a.less b = true) (h' : b.less c = true) : a.less c = true := by
  rw [less_iff] at h h' ⊢
  lia

theorem less_of_not_less (h : ¬ b.less a = true) (other : ¬ a.sameRange b = true) : a.less b = true := by
  rw [less_iff] at h ⊢
  simp only [sameRange, decide_eq_true_eq] at other
  lia

theorem less_congr {a' b' : CacheEntry} (h : a.sameRange a' = true) (h' : b.sameRange b' = true) :
    a'.less b' = a.less b := by
  simp only [sameRange, decide_eq_true_eq] at h h'
  simp only [less, h, h']

theorem sameRange_comm : a.sameRange b = true ↔ b.sameRange a = true := by
  simp only [sameRange, decide_eq_true_eq]
  tauto

theorem sameRange_refl (a : CacheEntry) : a.sameRange a = true := by
  simp [sameRange]

end CacheEntry

namespace IndexCache
variable {cache : IndexCache} {k fromKey toKey : Key} {e x : CacheEntry}

structure Ok (cache : IndexCache) : Prop where
  ordered : cache.Pairwise fun a b => a.less b = true
  proper : ∀ e ∈ cache, e.fromKey ≤ e.toKey
  copies : ∀ e ∈ cache, ∀ p, e.ptr = some p → e.fromKey = p.hdr.lowest ∧ e.toKey + 1 = p.hdr.highest

def Laminar (cache : IndexCache) : Prop := ∀ x ∈ cache, ∀ y ∈ cache, x.Nested y

theorem Ok.mem_front (ok : cache.Ok) {front back : List CacheEntry} (cut : cache = front ++ e :: back) :
    x ∈ front ↔ x ∈ cache ∧ x.less e = true := by
  subst cut
  obtain ⟨-, later, earlier⟩ := List.pairwise_append.mp ok.ordered
  refine ⟨fun hx => ⟨by simp [hx], earlier x hx e (by simp)⟩, ?_⟩
  rintro ⟨hx, less⟩
  rcases List.mem_append.mp hx with hx | hx
  · exact hx
  · exfalso
    rcases List.mem_cons.mp hx with rfl | hx
    · rw [CacheEntry.less_iff] at less
      lia
    · have := (List.pairwise_cons.mp later).1 x hx
      rw [CacheEntry.less_iff] at this less
      lia

/-! ### Adding and invalidating -/

theorem ok_nil : Ok [] :=
  ⟨List.Pairwise.nil, fun _ he => absurd he List.not_mem_nil, fun _ he => absurd he List.not_mem_nil⟩

theorem mem_addEntry {cache' : IndexCache} (added : cache.addEntry e = some cache') :
    x ∈ cache' ↔ x ∈ cache ∨ x = e := by
  unfold addEntry at added
  split at added
  · cases added
  · cases added
    conv_rhs => rw [← List.takeWhile_append_dropWhile (p := (·.less e)) (l := cache)]
    simp only [List.mem_append, List.mem_cons]
    tauto

theorem ordered_addEntry {cache' : IndexCache} (ordered : cache.Pairwise fun a b => a.less b = true)
    (added : cache.addEntry e = some cache') : cache'.Pairwise fun a b => a.less b = true := by
  induction cache generalizing cache' with
  | nil =>
      cases added
      exact List.pairwise_singleton _ _
  | cons y rest ih =>
      obtain ⟨first, later⟩ := List.pairwise_cons.mp ordered
      unfold addEntry at added
      split at added
      · cases added
      · rename_i new
        simp only [List.any_cons, Bool.or_eq_true, not_or] at new
        cases added
        by_cases before : y.less e = true
        · simp only [List.takeWhile_cons, List.dropWhile_cons, before, if_true, List.cons_append,
            List.pairwise_cons]
          have tail : addEntry rest e = some _ := if_neg new.2
          refine ⟨fun z hz => ?_, ih later tail⟩
          rcases (mem_addEntry tail).mp hz with hz | rfl
          · exact first z hz
          · exact before
        · have after := CacheEntry.less_of_not_less before new.1
          simp only [List.takeWhile_cons, List.dropWhile_cons, if_neg before, List.nil_append,
            List.pairwise_cons]
          refine ⟨fun z hz => ?_, first, later⟩
          rcases List.mem_cons.mp hz with rfl | hz
          · exact after
          · exact CacheEntry.less_trans after (first z hz)

theorem ordered_map {f : CacheEntry → CacheEntry} (ordered : cache.Pairwise fun a b => a.less b = true)
    (same : ∀ x : CacheEntry, x.sameRange (f x) = true) : (cache.map f).Pairwise fun a b => a.less b = true :=
  List.pairwise_map.mpr (ordered.imp fun {x y} less => (CacheEntry.less_congr (same x) (same y)).trans less)

theorem ordered_addToCache (ordered : cache.Pairwise fun a b => a.less b = true) (p : InternalPage) :
    (cache.addToCache p).Pairwise fun a b => a.less b = true := by
  unfold addToCache
  simp only
  split
  · rename_i cache' added
    exact ordered_addEntry ordered added
  · refine ordered_map ordered fun x => ?_
    split
    · rename_i refill
      exact CacheEntry.sameRange_comm.mp refill.1
    · exact x.sameRange_refl

theorem ordered_invalidate (ordered : cache.Pairwise fun a b => a.less b = true) (e : CacheEntry) :
    (cache.invalidate e).Pairwise fun a b => a.less b = true := by
  refine ordered_map ordered fun x => ?_
  split
  · exact x.sameRange_refl
  · exact x.sameRange_refl

theorem Ok.invalidate (ok : cache.Ok) (e : CacheEntry) : (cache.invalidate e).Ok := by
  refine ⟨ordered_invalidate ok.ordered e, fun x hx => ?_, fun x hx q live => ?_⟩
  · obtain ⟨y, hy, rfl⟩ := List.mem_map.mp hx
    split
    · exact ok.proper y hy
    · exact ok.proper y hy
  · exact ok.copies x (mem_invalidate hx live) q live

inductive CacheStep (cache : IndexCache) : IndexCache → Prop where
  | same : CacheStep cache cache
  | added (p : InternalPage) : CacheStep cache (cache.addToCache p)
  | invalidated (e : CacheEntry) : CacheStep cache (cache.invalidate e)

theorem CacheStep.ordered {cache' : IndexCache} (h : CacheStep cache cache')
    (ordered : cache.Pairwise fun a b => a.less b = true) : cache'.Pairwise fun a b => a.less b = true := by
  cases h with
  | same => exact ordered
  | added p => exact ordered_addToCache ordered p
  | invalidated e => exact ordered_invalidate ordered e

theorem ordered_steps (h : Relation.ReflTransGen CacheStep [] cache) :
    cache.Pairwise fun a b => a.less b = true := by
  induction h with
  | refl => exact List.Pairwise.nil
  | tail _ step ih => exact step.ordered ih

theorem CacheStep.proper {cache' : IndexCache} (h : CacheStep cache cache') (ok : cache.Ok) (hx : x ∈ cache') :
    x.fromKey ≤ x.toKey ∨ ∃ p, x.ptr = some p := by
  cases h with
  | same => exact .inl (ok.proper x hx)
  | added p =>
      rcases mem_addToCache hx with hx | rfl
      · exact .inl (ok.proper x hx)
      · exact .inr ⟨p, rfl⟩
  | invalidated e => exact .inl ((ok.invalidate e).proper x hx)

/-! ## Seeking -/

theorem findEntry_eq_some (ok : cache.Ok) :
    cache.findEntry k k = some e ↔
      e ∈ cache ∧ k ≤ e.toKey ∧ ∀ x ∈ cache, x.less e = true → x.toKey < k := by
  have stays : ∀ y ∈ cache, (¬ y.less ⟨k, k, none⟩ = true) ↔ k ≤ y.toKey := by
    intro y hy
    have proper := ok.proper y hy
    rw [CacheEntry.less_iff]
    simp only
    lia
  unfold findEntry
  constructor
  · intro found
    have mem := List.mem_of_find?_eq_some found
    obtain ⟨stopped, front, back, cut, passed⟩ := List.find?_eq_some_iff_append.mp found
    refine ⟨mem, (stays e mem).mp (by simpa using stopped), fun x hx less => ?_⟩
    have := passed x ((ok.mem_front cut).mpr ⟨hx, less⟩)
    exact Nat.not_le.mp (mt (stays x hx).mpr (by simpa using this))
  · rintro ⟨mem, bound, passed⟩
    obtain ⟨front, back, cut⟩ := List.append_of_mem mem
    refine List.find?_eq_some_iff_append.mpr ⟨by simpa using (stays e mem).mpr bound, front, back, cut, ?_⟩
    intro x hx
    obtain ⟨hx, less⟩ := (ok.mem_front cut).mp hx
    have := mt (stays x hx).mp (Nat.not_le.mpr (passed x hx less))
    simpa using this

theorem searchFromCache_landed {a : GlobalAddress} (found : cache.searchFromCache k = some (e, a)) :
    cache.findEntry k k = some e := by
  unfold searchFromCache at found
  split at found
  · cases found
  · rename_i y landed
    split at found
    · cases found
    · split at found
      · simp only [Option.some.injEq, Prod.mk.injEq] at found
        rw [landed, found.1]
      · cases found

theorem searchFromCache_eq_some (ok : cache.Ok) {a : GlobalAddress} :
    cache.searchFromCache k = some (e, a) ↔
      e ∈ cache ∧ (∃ p, e.ptr = some p ∧ a = p.child k) ∧ e.Contains k ∧
        ∀ x ∈ cache, x.less e = true → x.toKey < k := by
  constructor
  · intro found
    obtain ⟨mem, p, live, low, high, rfl⟩ := searchFromCache_spec found
    exact ⟨mem, ⟨p, live, rfl⟩, ⟨low, high⟩, ((findEntry_eq_some ok).mp (searchFromCache_landed found)).2.2⟩
  · rintro ⟨mem, ⟨p, live, rfl⟩, inside, passed⟩
    have landed : cache.findEntry k k = some e := (findEntry_eq_some ok).mpr ⟨mem, inside.2, passed⟩
    simp only [searchFromCache, landed, live]
    exact if_pos inside

theorem searchFromCache_narrowest (ok : cache.Ok) (laminar : cache.Laminar) {a : GlobalAddress}
    (found : cache.searchFromCache k = some (e, a)) (hx : x ∈ cache) (inside : x.Contains k) :
    x.fromKey ≤ e.fromKey ∧ e.toKey ≤ x.toKey := by
  obtain ⟨mem, -, ⟨low, high⟩, passed⟩ := (searchFromCache_eq_some ok).mp found
  have nested := laminar x hx e mem
  have notBefore : ¬ x.less e = true := fun less => absurd inside.2 (Nat.not_le.mpr (passed x hx less))
  rw [CacheEntry.less_iff] at notBefore
  obtain ⟨low', high'⟩ := inside
  unfold CacheEntry.Nested at nested
  lia

/-- What a lookup returns: the live entry that contains the key, when every entry before it in the
list ends before the key. It is the narrowest of all entries that contain the key, and the address
is the one `internal_page_search` finds in its page. -/
theorem search_from_cache_finds (cache : IndexCache) (ok : cache.Ok) (laminar : cache.Laminar) (k : Key) :
    (∀ e a, cache.searchFromCache k = some (e, a) ↔
      e ∈ cache ∧ (∃ p, e.ptr = some p ∧ p.search k = .ok a) ∧ e.Contains k ∧
        ∀ x ∈ cache, x.less e = true → x.toKey < k) ∧
    ∀ e a, cache.searchFromCache k = some (e, a) → ∀ x ∈ cache, x.Contains k →
      x.fromKey ≤ e.fromKey ∧ e.toKey ≤ x.toKey := by
  refine ⟨fun e a => ?_, fun e a found x hx inside => searchFromCache_narrowest ok laminar found hx inside⟩
  rw [searchFromCache_eq_some ok]
  refine and_congr_right fun mem => ?_
  have routed : e.Contains k → ∀ p, e.ptr = some p → p.search k = .ok (p.child k) := by
    rintro ⟨low, high⟩ p live
    obtain ⟨lowest, highest⟩ := ok.copies e mem p live
    exact InternalPage.search_ok (lowest ▸ low) (highest ▸ Nat.lt_succ_of_le high)
  constructor
  · rintro ⟨⟨p, live, rfl⟩, inside, passed⟩
    exact ⟨⟨p, live, routed inside p live⟩, inside, passed⟩
  · rintro ⟨⟨p, live, found⟩, inside, passed⟩
    rw [routed inside p live, Except.ok.injEq] at found
    exact ⟨⟨p, live, found.symm⟩, inside, passed⟩

/-- Two pages of one level, the narrower one split off the wider one before that was cached. -/
def fenced (lowest middle highest : Key) : InternalPage :=
  let p := InternalPage.newRoot ⟨0, 1024⟩ middle ⟨0, 2048⟩ 1
  { p with hdr := { p.hdr with lowest := lowest, highest := highest } }

def shadowed : IndexCache := [⟨50, 60, some (fenced 50 55 61)⟩, ⟨0, 99, some (fenced 0 30 100)⟩]

theorem shadowed_ok : shadowed.Ok where
  ordered := by decide
  proper := by decide
  copies := by simp [shadowed, fenced]

theorem shadowed_laminar : shadowed.Laminar := by
  simp [Laminar, shadowed, CacheEntry.Nested]

theorem search_from_cache_finds_narrow :
    shadowed.searchFromCache 57 = some (⟨50, 60, some (fenced 50 55 61)⟩, ⟨0, 2048⟩) := by
  refine ((search_from_cache_finds shadowed shadowed_ok shadowed_laminar 57).1 _ _).mpr
    ⟨by simp [shadowed], ⟨fenced 50 55 61, rfl, rfl⟩, by decide, by decide⟩

/-- Key `40` lies in the wide entry, but the seek lands on the narrow one. -/
theorem search_from_cache_misses :
    shadowed.Ok ∧ shadowed.Laminar ∧ (∃ e ∈ shadowed, e.ptr ≠ none ∧ e.Contains 40) ∧
      shadowed.searchFromCache 40 = none :=
  ⟨shadowed_ok, shadowed_laminar, by decide, by decide⟩

/-! ## Range scans -/

theorem mem_collect {p : InternalPage} {entries : List CacheEntry} :
    p ∈ collect toKey entries ↔ ∃ front e back, entries = front ++ e :: back ∧ e.ptr = some p ∧
      e.fromKey ≤ toKey ∧ ∀ x ∈ front, x.ptr ≠ none → x.fromKey ≤ toKey := by
  induction entries with
  | nil => simp [collect]
  | cons y rest ih =>
      have shift : (∃ front e back, y :: rest = front ++ e :: back ∧ e.ptr = some p ∧ e.fromKey ≤ toKey ∧
            ∀ x ∈ front, x.ptr ≠ none → x.fromKey ≤ toKey) ↔
          (y.ptr = some p ∧ y.fromKey ≤ toKey) ∨ ((y.ptr ≠ none → y.fromKey ≤ toKey) ∧
            p ∈ collect toKey rest) := by
        rw [ih]
        constructor
        · rintro ⟨front, e, back, cut, live, bound, passed⟩
          cases front with
          | nil =>
              obtain ⟨rfl, -⟩ := List.cons.inj cut
              exact .inl ⟨live, bound⟩
          | cons z front =>
              obtain ⟨rfl, rfl⟩ := List.cons.inj cut
              exact .inr ⟨passed y (by simp), front, e, back, rfl, live, bound, fun x hx => passed x (by simp [hx])⟩
        · rintro (⟨live, bound⟩ | ⟨first, front, e, back, rfl, live, bound, passed⟩)
          · exact ⟨[], y, rest, rfl, live, bound, by simp⟩
          · exact ⟨y :: front, e, back, rfl, live, bound, by simpa using ⟨first, passed⟩⟩
      rw [shift, collect]
      split
      · rename_i evicted
        simp [evicted]
      · rename_i q live
        split
        · rename_i above
          simp [live, above]
        · rename_i within
          simp [live, Nat.not_lt.mp within, eq_comm]

theorem Ok.reaches (ok : cache.Ok) (hx : x ∈ cache.dropWhile (·.less ⟨fromKey, fromKey, none⟩)) :
    fromKey ≤ x.toKey := by
  have stopped := List.head?_dropWhile_not (·.less ⟨fromKey, fromKey, none⟩) cache
  have ordered := ok.ordered.sublist (List.dropWhile_sublist (·.less ⟨fromKey, fromKey, none⟩))
  generalize cache.dropWhile _ = rest at *
  cases rest with
  | nil => simp at hx
  | cons y rest =>
      simp only [List.head?_cons, CacheEntry.not_less_iff] at stopped
      rcases List.mem_cons.mp hx with rfl | hx
      · lia
      · have := (List.pairwise_cons.mp ordered).1 x hx
        rw [CacheEntry.less_iff] at this
        lia

theorem mem_searchRangeFromCache (ok : cache.Ok) {p : InternalPage} (range : fromKey ≤ toKey) :
    p ∈ cache.searchRangeFromCache fromKey toKey ↔ ∃ e ∈ cache, e.ptr = some p ∧ e.Meets fromKey toKey ∧
      ∀ x ∈ cache, x.less e = true → x.ptr ≠ none → x.fromKey ≤ toKey := by
  have below : ∀ y ∈ cache.takeWhile (·.less ⟨fromKey, fromKey, none⟩), y.fromKey ≤ y.toKey ∧ y.toKey < fromKey := by
    intro y hy
    have proper := ok.proper y (List.takeWhile_subset _ hy)
    have less := List.mem_takeWhile_imp hy
    rw [CacheEntry.less_iff] at less
    exact ⟨proper, by lia⟩
  have parts := List.takeWhile_append_dropWhile (p := (·.less ⟨fromKey, fromKey, none⟩)) (l := cache)
  rw [searchRangeFromCache, mem_collect]
  constructor
  · rintro ⟨front, e, back, cut, live, bound, passed⟩
    have reaches : fromKey ≤ e.toKey := ok.reaches (by rw [cut]; simp)
    rw [cut, ← List.append_assoc] at parts
    refine ⟨e, by rw [← parts]; simp, live, ⟨bound, reaches⟩, fun x hx less holds => ?_⟩
    rcases List.mem_append.mp ((ok.mem_front parts.symm).mpr ⟨hx, less⟩) with hx | hx
    · have := below x hx
      lia
    · exact passed x hx holds
  · rintro ⟨e, mem, live, ⟨bound, reaches⟩, passed⟩
    rw [← parts, List.mem_append] at mem
    have later : e ∈ cache.dropWhile (·.less ⟨fromKey, fromKey, none⟩) :=
      mem.resolve_left fun early => absurd (below e early).2 (Nat.not_lt.mpr reaches)
    obtain ⟨front, back, cut⟩ := List.append_of_mem later
    rw [cut, ← List.append_assoc] at parts
    refine ⟨front, e, back, cut, live, bound, fun x hx holds => ?_⟩
    obtain ⟨hx, less⟩ := (ok.mem_front parts.symm).mp (List.mem_append_right _ hx)
    exact passed x hx less holds

/-- The scan returns the pages of all live entries that meet the range exactly when none of them
comes after a live entry that starts above the range. -/
theorem search_range_from_cache_complete (cache : IndexCache) (ok : cache.Ok) (fromKey toKey : Key)
    (range : fromKey ≤ toKey) :
    (∀ p, p ∈ cache.searchRangeFromCache fromKey toKey ↔
        ∃ e ∈ cache, e.ptr = some p ∧ e.Meets fromKey toKey) ↔
      ∀ x ∈ cache, x.ptr ≠ none → toKey < x.fromKey →
        ∀ y ∈ cache, y.ptr ≠ none → y.Meets fromKey toKey → ¬ x.less y = true := by
  constructor
  · intro complete x hx holds above y hy live meets less
    obtain ⟨p, live⟩ := Option.ne_none_iff_exists'.mp live
    obtain ⟨e, mem, same, -, passed⟩ :=
      (mem_searchRangeFromCache ok range).mp ((complete p).mpr ⟨y, hy, live, meets⟩)
    -- the page fixes the interval of its entry
    obtain ⟨low, high⟩ := ok.copies e mem p same
    obtain ⟨low', high'⟩ := ok.copies y hy p live
    have less' : x.less e = true := by
      rw [CacheEntry.less_iff] at less ⊢
      lia
    have := passed x hx less' holds
    lia
  · intro unhidden p
    rw [mem_searchRangeFromCache ok range]
    constructor
    · rintro ⟨e, mem, live, meets, -⟩
      exact ⟨e, mem, live, meets⟩
    · rintro ⟨e, mem, live, meets⟩
      refine ⟨e, mem, live, meets, fun x hx less holds => ?_⟩
      by_contra above
      exact unhidden x hx holds (Nat.not_le.mp above) e mem (by simp [live]) meets less

theorem search_range_from_cache_upper :
    fenced 50 55 61 ∈ shadowed.searchRangeFromCache 50 70 :=
  ((search_range_from_cache_complete shadowed shadowed_ok 50 70 (by decide)).mpr (by decide) _).mpr
    ⟨_, List.mem_cons_self, rfl, by decide⟩

/-- The wide entry meets the range, but the narrow one ends first and starts above it. -/
theorem search_range_from_cache_stops :
    shadowed.Ok ∧ shadowed.Laminar ∧ (∃ e ∈ shadowed, e.ptr ≠ none ∧ e.Meets 10 20) ∧
      shadowed.searchRangeFromCache 10 20 = [] :=
  ⟨shadowed_ok, shadowed_laminar, by decide, by decide⟩

/-! ## Sampling a victim -/

theorem exists_above {α : Type} {f : α → Nat} {low high bound : Nat} (l : List α) (range : low ≤ high)
    (inBound : low < bound) (above : ∀ x ∈ l, f x < high ∧ f x + 1 < bound) :
    ∃ k, low ≤ k ∧ k ≤ high ∧ k < bound ∧ ∀ x ∈ l, f x < k := by
  induction l with
  | nil => exact ⟨low, le_rfl, range, inBound, by simp⟩
  | cons x l ih =>
      obtain ⟨k, lower, upper, inBound, passed⟩ := ih fun y hy => above y (by simp [hy])
      obtain ⟨upper', inBound'⟩ := above x (by simp)
      refine ⟨max k (f x + 1), by omega, by omega, by omega, fun y hy => ?_⟩
      rcases List.mem_cons.mp hy with rfl | hy
      · omega
      · have := passed y hy
        omega

theorem getARandomEntry_isSome :
    (∃ random, (cache.getARandomEntry random).isSome) ↔ ∃ k < sampleSpace, (cache.searchFromCache k).isSome := by
  constructor
  · rintro ⟨random, found⟩
    obtain ⟨e, found⟩ := Option.isSome_iff_exists.mp found
    obtain ⟨r, -, hit⟩ := List.exists_of_findSome?_eq_some found
    obtain ⟨x, hit, -⟩ := Option.map_eq_some_iff.mp hit
    exact ⟨r % sampleSpace, Nat.mod_lt _ (by decide), by simp [hit]⟩
  · rintro ⟨k, inSpace, hit⟩
    obtain ⟨x, hit⟩ := Option.isSome_iff_exists.mp hit
    exact ⟨[k], by simp [getARandomEntry, Nat.mod_eq_of_lt inSpace, hit]⟩

/-- A sampled lookup can hit exactly when some live entry contains a key of the sample space above
the ends of all entries before it. -/
theorem eviction_finds_victim (cache : IndexCache) (ok : cache.Ok) :
    (∃ k < sampleSpace, (cache.searchFromCache k).isSome) ↔
      ∃ e ∈ cache, e.ptr ≠ none ∧ e.fromKey < sampleSpace ∧
        ∀ x ∈ cache, x.less e = true → x.toKey < e.toKey ∧ x.toKey + 1 < sampleSpace := by
  constructor
  · rintro ⟨k, inSpace, hit⟩
    obtain ⟨⟨e, a⟩, hit⟩ := Option.isSome_iff_exists.mp hit
    obtain ⟨mem, ⟨p, live, -⟩, ⟨low, high⟩, passed⟩ := (searchFromCache_eq_some ok).mp hit
    refine ⟨e, mem, by simp [live], by lia, fun x hx less => ?_⟩
    have := passed x hx less
    lia
  · rintro ⟨e, mem, live, inSpace, passed⟩
    obtain ⟨p, live⟩ := Option.ne_none_iff_exists'.mp live
    -- the first key of the entry that no earlier entry reaches
    obtain ⟨k, low, high, inSpace, passed⟩ := exists_above (f := CacheEntry.toKey)
      (cache.filter (·.less e)) (ok.proper e mem) inSpace (by simpa using passed)
    have passed : ∀ x ∈ cache, x.less e = true → x.toKey < k := fun x hx less => passed x (by simp [hx, less])
    exact ⟨k, inSpace, by rw [(searchFromCache_eq_some ok).mpr ⟨mem, ⟨p, live, rfl⟩, ⟨low, high⟩, passed⟩]; rfl⟩

theorem eviction_finds_victim_shadowed : ∃ k < sampleSpace, (shadowed.searchFromCache k).isSome :=
  (eviction_finds_victim shadowed shadowed_ok).mpr
    ⟨⟨50, 60, some (fenced 50 55 61)⟩, by simp [shadowed], by decide, by decide, by decide⟩

def distant : IndexCache := [⟨2 ^ 40, 2 ^ 41, some (fenced (2 ^ 40) (2 ^ 40 + 1) (2 ^ 41 + 1))⟩]

/-- The only live entry lies above the sample space. -/
theorem eviction_never_ends :
    distant.Ok ∧ distant.Laminar ∧ (∃ e ∈ distant, e.ptr ≠ none) ∧
      ¬ ∃ k < sampleSpace, (distant.searchFromCache k).isSome := by
  refine ⟨⟨by decide, by decide, by simp [distant, fenced]⟩, by simp [Laminar, distant, CacheEntry.Nested],
    by decide, ?_⟩
  rintro ⟨k, inSpace, hit⟩
  have space : sampleSpace < 2 ^ 40 := by decide
  obtain ⟨⟨e, a⟩, hit⟩ := Option.isSome_iff_exists.mp hit
  obtain ⟨mem, -, -, low, -⟩ := searchFromCache_spec hit
  rw [distant, List.mem_singleton] at mem
  subst mem
  simp only at low
  lia

end IndexCache
end Sherman
