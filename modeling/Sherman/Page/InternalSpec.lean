import Sherman.Page.Internal
import Mathlib.Data.List.Sort
import Mathlib.Data.List.GetD
import Mathlib.Data.List.Induction

namespace Sherman
namespace InternalPage

def Child (p : InternalPage) (c : GlobalAddress) (x : Key) : Prop :=
  (c = p.hdr.leftmostPtr ∧ x = p.hdr.lowest) ∨ ∃ r ∈ p.live, r.ptr = c ∧ r.key = x

/-- Separators increase strictly inside the fences, and one slot is free. A page that does not
cover all keys comes from a split, so it is at least half full. -/
structure Ok (p : InternalPage) : Prop where
  level : p.hdr.level ≠ 0
  consistent : p.rearVersion = p.frontVersion
  fence : p.hdr.lowest < p.hdr.highest
  highest_le : p.hdr.highest ≤ kKeyMax
  pos : 0 < p.cnt
  space : p.cnt < kInternalCardinality
  sorted : p.live.Pairwise fun a b => a.key < b.key
  range : ∀ r ∈ p.live, p.hdr.lowest < r.key ∧ r.key < p.hdr.highest
  occupied : ¬ (p.hdr.lowest = kKeyMin ∧ p.hdr.highest = kKeyMax) → kInternalCardinality / 2 ≤ p.cnt

structure Full (p : InternalPage) : Prop where
  level : p.hdr.level ≠ 0
  highest_le : p.hdr.highest ≤ kKeyMax
  cnt : p.cnt = kInternalCardinality
  sorted : p.live.Pairwise fun a b => a.key < b.key
  range : ∀ r ∈ p.live, p.hdr.lowest < r.key ∧ r.key < p.hdr.highest

theorem live_append (p : InternalPage) : p.records = p.live ++ p.records.drop p.cnt :=
  (List.take_append_drop _ _).symm

theorem length_live {p : InternalPage} (h : p.cnt ≤ kInternalCardinality) :
    p.live.length = p.cnt := by
  rw [live, List.length_take, p.size]
  omega

theorem live_eq {p : InternalPage} {l g : List InternalEntry} (records : p.records = l ++ g)
    (cnt : p.cnt = l.length) : p.live = l := by
  rw [live, cnt, records, List.take_left]

theorem Ok.child_range {p : InternalPage} (ok : p.Ok) {c : GlobalAddress} {x : Key}
    (h : p.Child c x) : p.hdr.lowest ≤ x ∧ x < p.hdr.highest := by
  rcases h with ⟨-, rfl⟩ | ⟨r, hr, -, rfl⟩
  · exact ⟨le_rfl, ok.fence⟩
  · exact ⟨(ok.range r hr).1.le, (ok.range r hr).2⟩

/-! ## Search -/

theorem childFrom_mem {p : InternalPage} {k : Key} {fuel i : Nat} (pos : 0 < i)
    (bound : i + fuel ≤ p.records.length)
    (below : (p.records.getD (i - 1) default).key ≤ k) :
    ∃ j < i + fuel, (p.records.getD j default).key ≤ k ∧
      p.childFrom k fuel i = (p.records.getD j default).ptr := by
  induction fuel generalizing i with
  | zero => exact ⟨i - 1, by omega, below, rfl⟩
  | succ fuel ih =>
      simp only [childFrom]
      split
      · exact ⟨i - 1, by omega, below, rfl⟩
      · rename_i above
        obtain ⟨j, hj, key, ptr⟩ := ih (i := i + 1) (by omega) (by omega)
          (by simpa using not_lt.mp above)
        exact ⟨j, by omega, key, ptr⟩

theorem Ok.child_spec {p : InternalPage} (ok : p.Ok) {k : Key} (low : p.hdr.lowest ≤ k) :
    ∃ x ≤ k, p.Child (p.child k) x := by
  unfold child
  split
  · exact ⟨p.hdr.lowest, low, .inl ⟨rfl, rfl⟩⟩
  · rename_i first
    have size := p.size
    have pos := ok.pos
    have space := ok.space
    obtain ⟨j, hj, key, ptr⟩ := @childFrom_mem p k (p.cnt - 1) 1
      (by omega) (by omega) (by simpa using first)
    have bound : j < p.records.length := by omega
    refine ⟨_, key, .inr ⟨p.records.getD j default, ?_, ptr.symm, rfl⟩⟩
    rw [List.getD_eq_getElem _ _ bound, live, List.mem_take_iff_getElem]
    exact ⟨j, by omega, rfl⟩

theorem search_ok {p : InternalPage} {k : Key} (low : p.hdr.lowest ≤ k)
    (high : k < p.hdr.highest) : p.search k = .ok (p.child k) := by
  simp [InternalPage.search, low, high]

/-! ## The loops of `internal_page_store` -/

theorem scanDown_spec {l : List InternalEntry} (g : List InternalEntry) {k : Key}
    (sorted : l.Pairwise fun a b => a.key < b.key) :
    (∃ a r b, l = a ++ r :: b ∧ r.key = k ∧ scanDown (l ++ g) k l.length = (true, a.length)) ∨
    ∃ a b, l = a ++ b ∧ (∀ r ∈ a, r.key < k) ∧ (∀ r ∈ b, k < r.key) ∧
      scanDown (l ++ g) k l.length = (false, a.length) := by
  induction l using List.reverseRecOn generalizing g with
  | nil => exact .inr ⟨[], [], rfl, by simp, by simp, rfl⟩
  | append_singleton l r ih =>
      rw [List.pairwise_append] at sorted
      have last : ((l ++ [r]) ++ g).getD l.length default = r := by simp
      rw [List.length_append, List.length_singleton, scanDown, last]
      by_cases equal : r.key = k
      · exact .inl ⟨l, r, [], rfl, equal, by rw [if_pos equal]⟩
      · rw [if_neg equal]
        by_cases less : r.key < k
        · refine .inr ⟨l ++ [r], [], by simp, fun x hx => ?_, by simp, by rw [if_pos less]; simp⟩
          rcases List.mem_append.mp hx with hx | hx
          · exact (sorted.2.2 x hx r (by simp)).trans less
          · rwa [List.mem_singleton.mp hx]
        · rw [if_neg less]
          have greater : k < r.key := lt_of_le_of_ne (not_lt.mp less) (Ne.symm equal)
          rw [List.append_assoc]
          rcases ih (r :: g) sorted.1 with ⟨a, x, b, rfl, key, result⟩ | ⟨a, b, rfl, low, high, result⟩
          · exact .inl ⟨a, x, b ++ [r], by simp, key, result⟩
          · refine .inr ⟨a, b ++ [r], by simp, low, fun x hx => ?_, result⟩
            rcases List.mem_append.mp hx with hx | hx
            · exact high x hx
            · rwa [List.mem_singleton.mp hx]

theorem shiftUp_spec (a b g : List InternalEntry) (x : InternalEntry) :
    ∃ y, shiftUp a.length (a.length + b.length) (a ++ (b ++ x :: g)) = a ++ y :: (b ++ g) := by
  induction b using List.reverseRecOn generalizing x g with
  | nil =>
      refine ⟨x, ?_⟩
      cases h : a.length with
      | zero => simp [shiftUp]
      | succ n => simp [shiftUp]
  | append_singleton b r ih =>
      have length : a.length + (b ++ [r]).length = a.length + b.length + 1 := by simp; omega
      have bound : a.length < a.length + b.length + 1 := by omega
      have source : (a ++ (b ++ [r] ++ x :: g)).getD (a.length + b.length) default = r := by
        have split : a ++ (b ++ [r] ++ x :: g) = (a ++ b) ++ r :: x :: g := by simp
        rw [split, ← List.length_append]
        simp
      have target : (a ++ (b ++ [r] ++ x :: g)).set (a.length + b.length + 1) r =
          a ++ (b ++ r :: (r :: g)) := by
        have split : a ++ (b ++ [r] ++ x :: g) = (a ++ (b ++ [r])) ++ x :: g := by simp
        have index : a.length + b.length + 1 = (a ++ (b ++ [r])).length := by simp; omega
        rw [split, index, List.set_append_right _ _ (by simp)]
        simp
      rw [length, shiftUp, if_pos bound, source, target]
      obtain ⟨y, hy⟩ := ih (r :: g) r
      exact ⟨y, by rw [hy]; simp⟩

/-! ## Storing a separator -/

theorem child_iff {p : InternalPage} {l : List InternalEntry} (live : p.live = l)
    (c : GlobalAddress) (x : Key) :
    p.Child c x ↔ (c = p.hdr.leftmostPtr ∧ x = p.hdr.lowest) ∨ ⟨x, c⟩ ∈ l := by
  simp only [Child, live]
  refine or_congr Iff.rfl ⟨?_, fun h => ⟨_, h, rfl, rfl⟩⟩
  rintro ⟨r, hr, rfl, rfl⟩
  exact hr

structure Stored (p : InternalPage) (k : Key) (v : GlobalAddress) (p' : InternalPage) : Prop where
  level : p'.hdr.level = p.hdr.level
  lowest : p'.hdr.lowest = p.hdr.lowest
  highest : p'.hdr.highest = p.hdr.highest
  siblingPtr : p'.hdr.siblingPtr = p.hdr.siblingPtr
  child : ∀ c x, p'.Child c x ↔ (c = v ∧ x = k) ∨ (x ≠ k ∧ p.Child c x)
  cnt : p'.cnt ≤ kInternalCardinality
  ok : p'.cnt ≠ kInternalCardinality → p'.Ok
  full : p'.cnt = kInternalCardinality → p'.Full

theorem mem_replace {a b : List InternalEntry} {r : InternalEntry} {k : Key} {v : GlobalAddress}
    (sorted : (a ++ r :: b).Pairwise fun x y => x.key < y.key) (key : r.key = k) (c : GlobalAddress)
    (x : Key) :
    (⟨x, c⟩ : InternalEntry) ∈ a ++ { r with ptr := v } :: b ↔
      (c = v ∧ x = k) ∨ (x ≠ k ∧ ⟨x, c⟩ ∈ a ++ r :: b) := by
  rw [List.pairwise_append, List.pairwise_cons] at sorted
  have left : ∀ y ∈ a, y.key < k := fun y hy => key ▸ sorted.2.2 y hy r (by simp)
  have right : ∀ y ∈ b, k < y.key := fun y hy => key ▸ sorted.2.1.1 y hy
  cases r with
  | mk rk rp =>
      simp only at key
      subst key
      simp only [List.mem_append, List.mem_cons, InternalEntry.mk.injEq]
      constructor
      · rintro (h | ⟨rfl, rfl⟩ | h)
        · exact .inr ⟨(left _ h).ne, .inl h⟩
        · exact .inl ⟨rfl, rfl⟩
        · exact .inr ⟨(right _ h).ne', .inr (.inr h)⟩
      · rintro (⟨rfl, rfl⟩ | ⟨ne, h | ⟨rfl, -⟩ | h⟩)
        · exact .inr (.inl ⟨rfl, rfl⟩)
        · exact .inl h
        · exact absurd rfl ne
        · exact .inr (.inr h)

theorem mem_insert {a b : List InternalEntry} {k : Key} {v : GlobalAddress}
    (below : ∀ r ∈ a, r.key < k) (above : ∀ r ∈ b, k < r.key) (c : GlobalAddress) (x : Key) :
    (⟨x, c⟩ : InternalEntry) ∈ a ++ ⟨k, v⟩ :: b ↔
      (c = v ∧ x = k) ∨ (x ≠ k ∧ ⟨x, c⟩ ∈ a ++ b) := by
  simp only [List.mem_append, List.mem_cons, InternalEntry.mk.injEq]
  constructor
  · rintro (h | ⟨rfl, rfl⟩ | h)
    · exact .inr ⟨(below _ h).ne, .inl h⟩
    · exact .inl ⟨rfl, rfl⟩
    · exact .inr ⟨(above _ h).ne', .inr h⟩
  · rintro (⟨rfl, rfl⟩ | ⟨-, h | h⟩)
    · exact .inr (.inl ⟨rfl, rfl⟩)
    · exact .inl h
    · exact .inr (.inr h)

theorem Ok.stored {p p' : InternalPage} (ok : p.Ok) {k : Key} {v : GlobalAddress}
    (low : p.hdr.lowest < k) (high : k < p.hdr.highest)
    (consistent : p'.rearVersion = p'.frontVersion)
    (hdr : p'.hdr = { p.hdr with lastIndex := p'.hdr.lastIndex })
    (grows : p.cnt ≤ p'.cnt) (bound : p'.cnt ≤ kInternalCardinality)
    {l : List InternalEntry} (live : p'.live = l) (sorted : l.Pairwise fun a b => a.key < b.key)
    (mem : ∀ c x, ⟨x, c⟩ ∈ l ↔ (c = v ∧ x = k) ∨ (x ≠ k ∧ ⟨x, c⟩ ∈ p.live)) :
    Stored p k v p' := by
  subst live
  have level : p'.hdr.level = p.hdr.level := by rw [hdr]
  have lowest : p'.hdr.lowest = p.hdr.lowest := by rw [hdr]
  have highest : p'.hdr.highest = p.hdr.highest := by rw [hdr]
  have leftmost : p'.hdr.leftmostPtr = p.hdr.leftmostPtr := by rw [hdr]
  have range : ∀ r ∈ p'.live, p'.hdr.lowest < r.key ∧ r.key < p'.hdr.highest := by
    intro r hr
    rw [lowest, highest]
    rcases (mem r.ptr r.key).mp hr with ⟨-, same⟩ | ⟨-, old⟩
    · rw [same]
      exact ⟨low, high⟩
    · exact ok.range _ old
  refine ⟨level, lowest, highest, by rw [hdr], fun c x => ?_, bound, fun notFull => ?_, fun full => ?_⟩
  · rw [child_iff rfl, child_iff rfl, mem, leftmost, lowest]
    have : x = p.hdr.lowest → x ≠ k := fun h => h ▸ low.ne
    tauto
  · have := ok.pos
    refine ⟨level ▸ ok.level, consistent, lowest ▸ highest ▸ ok.fence, highest ▸ ok.highest_le,
      by omega, by omega, sorted, range, fun part => ?_⟩
    rw [lowest, highest] at part
    exact (ok.occupied part).trans grows
  · exact ⟨level ▸ ok.level, highest ▸ ok.highest_le, full, sorted, range⟩

/-- The record part of `internal_page_store` on the live records: they are cut at the separator, whose
record, if there is one, is replaced. -/
theorem store_live {p : InternalPage} (pos : 0 < p.cnt) (space : p.cnt < kInternalCardinality)
    (sorted : p.live.Pairwise fun a b => a.key < b.key) (k : Key) (v : GlobalAddress) :
    ∃ p' a b, p.store k v = .ok p' ∧ (p.live = a ++ b ∨ ∃ r, p.live = a ++ r :: b ∧ r.key = k) ∧
      (∀ r ∈ a, r.key < k) ∧ (∀ r ∈ b, k < r.key) ∧ p'.live = a ++ ⟨k, v⟩ :: b ∧
      p'.cnt = (a ++ (⟨k, v⟩ : InternalEntry) :: b).length ∧
      p'.hdr = { p.hdr with lastIndex := p'.hdr.lastIndex } ∧
      p'.rearVersion = p.rearVersion ∧ p'.frontVersion = p.frontVersion := by
  have length := length_live space.le
  have records := p.live_append
  have notFull : p.cnt ≠ kInternalCardinality := space.ne
  generalize live : p.live = l at *
  generalize p.records.drop p.cnt = g at *
  rcases scanDown_spec g (k := k) sorted with ⟨a, r, b, rfl, key, scan⟩ | ⟨a, b, rfl, below, above, scan⟩
  · rw [← records, length] at scan
    have read : p.records.getD a.length default = r := by simp [records]
    have entry : ({ r with ptr := v } : InternalEntry) = ⟨k, v⟩ := by rw [key]
    have written : p.records.set a.length { r with ptr := v } = (a ++ ⟨k, v⟩ :: b) ++ g := by
      simp [records, entry]
    have count : p.cnt = (a ++ (⟨k, v⟩ : InternalEntry) :: b).length := by rw [← length]; simp
    rw [List.pairwise_append, List.pairwise_cons] at sorted
    simp only [InternalPage.store, scan, notFull, if_false, if_true, read]
    exact ⟨_, a, b, rfl, .inr ⟨r, rfl, key⟩, fun x hx => key ▸ sorted.2.2 x hx r (by simp),
      fun x hx => key ▸ sorted.2.1.1 x hx, live_eq written count, count, rfl, rfl, rfl⟩
  · obtain ⟨x, g, rfl⟩ : ∃ x g', g = x :: g' := by
      cases g with
      | cons x g => exact ⟨x, g, rfl⟩
      | nil =>
          have := p.size
          rw [records, List.append_nil] at this
          omega
    rw [← records, length] at scan
    have last : p.hdr.lastIndex + 1 = p.cnt := by
      have := pos
      simp only [InternalPage.cnt] at this ⊢
      omega
    obtain ⟨y, shifted⟩ := shiftUp_spec a b g x
    have written : (shiftUp a.length p.cnt p.records).set a.length ⟨k, v⟩ = (a ++ ⟨k, v⟩ :: b) ++ g := by
      rw [← length, List.length_append, records, List.append_assoc, shifted]
      simp
    have count : (p.hdr.lastIndex + 1 + 1).toNat = (a ++ (⟨k, v⟩ : InternalEntry) :: b).length := by
      rw [List.length_append] at length
      rw [last, List.length_append, List.length_cons]
      omega
    simp only [InternalPage.store, scan, notFull, if_false, Bool.false_eq_true]
    exact ⟨_, a, b, rfl, .inl rfl, below, above, live_eq written count, count, rfl, rfl, rfl⟩

theorem increasing_of_cut {l a b : List InternalEntry} {k : Key} {v : GlobalAddress}
    (sorted : l.Pairwise fun x y => x.key < y.key) (cut : l = a ++ b ∨ ∃ r, l = a ++ r :: b ∧ r.key = k)
    (below : ∀ r ∈ a, r.key < k) (above : ∀ r ∈ b, k < r.key) :
    (a ++ (⟨k, v⟩ : InternalEntry) :: b).Pairwise fun x y => x.key < y.key := by
  rcases cut with cut | ⟨r, cut, key⟩
  all_goals
    rw [cut, List.pairwise_append] at sorted
    rw [List.pairwise_append, List.pairwise_cons]
  · refine ⟨sorted.1, ⟨above, sorted.2.1⟩, fun x hx y hy => ?_⟩
    rcases List.mem_cons.mp hy with rfl | hy
    · exact below x hx
    · exact sorted.2.2 x hx y hy
  · refine ⟨sorted.1, ⟨above, (List.pairwise_cons.mp sorted.2.1).2⟩, fun x hx y hy => ?_⟩
    rcases List.mem_cons.mp hy with rfl | hy
    · exact below x hx
    · exact sorted.2.2 x hx y (by simp [hy])

theorem Ok.store {p : InternalPage} (ok : p.Ok) {k : Key} (v : GlobalAddress)
    (low : p.hdr.lowest < k) (high : k < p.hdr.highest) :
    ∃ p', p.store k v = .ok p' ∧ Stored p k v p' := by
  have length := length_live ok.space.le
  have sorted := ok.sorted
  have space := ok.space
  obtain ⟨p', a, b, result, cut, below, above, live, count, hdr, rear, front⟩ :=
    store_live ok.pos ok.space ok.sorted k v
  have consistent : p'.rearVersion = p'.frontVersion := by rw [rear, front, ok.consistent]
  have increasing := increasing_of_cut (v := v) ok.sorted cut below above
  refine ⟨p', result, ?_⟩
  rcases cut with cut | ⟨r, cut, key⟩
  · rw [cut, List.length_append] at length
    rw [List.length_append, List.length_cons] at count
    refine ok.stored low high consistent hdr (by omega) (by omega) live increasing ?_
    rw [cut]
    exact mem_insert below above
  · rw [cut, List.length_append, List.length_cons] at length
    rw [List.length_append, List.length_cons] at count
    refine ok.stored low high consistent hdr (by omega) (by omega) live increasing ?_
    rw [cut]
    rw [cut] at sorted
    have entry : ({ r with ptr := v } : InternalEntry) = ⟨k, v⟩ := by rw [key]
    exact entry ▸ mem_replace sorted key

/-! ## Splitting a full page -/

theorem Ok.setConsistent {p : InternalPage} (ok : p.Ok) : p.setConsistent.Ok :=
  ⟨ok.level, rfl, ok.fence, ok.highest_le, ok.pos, ok.space, ok.sorted, ok.range, ok.occupied⟩

theorem newRoot_ok {left right : GlobalAddress} {k : Key} {level : Nat} (nonzero : level ≠ 0)
    (low : kKeyMin < k) (high : k < kKeyMax) : (newRoot left k right level).setConsistent.Ok := by
  have live : (newRoot left k right level).setConsistent.live = [⟨k, right⟩] := rfl
  refine ⟨nonzero, rfl, kKeyMax_pos, le_rfl, (by decide : 0 < 1), (by decide : 1 < kInternalCardinality),
    ?_, ?_, fun part => ?_⟩
  · simp [live]
  · simp only [live, List.mem_singleton, forall_eq]
    exact ⟨low, high⟩
  · exact absurd ⟨rfl, rfl⟩ part

theorem newRoot_child {left right : GlobalAddress} {k : Key} {level : Nat} {c : GlobalAddress}
    {x : Key} (h : (newRoot left k right level).setConsistent.Child c x) :
    (c = left ∧ x = kKeyMin) ∨ (c = right ∧ x = k) := by
  have live : (newRoot left k right level).setConsistent.live = [⟨k, right⟩] := rfl
  rw [child_iff live, List.mem_singleton, InternalEntry.mk.injEq] at h
  exact h.imp id And.symm

structure Halves (p : InternalPage) (a : GlobalAddress) (p' sibling : InternalPage) (s : Key) :
    Prop where
  above : p.hdr.lowest < s
  below : s < p.hdr.highest
  page_hdr : p'.hdr.level = p.hdr.level ∧ p'.hdr.lowest = p.hdr.lowest ∧ p'.hdr.highest = s ∧
    p'.hdr.siblingPtr = a
  sibling_hdr : sibling.hdr.level = p.hdr.level ∧ sibling.hdr.lowest = s ∧
    sibling.hdr.highest = p.hdr.highest ∧ sibling.hdr.siblingPtr = p.hdr.siblingPtr
  page_ok : p'.setConsistent.Ok
  sibling_ok : sibling.setConsistent.Ok
  child : ∀ c x, p.Child c x ↔ p'.setConsistent.Child c x ∨ sibling.setConsistent.Child c x

theorem ok_of_half {p : InternalPage} {l : List InternalEntry} (live : p.live = l)
    (cnt : p.cnt = l.length) (half : l.length = 30) (level : p.hdr.level ≠ 0)
    (consistent : p.rearVersion = p.frontVersion) (fence : p.hdr.lowest < p.hdr.highest)
    (highest_le : p.hdr.highest ≤ kKeyMax) (sorted : l.Pairwise fun a b => a.key < b.key)
    (range : ∀ r ∈ l, p.hdr.lowest < r.key ∧ r.key < p.hdr.highest) : p.Ok := by
  subst live
  rw [half] at cnt
  refine ⟨level, consistent, fence, highest_le, ?_, ?_, sorted, range, fun _ => ?_⟩
  all_goals rw [cnt]
  all_goals decide

theorem split_live {p : InternalPage} (count : p.cnt = kInternalCardinality)
    (range : ∀ r ∈ p.live, p.hdr.lowest < r.key ∧ r.key < p.hdr.highest) (a : GlobalAddress) :
    ∃ page sibling s, p.split a = .ok (page, sibling, s) ∧
      p.live = page.live ++ ⟨s, sibling.hdr.leftmostPtr⟩ :: sibling.live ∧
      page.live.length = 30 ∧ sibling.live.length = 30 ∧ page.cnt = 30 ∧ sibling.cnt = 30 ∧
      page.hdr = { p.hdr with lastIndex := page.hdr.lastIndex, highest := s, siblingPtr := a } ∧
      sibling.hdr = { p.hdr with
        lastIndex := sibling.hdr.lastIndex, leftmostPtr := sibling.hdr.leftmostPtr, lowest := s } := by
  have size := p.size
  have live : p.live = p.records := by rw [live, count, ← size, List.take_length]
  rw [live] at range
  set m := kInternalCardinality / 2 with middleIndex
  have bound : m < p.records.length := by rw [size]; decide
  have cut : p.records = p.records.take m ++ p.records[m] :: p.records.drop (m + 1) := by simp
  have middle : p.records.getD m default = p.records[m] := List.getD_eq_getElem _ _ bound
  generalize p.records[m] = r at *
  have lowLength : (p.records.take m).length = m := by rw [List.length_take]; omega
  have highLength : (p.records.drop (m + 1)).length = kInternalCardinality - m - 1 := by
    rw [List.length_drop, size]; omega
  generalize p.records.take m = l at *
  generalize highPart : p.records.drop (m + 1) = g at *
  have inside := range r (by rw [cut]; simp)
  have last : p.hdr.lastIndex = 60 := by
    rw [kInternalCardinality_eq, InternalPage.cnt] at count
    omega
  have half : m = 30 := rfl
  have pageCount : (p.hdr.lastIndex - (kInternalCardinality - m : Nat) + 1).toNat = l.length := by
    rw [last, lowLength, half, kInternalCardinality_eq]; rfl
  have siblingCount : (-1 + (kInternalCardinality - m - 1 : Nat) + 1 : Int).toNat = g.length := by
    rw [highLength, half, kInternalCardinality_eq]; rfl
  rw [half] at lowLength highLength
  simp only [InternalPage.split, middle, ← middleIndex, highPart, inside, and_self, if_true]
  generalize paged : ({ p with hdr := _ } : InternalPage) = page
  generalize sibled : InternalPage.mk _ _ _ _ _ = sibling
  have pageLive : page.live = l := by
    subst paged
    exact live_eq cut pageCount
  have siblingLive : sibling.live = g := by
    subst sibled
    exact live_eq rfl siblingCount
  refine ⟨_, _, _, rfl, ?_, by rw [pageLive, lowLength], by rw [siblingLive, highLength]; rfl, ?_, ?_, ?_, ?_⟩
  · rw [live, cut, pageLive, siblingLive]
    subst sibled
    rfl
  · subst paged
    exact pageCount.trans lowLength
  · subst sibled
    exact siblingCount.trans highLength
  · subst paged
    rfl
  · subst sibled
    rfl

theorem Full.split {p : InternalPage} (full : p.Full) (a : GlobalAddress) :
    ∃ p' sibling s, p.split a = .ok (p', sibling, s) ∧ Halves p a p' sibling s := by
  obtain ⟨page, sibling, s, result, cut, pageLength, siblingLength, pageCount, siblingCount, pageHdr, siblingHdr⟩ :=
    split_live full.cnt full.range a
  have sorted := full.sorted
  have range := full.range
  rw [cut, List.pairwise_append, List.pairwise_cons] at sorted
  have inside := range ⟨s, sibling.hdr.leftmostPtr⟩ (by rw [cut]; simp)
  have pageFields : page.hdr.level = p.hdr.level ∧ page.hdr.lowest = p.hdr.lowest ∧ page.hdr.highest = s ∧
      page.hdr.siblingPtr = a ∧ page.hdr.leftmostPtr = p.hdr.leftmostPtr := by
    rw [pageHdr]
    exact ⟨rfl, rfl, rfl, rfl, rfl⟩
  have siblingFields : sibling.hdr.level = p.hdr.level ∧ sibling.hdr.lowest = s ∧
      sibling.hdr.highest = p.hdr.highest ∧ sibling.hdr.siblingPtr = p.hdr.siblingPtr := by
    rw [siblingHdr]
    exact ⟨rfl, rfl, rfl, rfl⟩
  obtain ⟨pageLevel, pageLowest, pageHighest, pageSibling, pageLeftmost⟩ := pageFields
  obtain ⟨siblingLevel, siblingLowest, siblingHighest, siblingSibling⟩ := siblingFields
  refine ⟨page, sibling, s, result, inside.1, inside.2, ⟨pageLevel, pageLowest, pageHighest, pageSibling⟩,
    ⟨siblingLevel, siblingLowest, siblingHighest, siblingSibling⟩, ?_, ?_, fun c x => ?_⟩
  · refine ok_of_half (l := page.live) rfl (pageCount.trans pageLength.symm) pageLength (pageLevel ▸ full.level) rfl
      ?_ ?_ sorted.1 fun x hx => ?_
    · exact pageLowest ▸ pageHighest ▸ inside.1
    · exact (pageHighest.le.trans inside.2.le).trans full.highest_le
    · have lower := (range x (by rw [cut]; simp [hx])).1
      exact ⟨pageLowest ▸ lower, pageHighest ▸ sorted.2.2 x hx ⟨s, sibling.hdr.leftmostPtr⟩ (by simp)⟩
  · refine ok_of_half (l := sibling.live) rfl (siblingCount.trans siblingLength.symm) siblingLength
      (siblingLevel ▸ full.level) rfl ?_ ?_ sorted.2.1.2 fun x hx => ?_
    · exact siblingLowest ▸ siblingHighest ▸ inside.2
    · exact siblingHighest.le.trans full.highest_le
    · have upper := (range x (by rw [cut]; simp [hx])).2
      exact ⟨siblingLowest ▸ sorted.2.1.1 x hx, siblingHighest ▸ upper⟩
  · have pageLive : page.setConsistent.live = page.live := rfl
    have siblingLive : sibling.setConsistent.live = sibling.live := rfl
    have pageHeader : page.setConsistent.hdr = page.hdr := rfl
    have siblingHeader : sibling.setConsistent.hdr = sibling.hdr := rfl
    rw [child_iff cut, child_iff pageLive, child_iff siblingLive, pageHeader, siblingHeader, pageLeftmost,
      pageLowest, siblingLowest]
    simp only [List.mem_append, List.mem_cons, InternalEntry.mk.injEq]
    tauto

end InternalPage
end Sherman
