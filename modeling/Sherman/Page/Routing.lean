import Sherman.Page.InternalSpec

namespace Sherman
namespace InternalPage

structure Separated (p : InternalPage) : Prop where
  pos : 0 < p.cnt
  space : p.cnt < kInternalCardinality
  sorted : p.live.Pairwise fun a b => a.key < b.key
  range : ∀ r ∈ p.live, p.hdr.lowest < r.key ∧ r.key < p.hdr.highest

def route (left : GlobalAddress) : List InternalEntry → Key → GlobalAddress
  | [], _ => left
  | r :: rest, k => if k < r.key then left else route r.ptr rest k

variable {left : GlobalAddress} {k x : Key}

theorem route_below {l : List InternalEntry} (above : ∀ r ∈ l, k < r.key) : route left l k = left := by
  cases l with
  | nil => rfl
  | cons r rest => rw [route, if_pos (above r (by simp))]

theorem route_append_below {a b : List InternalEntry} (above : ∀ r ∈ b, k < r.key) :
    route left (a ++ b) k = route left a k := by
  induction a generalizing left with
  | nil => exact route_below above
  | cons r a ih =>
      rw [List.cons_append, route, route]
      split
      · rfl
      · exact ih

theorem route_append_above {a b : List InternalEntry} {r : InternalEntry} (front : ∀ y ∈ a, y.key ≤ k)
    (at_most : r.key ≤ k) : route left (a ++ r :: b) k = route r.ptr b k := by
  induction a generalizing left with
  | nil => rw [List.nil_append, route, if_neg (Nat.not_lt.mpr at_most)]
  | cons y a ih =>
      rw [List.cons_append, route, if_neg (Nat.not_lt.mpr (front y (by simp)))]
      exact ih fun z hz => front z (by simp [hz])

theorem childFrom_eq_route {p : InternalPage} {fuel i : Nat} (bound : i + fuel ≤ p.records.length) :
    p.childFrom k fuel i = route (p.records.getD (i - 1) default).ptr ((p.records.drop i).take fuel) k := by
  induction fuel generalizing i with
  | zero => rfl
  | succ fuel ih =>
      have lt : i < p.records.length := by omega
      have next : p.records.drop i = p.records[i] :: p.records.drop (i + 1) := (List.getElem_cons_drop ..).symm
      have read : p.records.getD i default = p.records[i] := List.getD_eq_getElem _ _ lt
      rw [childFrom, next, List.take_succ_cons, route, read]
      split
      · rfl
      · rw [ih (by omega), Nat.add_sub_cancel, read]

theorem child_eq_route {p : InternalPage} (pos : 0 < p.cnt) (space : p.cnt ≤ kInternalCardinality) :
    p.child k = route p.hdr.leftmostPtr p.live k := by
  have size := p.size
  have lt : 0 < p.records.length := by omega
  obtain ⟨n, count⟩ : ∃ n, p.cnt = n + 1 := ⟨p.cnt - 1, by omega⟩
  have first : p.records = p.records[0] :: p.records.drop 1 := by
    rw [List.getElem_cons_drop lt, List.drop_zero]
  have read : p.records.getD 0 default = p.records[0] := List.getD_eq_getElem _ _ lt
  have live : p.live = p.records[0] :: (p.records.drop 1).take n := by
    rw [InternalPage.live, count]
    conv_lhs => rw [first]
    rfl
  rw [child, read, live, route]
  split
  · rfl
  · rw [childFrom_eq_route (by omega), count, Nat.add_sub_cancel, Nat.sub_self, read]

/-! ## Storing -/

/-- The routing function with the keys from `k` to the next separator sent to `v`. -/
def rerouted (p : InternalPage) (k : Key) (v : GlobalAddress) (x : Key) : GlobalAddress :=
  if k ≤ x ∧ ∀ r ∈ p.live, k < r.key → x < r.key then v else p.child x

theorem Separated.rerouted_eq {p : InternalPage} (ok : p.Separated) {v : GlobalAddress} {a b : List InternalEntry}
    (cut : p.live = a ++ b ∨ ∃ r, p.live = a ++ r :: b ∧ r.key = k) (below : ∀ r ∈ a, r.key < k)
    (above : ∀ r ∈ b, k < r.key) (x : Key) :
    route p.hdr.leftmostPtr (a ++ ⟨k, v⟩ :: b) x = p.rerouted k v x := by
  have sorted := ok.sorted
  rw [rerouted, child_eq_route ok.pos ok.space.le]
  -- the separators above `k` are those of `b`
  have next : (∀ r ∈ p.live, k < r.key → x < r.key) ↔ ∀ r ∈ b, x < r.key := by
    constructor
    · intro free r hr
      refine free r ?_ (above r hr)
      rcases cut with cut | ⟨y, cut, -⟩ <;> rw [cut] <;> simp [hr]
    · intro free r hr greater
      rcases cut with cut | ⟨y, cut, key⟩
      · rw [cut, List.mem_append] at hr
        rcases hr with hr | hr
        · exact absurd (below r hr) greater.asymm
        · exact free r hr
      · rw [cut, List.mem_append, List.mem_cons] at hr
        rcases hr with hr | rfl | hr
        · exact absurd (below r hr) greater.asymm
        · exact absurd key greater.ne'
        · exact free r hr
  by_cases less : x < k
  · have greater : ∀ r ∈ (⟨k, v⟩ : InternalEntry) :: b, x < r.key := by
      intro r hr
      rcases List.mem_cons.mp hr with rfl | hr
      · exact less
      · exact less.trans (above r hr)
    rw [if_neg (fun h => absurd h.1 (Nat.not_le.mpr less)), route_append_below greater]
    rcases cut with cut | ⟨y, cut, key⟩
    · rw [cut, route_append_below fun r hr => less.trans (above r hr)]
    · rw [cut, route_append_below]
      intro r hr
      rcases List.mem_cons.mp hr with rfl | hr
      · exact key ▸ less
      · exact less.trans (above r hr)
  · have le := Nat.not_lt.mp less
    have front : ∀ r ∈ a, r.key ≤ x := fun r hr => (below r hr).le.trans le
    rw [route_append_above (r := ⟨k, v⟩) front le]
    by_cases free : ∀ r ∈ b, x < r.key
    · rw [if_pos ⟨le, next.mpr free⟩, route_below free]
    · rw [if_neg fun h => free (next.mp h.2)]
      cases b with
      | nil => exact absurd (by simp) free
      | cons r b =>
          -- the first separator above `k` is not above the key
          have first : r.key ≤ x := by
            by_contra greater
            refine free fun y hy => ?_
            rcases List.mem_cons.mp hy with rfl | hy
            · exact Nat.not_le.mp greater
            · have increasing : (r :: b).Pairwise fun y z => y.key < z.key := by
                rcases cut with cut | ⟨z, cut, -⟩
                · exact (List.pairwise_append.mp (cut ▸ sorted)).2.1
                · exact (List.pairwise_cons.mp (List.pairwise_append.mp (cut ▸ sorted)).2.1).2
              exact (Nat.not_le.mp greater).trans ((List.pairwise_cons.mp increasing).1 y hy)
          rw [route, if_neg (Nat.not_lt.mpr first)]
          rcases cut with cut | ⟨y, cut, key⟩
          · rw [cut, route_append_above front first]
          · have split : a ++ y :: r :: b = (a ++ [y]) ++ r :: b := by simp
            rw [cut, split, route_append_above _ first]
            intro z hz
            rcases List.mem_append.mp hz with hz | hz
            · exact front z hz
            · rw [List.mem_singleton.mp hz, key]
              exact le

structure Kept (p : InternalPage) (k : Key) (v : GlobalAddress) (p' : InternalPage) : Prop where
  separated : p'.Separated
  fences : p'.hdr.lowest = p.hdr.lowest ∧ p'.hdr.highest = p.hdr.highest
  links : p'.hdr.leftmostPtr = p.hdr.leftmostPtr ∧ p'.hdr.siblingPtr = p.hdr.siblingPtr
  routes : ∀ x, p.hdr.lowest ≤ x → x < p.hdr.highest → p'.search x = .ok (p.rerouted k v x)

structure Parted (p : InternalPage) (k : Key) (v a : GlobalAddress) (l : List InternalEntry)
    (page sibling : InternalPage) (s : Key) : Prop where
  separated : page.Separated ∧ sibling.Separated
  inside : p.hdr.lowest < s ∧ s < p.hdr.highest
  fences : page.hdr.lowest = p.hdr.lowest ∧ page.hdr.highest = s ∧
    sibling.hdr.lowest = s ∧ sibling.hdr.highest = p.hdr.highest
  links : page.hdr.leftmostPtr = p.hdr.leftmostPtr ∧ page.hdr.siblingPtr = a ∧
    sibling.hdr.siblingPtr = p.hdr.siblingPtr
  records : l = page.live ++ ⟨s, sibling.hdr.leftmostPtr⟩ :: sibling.live
  routes : ∀ x, p.hdr.lowest ≤ x → x < p.hdr.highest →
    (if x < s then page.search x else sibling.search x) = .ok (p.rerouted k v x)

/-- `internal_page_store` puts the separator between those below and those above it, in the place of an equal
one. The page, or the page and its sibling joined at the split key, then routes as before, but for the
keys from the separator to the next one. -/
theorem internal_page_store_routes (p : InternalPage) (ok : p.Separated) (k : Key) (v : GlobalAddress)
    (low : p.hdr.lowest < k) (high : k < p.hdr.highest) :
    ∃ p', p.store k v = .ok p' ∧
      p'.live = p.live.filter (·.key < k) ++ ⟨k, v⟩ :: p.live.filter (k < ·.key) ∧
      (p'.cnt ≠ kInternalCardinality → Kept p k v p') ∧
      (p'.cnt = kInternalCardinality → ∀ a, ∃ page sibling s, p'.split a = .ok (page, sibling, s) ∧
        Parted p k v a p'.live page sibling s) := by
  have length := length_live ok.space.le
  have space := ok.space
  obtain ⟨p', a, b, result, cut, below, above, live, count, hdr, -⟩ := store_live ok.pos ok.space ok.sorted k v
  have increasing := increasing_of_cut (v := v) ok.sorted cut below above
  rw [← live] at increasing
  have fields : p'.hdr.lowest = p.hdr.lowest ∧ p'.hdr.highest = p.hdr.highest ∧
      p'.hdr.leftmostPtr = p.hdr.leftmostPtr ∧ p'.hdr.siblingPtr = p.hdr.siblingPtr := by
    rw [hdr]
    exact ⟨rfl, rfl, rfl, rfl⟩
  obtain ⟨lowest, highest, leftmost, sibling⟩ := fields
  have size : p'.cnt ≤ kInternalCardinality := by
    rw [count, List.length_append, List.length_cons]
    rcases cut with cut | ⟨r, cut, -⟩
    · rw [cut, List.length_append] at length
      omega
    · rw [cut, List.length_append, List.length_cons] at length
      omega
  have pos : 0 < p'.cnt := by
    rw [count, List.length_append, List.length_cons]
    omega
  have range : ∀ r ∈ p'.live, p'.hdr.lowest < r.key ∧ r.key < p'.hdr.highest := by
    intro r hr
    rw [lowest, highest]
    rw [live, List.mem_append, List.mem_cons] at hr
    rcases hr with hr | rfl | hr
    · refine ok.range r ?_
      rcases cut with cut | ⟨y, cut, -⟩ <;> rw [cut] <;> simp [hr]
    · exact ⟨low, high⟩
    · refine ok.range r ?_
      rcases cut with cut | ⟨y, cut, -⟩ <;> rw [cut] <;> simp [hr]
  have routes : ∀ x, route p'.hdr.leftmostPtr p'.live x = p.rerouted k v x := by
    intro x
    rw [leftmost, live]
    exact ok.rerouted_eq cut below above x
  refine ⟨p', result, ?_, fun notFull => ?_, fun full addr => ?_⟩
  · have low : a.filter (·.key < k) = a := List.filter_eq_self.mpr fun r hr => by simpa using below r hr
    have high : b.filter (k < ·.key) = b := List.filter_eq_self.mpr fun r hr => by simpa using above r hr
    have low' : b.filter (·.key < k) = [] :=
      List.filter_eq_nil_iff.mpr fun r hr => by simpa using (above r hr).le
    have high' : a.filter (k < ·.key) = [] :=
      List.filter_eq_nil_iff.mpr fun r hr => by simpa using (below r hr).le
    rw [live]
    rcases cut with cut | ⟨r, cut, key⟩
    · rw [cut, List.filter_append, List.filter_append, low, low', high, high', List.append_nil, List.nil_append]
    · simp only [cut, List.filter_append, List.filter_cons, low, low', high, high', key, lt_irrefl, decide_false,
        Bool.false_eq_true, if_false, List.append_nil, List.nil_append]
  · refine ⟨⟨pos, lt_of_le_of_ne size notFull, increasing, range⟩, ⟨lowest, highest⟩, ⟨leftmost, sibling⟩,
      fun x lower upper => ?_⟩
    rw [search_ok (lowest ▸ lower) (highest ▸ upper), child_eq_route pos size, routes]
  · obtain ⟨page, sib, s, split, parts, pageLength, sibLength, pageCount, sibCount, pageHdr, sibHdr⟩ :=
      split_live full range addr
    have sorted := increasing
    rw [parts, List.pairwise_append, List.pairwise_cons] at sorted
    have inside := range ⟨s, sib.hdr.leftmostPtr⟩ (by rw [parts]; simp)
    rw [lowest, highest] at inside
    have pageFields : page.hdr.lowest = p.hdr.lowest ∧ page.hdr.highest = s ∧
        page.hdr.leftmostPtr = p'.hdr.leftmostPtr ∧ page.hdr.siblingPtr = addr := by
      rw [pageHdr]
      exact ⟨lowest, rfl, rfl, rfl⟩
    have sibFields : sib.hdr.lowest = s ∧ sib.hdr.highest = p.hdr.highest ∧
        sib.hdr.siblingPtr = p.hdr.siblingPtr := by
      rw [sibHdr]
      exact ⟨rfl, highest, sibling⟩
    obtain ⟨pageLowest, pageHighest, pageLeftmost, pageSibling⟩ := pageFields
    obtain ⟨sibLowest, sibHighest, sibSibling⟩ := sibFields
    have atMost : (30 : Nat) ≤ kInternalCardinality := by decide
    have lower : ∀ r ∈ page.live, r.key < s := fun r hr => sorted.2.2 r hr ⟨s, sib.hdr.leftmostPtr⟩ (by simp)
    have upper : ∀ r ∈ sib.live, s < r.key := sorted.2.1.1
    refine ⟨page, sib, s, split, ⟨⟨?_, ?_⟩, inside, ⟨pageLowest, pageHighest, sibLowest, sibHighest⟩,
      ⟨pageLeftmost.trans leftmost, pageSibling, sibSibling⟩, parts, fun x low' high' => ?_⟩⟩
    · refine ⟨by rw [pageCount]; decide, by rw [pageCount]; decide, sorted.1, fun r hr => ?_⟩
      have := range r (by rw [parts]; simp [hr])
      exact ⟨pageLowest ▸ lowest ▸ this.1, pageHighest ▸ lower r hr⟩
    · refine ⟨by rw [sibCount]; decide, by rw [sibCount]; decide, sorted.2.1.2, fun r hr => ?_⟩
      have := range r (by rw [parts]; simp [hr])
      exact ⟨sibLowest ▸ upper r hr, sibHighest ▸ highest ▸ this.2⟩
    · rw [← routes, parts]
      split
      · rename_i less
        have greater : ∀ r ∈ (⟨s, sib.hdr.leftmostPtr⟩ : InternalEntry) :: sib.live, x < r.key := by
          intro r hr
          rcases List.mem_cons.mp hr with rfl | hr
          · exact less
          · exact less.trans (upper r hr)
        rw [search_ok (pageLowest ▸ low') (pageHighest ▸ less),
          child_eq_route (by rw [pageCount]; decide) (pageCount ▸ atMost), pageLeftmost, route_append_below greater]
      · rename_i less
        have le := Nat.not_lt.mp less
        rw [search_ok (sibLowest ▸ le) (sibHighest ▸ high'),
          child_eq_route (by rw [sibCount]; decide) (sibCount ▸ atMost),
          route_append_above (r := ⟨s, sib.hdr.leftmostPtr⟩) (fun r hr => (lower r hr).le.trans le) le]

theorem internal_page_store_routes_root :
    ∃ p', (newRoot ⟨0, 1024⟩ 100 ⟨0, 2048⟩ 1).store 50 ⟨0, 3072⟩ = .ok p' ∧ p'.search 70 = .ok ⟨0, 3072⟩ := by
  have ok : (newRoot ⟨0, 1024⟩ 100 ⟨0, 2048⟩ 1).Separated := ⟨by decide, by decide, by decide, by decide⟩
  obtain ⟨p', result, -, kept, -⟩ :=
    internal_page_store_routes _ ok 50 ⟨0, 3072⟩ (by decide) (by decide)
  have two : p'.cnt = 2 := by
    have : (newRoot ⟨0, 1024⟩ 100 ⟨0, 2048⟩ 1).store 50 ⟨0, 3072⟩ = .ok _ := rfl
    rw [this, Except.ok.injEq] at result
    rw [← result]
    rfl
  refine ⟨p', result, ((kept (by rw [two]; decide)).routes 70 (by decide) (by decide)).trans ?_⟩
  rfl

end InternalPage
end Sherman
