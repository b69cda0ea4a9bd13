import Sherman.Tree.CacheRules

namespace Sherman

open Shared Concurrency

structure Piece where
  lowest : Key
  highest : Key
  keys : List Key
  deriving DecidableEq, Repr

def Piece.Contains (s : Piece) (k : Key) : Prop := s.lowest ≤ k ∧ k < s.highest

instance (s : Piece) (k : Key) : Decidable (s.Contains k) := inferInstanceAs (Decidable (_ ∧ _))

def Piece.store (s : Piece) (k : Key) : List Piece :=
  let keys := s.keys.filter (· < k) ++ k :: s.keys.filter (k < ·)
  let m := kInternalCardinality / 2
  let middle := keys.getD m 0
  if keys.length = kInternalCardinality then
    [⟨s.lowest, middle, keys.take m⟩, ⟨middle, s.highest, keys.drop (m + 1)⟩]
  else [⟨s.lowest, s.highest, keys⟩]

def Piece.install (s : Piece) : Option Key → List Piece
  | none => [s]
  | some k => if s.Contains k then s.store k else [s]

theorem Piece.covers_store {s : Piece} {k x : Key} (inside : s.Contains x) : ∃ r ∈ s.store k, r.Contains x := by
  unfold Piece.store
  dsimp only
  split
  · rcases Nat.lt_or_ge x ((s.keys.filter (· < k) ++ k :: s.keys.filter (k < ·)).getD (kInternalCardinality / 2) 0)
      with left | right
    · exact ⟨_, List.mem_cons_self, inside.1, left⟩
    · exact ⟨_, List.mem_cons_of_mem _ List.mem_cons_self, right, inside.2⟩
  · exact ⟨_, List.mem_cons_self, inside⟩

theorem Piece.covers {s : Piece} {x : Key} (inside : s.Contains x) (sep : Option Key) :
    ∃ r ∈ s.install sep, r.Contains x := by
  cases sep with
  | none => exact ⟨s, List.mem_cons_self, inside⟩
  | some k =>
      unfold Piece.install
      dsimp only
      split
      · exact Piece.covers_store inside
      · exact ⟨s, List.mem_cons_self, inside⟩

/-! ## Pages -/

namespace InternalPage

def piece (p : InternalPage) : Piece := ⟨p.hdr.lowest, p.hdr.highest, p.live.map (·.key)⟩

@[simp] theorem piece_setConsistent (p : InternalPage) : p.setConsistent.piece = p.piece := rfl

theorem Ok.keys_store {p p' : InternalPage} (ok : p.Ok) {k : Key} {v : GlobalAddress} (store : p.store k v = .ok p') :
    p'.live.map (·.key) =
      (p.live.map (·.key)).filter (· < k) ++ k :: (p.live.map (·.key)).filter (k < ·) := by
  obtain ⟨page, a, b, result, cut, below, above, live, -⟩ := store_live ok.pos ok.space ok.sorted k v
  obtain rfl : page = p' := Except.ok.inj (result.symm.trans store)
  have lower : ∀ x ∈ a.map (·.key), x < k := by
    intro x hx
    obtain ⟨r, hr, rfl⟩ := List.mem_map.mp hx
    exact below r hr
  have upper : ∀ x ∈ b.map (·.key), k < x := by
    intro x hx
    obtain ⟨r, hr, rfl⟩ := List.mem_map.mp hx
    exact above r hr
  have first : (a.map (·.key)).filter (· < k) = a.map (·.key) :=
    List.filter_eq_self.mpr fun x hx => decide_eq_true (lower x hx)
  have noneAbove : (a.map (·.key)).filter (k < ·) = [] :=
    List.filter_eq_nil_iff.mpr fun x hx => by simpa using (lower x hx).le
  have second : (b.map (·.key)).filter (k < ·) = b.map (·.key) :=
    List.filter_eq_self.mpr fun x hx => decide_eq_true (upper x hx)
  have noneBelow : (b.map (·.key)).filter (· < k) = [] :=
    List.filter_eq_nil_iff.mpr fun x hx => by simpa using (upper x hx).le
  rcases cut with cut | ⟨r, cut, rfl⟩
  · simp only [live, cut, List.map_append, List.map_cons, List.filter_append, first, second, noneAbove, noneBelow,
      List.append_nil, List.nil_append]
  · simp only [live, cut, List.map_append, List.map_cons, List.filter_append, List.filter_cons, lt_irrefl, decide_false,
      Bool.false_eq_true, if_false, first, second, noneAbove, noneBelow, List.append_nil, List.nil_append]

theorem Ok.piece_store {p p' : InternalPage} (ok : p.Ok) {k : Key} {v : GlobalAddress} (store : p.store k v = .ok p')
    (stored : p.Stored k v p') (notFull : p'.cnt ≠ kInternalCardinality) : p.piece.store k = [p'.piece] := by
  have length : (p'.live.map (·.key)).length = p'.cnt := by rw [List.length_map, length_live stored.cnt]
  unfold Piece.store piece
  dsimp only
  rw [← ok.keys_store store, length, if_neg notFull, stored.lowest, stored.highest]

theorem Ok.pieces_split {p p' q sib : InternalPage} (ok : p.Ok) {k splitKey : Key} {v b : GlobalAddress}
    (store : p.store k v = .ok p') (stored : p.Stored k v p') (full : p'.cnt = kInternalCardinality)
    (split : p'.split b = .ok (q, sib, splitKey)) : p.piece.store k = [q.piece, sib.piece] := by
  have length : (p'.live.map (·.key)).length = p'.cnt := by rw [List.length_map, length_live stored.cnt]
  obtain ⟨page, sibling, middle, result, cut, pageLength, -, -, -, pageHdr, siblingHdr⟩ :=
    split_live full (stored.full full).range b
  obtain ⟨rfl, rfl, rfl⟩ : page = q ∧ sibling = sib ∧ middle = splitKey := by
    have same := Except.ok.inj (result.symm.trans split)
    simpa only [Prod.mk.injEq] using same
  have keys : p'.live.map (·.key) = page.live.map (·.key) ++ middle :: sibling.live.map (·.key) := by
    rw [cut, List.map_append, List.map_cons]
  have half : (page.live.map (·.key)).length = kInternalCardinality / 2 := by rw [List.length_map, pageLength]; rfl
  unfold Piece.store piece
  dsimp only
  rw [← ok.keys_store store, length, if_pos full, keys, ← half]
  have pageFences : page.hdr.lowest = p.hdr.lowest ∧ page.hdr.highest = middle := by
    rw [pageHdr]
    exact ⟨stored.lowest, rfl⟩
  have siblingFences : sibling.hdr.lowest = middle ∧ sibling.hdr.highest = p.hdr.highest := by
    rw [siblingHdr]
    exact ⟨rfl, stored.highest⟩
  rw [pageFences.1, pageFences.2, siblingFences.1, siblingFences.2]
  generalize page.live.map (·.key) = left
  simp

end InternalPage

/-! ## The level -/

/-- The level-1 page with range and separators `r` is on the sibling chain. -/
def LevelOne (s : Shared) (r : Piece) : Prop :=
  ∃ a p, OnLevel s a ∧ s.view a = some (.internal p) ∧ p.hdr.level = 1 ∧ p.piece = r

def Layer (w : World) (r : Piece) : Prop :=
  ∃ a p, w.2.Linked a 1 p.hdr.lowest ∧ w.1.view a = some (.internal p) ∧ p.piece = r

theorem TreeInv.levelOne_iff {w : World} (inv : TreeInv w.1 w.2) {r : Piece} : LevelOne w.1 r ↔ Layer w r := by
  constructor
  · rintro ⟨a, p, on, view, level, rfl⟩
    obtain ⟨l, x, linked⟩ := inv.onLevel_linked on
    exact ⟨a, p, ⟨level ▸ (inv.view_sound a _ view).info, linked.2⟩, view, rfl⟩
  · rintro ⟨a, p, linked, view, rfl⟩
    refine ⟨a, p, inv.onLevel linked, view, ?_, rfl⟩
    have info := (inv.view_sound a _ view).info.symm.trans linked.1
    simp only [Option.some.injEq, Prod.mk.injEq] at info
    exact info.1

/-- From `w` to `w'` the level-1 pages have got the separator `sep`, each in its own range. -/
def Installs (sep : Option Key) (w w' : World) : Prop :=
  ∀ s, Layer w s → ∀ r ∈ s.install sep, Layer w' r

variable {w w' w'' : World} {sep : Option Key}

theorem installs_of_view (linked : ∀ a l x, w.2.Linked a l x → w'.2.Linked a l x)
    (view : ∀ a x, w.2.Linked a 1 x → w'.1.view a = w.1.view a) : Installs none w w' := by
  rintro s ⟨a, p, linkedA, viewA, rfl⟩ r hr
  obtain rfl := List.mem_singleton.mp hr
  exact ⟨a, p, linked _ _ _ linkedA, (view a _ linkedA).trans viewA, rfl⟩

theorem SameInner.installs (h : SameInner w w') : Installs none w w' :=
  installs_of_view h.linked fun a x => h.view a 0 x

theorem Installs.trans (h : Installs none w w') (h' : Installs sep w' w'') : Installs sep w w'' := by
  intro s hs r hr
  exact h' s (h s hs s List.mem_cons_self) r hr

theorem Installs.keep (h : Installs sep w w') (h' : Installs none w' w'') : Installs sep w w'' := by
  intro s hs r hr
  exact h' r (h s hs r hr) r List.mem_cons_self

theorem Installs.le {u u' : World} (inv : TreeInv w.1 w.2) (invU : TreeInv u.1 u.2) (high : ∃ a, w.2.Linked a 1 kKeyMin)
    (h : Installs sep w u) (h' : Installs sep w u') {r : Piece} (hr : Layer u r) : Layer u' r := by
  obtain ⟨a, p, linked, view, rfl⟩ := hr
  obtain ⟨b, bottom⟩ := high
  have ok : p.Ok := (invU.view_sound a _ view).ok
  obtain ⟨c, page, viewC, linkedC, level, low, highC⟩ := inv.exists_page bottom (Nat.zero_le _) (invU.start_lt linked)
  obtain ⟨q, viewQ, -, -⟩ := inv.linked_internal linkedC
  obtain rfl : page = .internal q := Option.some.inj (viewC.symm.trans viewQ)
  obtain ⟨r, hr, inside⟩ := Piece.covers (s := q.piece) ⟨low, highC⟩ sep
  obtain ⟨d, p', linkedD, viewD, rfl⟩ := h q.piece ⟨c, q, linkedC, viewQ, rfl⟩ r hr
  have levels : p'.hdr.level = p.hdr.level := by
    have info := (invU.view_sound a _ view).info.symm.trans linked.1
    have infoD := (invU.view_sound d _ viewD).info.symm.trans linkedD.1
    simp only [Option.some.injEq, Prod.mk.injEq] at info infoD
    exact infoD.1.trans info.1.symm
  obtain rfl := invU.page_unique viewD linkedD.2 view linked.2 levels inside.1 inside.2 le_rfl ok.fence
  rw [view, Option.some.injEq, Page.internal.injEq] at viewD
  subst viewD
  exact h' q.piece ⟨c, q, linkedC, viewQ, rfl⟩ _ hr

theorem installs_of_store {a : GlobalAddress} {p : InternalPage} {k : Key} (inv : TreeInv w.1 w.2)
    (linked : w.2.Linked a 1 p.hdr.lowest) (view : w.1.view a = some (.internal p)) (low : p.hdr.lowest ≤ k)
    (high : k < p.hdr.highest) (mono : ∀ a l x, w.2.Linked a l x → w'.2.Linked a l x)
    (others : ∀ b x, w.2.Linked b 1 x → b ≠ a → w'.1.view b = w.1.view b)
    (pieces : ∀ r ∈ p.piece.store k, Layer w' r) : Installs (some k) w w' := by
  rintro s ⟨b, q, linkedB, viewB, rfl⟩ r hr
  unfold Piece.install at hr
  dsimp only at hr
  have levels : q.hdr.level = p.hdr.level := by
    have info := (inv.view_sound a _ view).info.symm.trans linked.1
    have infoB := (inv.view_sound b _ viewB).info.symm.trans linkedB.1
    simp only [Option.some.injEq, Prod.mk.injEq] at info infoB
    exact infoB.1.trans info.1.symm
  split at hr
  · rename_i inside
    obtain rfl := inv.page_unique viewB linkedB.2 view linked.2 levels inside.1 inside.2 low high
    rw [view, Option.some.injEq, Page.internal.injEq] at viewB
    subst viewB
    exact pieces r hr
  · rename_i outside
    obtain rfl := List.mem_singleton.mp hr
    have other : b ≠ a := by
      rintro rfl
      rw [view, Option.some.injEq, Page.internal.injEq] at viewB
      subst viewB
      exact outside ⟨low, high⟩
    exact ⟨b, q, mono _ _ _ linkedB, (others b _ linkedB other).trans viewB, rfl⟩

end Sherman
