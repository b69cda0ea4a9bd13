import Sherman.Tree.RangeQuery
import Sherman.Cache.Disjoint

namespace Sherman

open Shared Concurrency

def Parented (w : World) (y : Key) : Prop :=
  ∃ a q, w.2.owner a = none ∧ w.1.view a = some (.internal q) ∧ q.hdr.level = 2 ∧ ∃ b, q.Child b y

/-- Every level-1 page has its separator in a level-2 page, but for the first one and the one that starts
at `k`. -/
def CompleteBut (k : Key) (w : World) : Prop :=
  ∀ b y, w.2.Linked b 1 y → y ≠ kKeyMin → y ≠ k → Parented w y

abbrev Complete (w : World) : Prop := CompleteBut kKeyMin w

namespace TreeInv
variable {s s' : Shared} {g g' : Ghost} {a b c : GlobalAddress} {l : Nat} {x y k : Key}

/-- From a page of a level on, its pages leave no gap. -/
theorem exists_page (inv : TreeInv s g) (linked : g.Linked a l x) (le : x ≤ k) (bound : k < kKeyMax) :
    ∃ c page, s.view c = some page ∧ g.Linked c l page.hdr.lowest ∧ page.hdr.level = l ∧
      page.hdr.lowest ≤ k ∧ k < page.hdr.highest := by
  induction distance : k - x using Nat.strong_induction_on generalizing a x with
  | h n ih =>
      subst distance
      obtain ⟨page, view, rfl, rfl⟩ := inv.linked_view linked
      by_cases inside : k < page.hdr.highest
      · exact ⟨a, page, view, linked, rfl, le, inside⟩
      · have past := Nat.not_lt.mp inside
        have sound := inv.view_sound a page view
        have fence := sound.ok.fence
        rcases sound.points.sibling with ⟨end_, -⟩ | ⟨-, sibling⟩
        · exact absurd bound (not_lt.mpr (end_ ▸ past))
        · exact ih _ (Nat.sub_lt_sub_left (fence.trans_le past) fence) sibling past rfl

theorem linked_back (inv : TreeInv s g) (inv' : TreeInv s' g')
    (mono : ∀ a l x, g.Linked a l x → g'.Linked a l x) (bottom : g.Linked c l kKeyMin)
    (view : ∀ b y, g.Linked b l y → b ≠ a → s'.view b = s.view b) (new : g'.Linked b l y) :
    g.Linked b l y ∨ ∃ page, g.Linked a l page.hdr.lowest ∧ s.view a = some page ∧ page.hdr.lowest < y ∧
      y < page.hdr.highest := by
  obtain ⟨d, page, viewD, linkedD, level, low, high⟩ :=
    inv.exists_page bottom (Nat.zero_le y) (inv'.start_lt new)
  by_cases start : y = page.hdr.lowest
  · subst start
    exact .inl (inv'.unique b d l _ new (mono _ _ _ linkedD) ▸ linkedD)
  · by_cases same : d = a
    · subst same
      exact .inr ⟨page, linkedD, viewD, lt_of_le_of_ne low (Ne.symm start), high⟩
    · have kept := (view d _ linkedD same).trans viewD
      rcases inv'.disjoint d page kept (mono _ _ _ linkedD).2 b y (level ▸ new) with below | above
      · exact absurd (le_antisymm below low) start
      · exact absurd high (not_lt.mpr above)

end TreeInv

/-! ## Steps above the leaves -/

section Steps
variable {w w' : World} {a n : GlobalAddress} {p : InternalPage} {k k' : Key} {l : Nat} {x y : Key}

structure SameInner (w w' : World) : Prop where
  rootPtr : w'.1.rootPtr = w.1.rootPtr
  linked : ∀ a l x, w.2.Linked a l x → w'.2.Linked a l x
  view : ∀ a l x, w.2.Linked a (l + 1) x → w'.1.view a = w.1.view a

theorem SameInner.refl (w : World) : SameInner w w := ⟨rfl, fun _ _ _ h => h, fun _ _ _ _ => rfl⟩

theorem SameInner.trans {w'' : World} (h : SameInner w w') (h' : SameInner w' w'') : SameInner w w'' :=
  ⟨h'.rootPtr.trans h.rootPtr, fun a l x linked => h'.linked a l x (h.linked a l x linked),
    fun a l x linked => (h'.view a l x (h.linked a _ x linked)).trans (h.view a l x linked)⟩

theorem bottom_of_root (inv : TreeInv w.1 w.2) (inv' : TreeInv w'.1 w'.2)
    (mono : ∀ a l x, w.2.Linked a l x → w'.2.Linked a l x) (root : w'.1.rootPtr = w.1.rootPtr)
    (new : w'.2.Linked a l x) : ∃ c, w.2.Linked c l kKeyMin := by
  obtain ⟨top, linked, -⟩ := inv.root
  obtain ⟨top', linked', below⟩ := inv'.root
  have same := (mono _ _ _ linked).level_eq (root ▸ linked')
  exact inv.start_at linked (same.1 ▸ below a l x new)

theorem SameInner.back (h : SameInner w w') (inv : TreeInv w.1 w.2) (inv' : TreeInv w'.1 w'.2)
    (new : w'.2.Linked a (l + 1) x) : w.2.Linked a (l + 1) x := by
  obtain ⟨c, bottom⟩ := bottom_of_root inv inv' h.linked h.rootPtr new
  rcases inv.linked_back (a := .null) inv' h.linked bottom (fun b y linked _ => h.view b l y linked) new with
    old | ⟨page, linked, -⟩
  · exact old
  · exact absurd rfl (inv.ne_null linked)

theorem Parented.linked (h : Parented w y) (inv : TreeInv w.1 w.2) :
    ∃ a q, w.2.Linked a 2 q.hdr.lowest ∧ w.1.view a = some (.internal q) ∧ ∃ b, q.Child b y := by
  obtain ⟨a, q, owner, view, level, child⟩ := h
  exact ⟨a, q, ⟨level ▸ (inv.view_sound a _ view).info, owner⟩, view, child⟩

theorem parented_of_linked (inv : TreeInv w.1 w.2) {q : InternalPage} {b : GlobalAddress} (linked : w.2.Linked a 2 x)
    (view : w.1.view a = some (.internal q)) (child : q.Child b y) : Parented w y := by
  have info := (inv.view_sound a _ view).info.symm.trans linked.1
  simp only [Option.some.injEq, Prod.mk.injEq] at info
  exact ⟨a, q, linked.2, view, info.1, b, child⟩

theorem CompleteBut.same (complete : CompleteBut k w) (h : SameInner w w') (inv : TreeInv w.1 w.2)
    (inv' : TreeInv w'.1 w'.2) : CompleteBut k w' := by
  intro b y new start other
  obtain ⟨a, q, linked, view, c, child⟩ := (complete b y (h.back inv inv' new) start other).linked inv
  exact parented_of_linked inv' (h.linked _ _ _ linked) ((h.view a 1 _ linked).trans view) child

theorem CompleteBut.write (complete : CompleteBut k w) (inv : TreeInv w.1 w.2) (inv' : TreeInv w'.1 w'.2)
    (mono : ∀ a l x, w.2.Linked a l x → w'.2.Linked a l x) (root : w'.1.rootPtr = w.1.rootPtr)
    (others : ∀ b l x, w.2.Linked b (l + 1) x → b ≠ a → w'.1.view b = w.1.view b)
    (old : w.1.view a = some (.internal p)) (inside : p.hdr.level = 1 → ∀ b y, w'.2.Linked b 1 y → p.hdr.lowest < y →
      y < p.hdr.highest → y = k')
    (kept : p.hdr.level = 2 → ∀ b y, p.Child b y → Parented w' y)
    (added : k ≠ kKeyMin → k ≠ k' → Parented w' k) : CompleteBut k' w' := by
  intro b y new start other
  obtain ⟨c, bottom⟩ := bottom_of_root inv inv' mono root new
  rcases inv.linked_back inv' mono bottom (fun b y linked => others b 0 y linked) new with
    linked | ⟨page, linked, view, low, high⟩
  · by_cases same : y = k
    · subst same
      exact added start other
    · obtain ⟨d, q, linkedD, viewD, c, child⟩ := (complete b y linked start same).linked inv
      by_cases here : d = a
      · subst here
        rw [old, Option.some.injEq, Page.internal.injEq] at viewD
        subst viewD
        refine kept ?_ c y child
        have info := (inv.view_sound d _ old).info.symm.trans linkedD.1
        simp only [Option.some.injEq, Prod.mk.injEq] at info
        exact info.1
      · exact parented_of_linked inv' (mono _ _ _ linkedD) ((others d 1 _ linkedD here).trans viewD) child
  · rw [old, Option.some.injEq] at view
    subst view
    have info := (inv.view_sound a _ old).info.symm.trans linked.1
    simp only [Option.some.injEq, Prod.mk.injEq] at info
    exact absurd (inside info.1 b y new low high) other

theorem CompleteBut.newRoot (complete : CompleteBut k w) (inv : TreeInv w.1 w.2) (inv' : TreeInv w'.1 w'.2)
    (mono : ∀ a l x, w.2.Linked a l x → w'.2.Linked a l x) (view : w'.1.view = w.1.view)
    {left right : GlobalAddress} (linked : w.2.Linked left l kKeyMin) (swapped : w'.1.rootPtr = n)
    (page : w'.1.view n = some (.internal (InternalPage.newRoot left y right (l + 1)).setConsistent))
    (missing : k = if l = 1 then y else kKeyMin) : Complete w' := by
  have sound := inv'.view_sound n _ page
  obtain ⟨top, linkedN, -⟩ := inv'.root
  rw [swapped] at linkedN
  have info := sound.info.symm.trans linkedN.1
  simp only [Option.some.injEq, Prod.mk.injEq] at info
  obtain ⟨rfl, -⟩ := info
  intro b z new start other
  rcases Nat.eq_zero_or_pos l with rfl | pos
  · -- the only page of level 1 is the new root
    rcases inv'.disjoint n _ page linkedN.2 b z new with below | above
    · exact absurd (Nat.le_zero.mp below) start
    · exact absurd (inv'.start_lt new) (not_lt.mpr above)
  · obtain ⟨c, bottom⟩ := inv.start_at linked (show 1 ≤ l from pos)
    have old : w.2.Linked b 1 z := by
      rcases inv.linked_back (a := .null) inv' mono bottom (fun b y _ _ => by rw [view]) new with
      old | ⟨q, null, -⟩
      · exact old
      · exact absurd rfl (inv.ne_null null)
    by_cases same : z = k
    · subst same
      split at missing
      · rename_i one
        subst one missing
        exact parented_of_linked inv' linkedN page (.inr ⟨⟨z, right⟩, List.mem_singleton.mpr rfl, rfl, rfl⟩)
      · exact absurd missing start
    · obtain ⟨d, q, linkedD, viewD, c, child⟩ := (complete b z old start same).linked inv
      exact parented_of_linked inv' (mono _ _ _ linkedD) (by rw [view, viewD]) child

/-! ## Descents -/

/-- A level-2 page routes a key to the level-1 page that contains it. -/
theorem Complete.routes (complete : Complete w) (inv : TreeInv w.1 w.2) {q : InternalPage}
    (owner : w.2.owner a = none) (view : w.1.view a = some (.internal q)) (level : q.hdr.level = 2)
    (low : q.hdr.lowest ≤ k) (high : k < q.hdr.highest) :
    ∃ page, w.1.view (q.child k) = some page ∧ k < page.hdr.highest := by
  have sound := inv.view_sound a _ view
  have ok : q.Ok := sound.ok
  have childOf : ∀ c x, q.Child c x → w.2.Linked c 1 x := by
    intro c x child
    have linked := inv.child_linked view child
    rwa [level] at linked
  obtain ⟨x, le, child⟩ := ok.child_spec low
  have linked := childOf _ _ child
  obtain ⟨d, page, viewD, linkedD, levelD, lowD, highD⟩ :=
    inv.exists_page linked le (high.trans_le ok.highest_le)
  have before : ∀ c z, w.2.Linked c 1 z → z ≤ k → z ≤ page.hdr.lowest := by
    intro c z other le
    exact (inv.disjoint d page viewD linkedD.2 c z (levelD ▸ other)).resolve_right
      fun above => absurd (above.trans le) (not_le.mpr highD)
  have atMost := before _ x linked le
  suffices same : q.child k = d by exact ⟨page, same ▸ viewD, highD⟩
  by_cases first : page.hdr.lowest = kKeyMin
  · have start : x = page.hdr.lowest := le_antisymm atMost (first ▸ Nat.zero_le x)
    exact inv.unique _ d 1 x linked (start ▸ linkedD)
  · obtain ⟨a', q', owner', view', level', b, child'⟩ := complete d _ linkedD first first
    have ok' : q'.Ok := (inv.view_sound a' _ view').ok
    have linkedB := inv.child_linked view' child'
    rw [level'] at linkedB
    obtain rfl := inv.unique b d 1 _ linkedB linkedD
    obtain ⟨low', high'⟩ := ok'.child_range child'
    obtain rfl := inv.page_unique view' owner' view owner (level'.trans level.symm) low' high'
      ((ok.child_range child).1.trans atMost) (lowD.trans_lt high)
    rw [view, Option.some.injEq, Page.internal.injEq] at view'
    subst view'
    exact ok.child_eq child' lowD fun r hr le => before _ _ (childOf _ _ (.inr ⟨r, hr, rfl, rfl⟩)) le

end Steps

end Sherman
