import Sherman.Tree.Structure
import Sherman.Tree.Layers

namespace Sherman

open Shared Concurrency

/-! ## Children -/

namespace InternalPage
variable {p : InternalPage}

def children (p : InternalPage) : List GlobalAddress := p.hdr.leftmostPtr :: p.live.map InternalEntry.ptr

theorem mem_children {c : GlobalAddress} : c ∈ p.children ↔ ∃ x, p.Child c x := by
  simp only [children, List.mem_cons, List.mem_map, Child]
  constructor
  · rintro (first | ⟨r, hr, ptr⟩)
    · exact ⟨_, .inl ⟨first, rfl⟩⟩
    · exact ⟨_, .inr ⟨r, hr, ptr, rfl⟩⟩
  · rintro ⟨x, ⟨first, -⟩ | ⟨r, hr, ptr, -⟩⟩
    · exact .inl first
    · exact .inr ⟨r, hr, ptr⟩

theorem length_children (p : InternalPage) : p.children.length = p.live.length + 1 := by
  simp [children]

end InternalPage

namespace TreeInv
variable {s : Shared} {g : Ghost} {a : GlobalAddress} {l : Nat} {x : Key} {p : InternalPage}

theorem nodup_children (inv : TreeInv s g) (view : s.view a = some (.internal p)) : p.children.Nodup := by
  have ok : p.Ok := (inv.view_sound a _ view).ok
  have record : ∀ r ∈ p.live, g.Linked r.ptr (p.hdr.level - 1) r.key := fun r hr =>
    inv.child_linked view (.inr ⟨r, hr, rfl, rfl⟩)
  refine List.nodup_cons.mpr ⟨fun mem => ?_, ?_⟩
  · obtain ⟨r, hr, ptr⟩ := List.mem_map.mp mem
    have first := inv.child_linked view (.inl ⟨rfl, rfl⟩)
    have same := (record r hr).level_eq (ptr ▸ first)
    exact (ok.range r hr).1.ne same.2.symm
  · refine List.pairwise_map.mpr (ok.sorted.imp_of_mem fun {r r'} hr hr' less same => ?_)
    exact less.ne ((record r hr).level_eq (same ▸ record r' hr')).2

theorem root_of_covers (inv : TreeInv s g) {page : Page} (view : s.view a = some page)
    (owner : g.owner a = none) (low : page.hdr.lowest = kKeyMin) (high : page.hdr.highest = kKeyMax) :
    a = s.rootPtr := by
  have linked : g.Linked a page.hdr.level kKeyMin := low ▸ ⟨(inv.view_sound a page view).info, owner⟩
  obtain ⟨top, root, below⟩ := inv.root
  rcases Nat.lt_or_eq_of_le (below a _ _ linked) with less | same
  · obtain ⟨b, above⟩ := inv.start_at root less
    obtain ⟨q, viewB, levelB, -⟩ := inv.linked_internal above
    have ok : q.Ok := (inv.view_sound b _ viewB).ok
    have nonempty : 0 < q.live.length := by
      rw [InternalPage.length_live ok.space.le]
      exact ok.pos
    obtain ⟨r, hr⟩ := List.exists_mem_of_length_pos nonempty
    have range := ok.range r hr
    have child := inv.child_linked viewB (.inr ⟨r, hr, rfl, rfl⟩)
    rw [levelB, Nat.add_sub_cancel] at child
    rcases inv.disjoint a page view owner _ _ child with before | after
    · rw [low] at before
      exact absurd (range.1.trans_le before) (Nat.not_lt_zero _)
    · rw [high] at after
      exact absurd (range.2.trans_le ok.highest_le) (not_lt.mpr after)
  · exact inv.unique a s.rootPtr top kKeyMin (same ▸ linked) root

end TreeInv

/-! ## Occupancy -/

/-- How many records the pages hold. A root page whose compare-and-swap was lost is on no level. -/
structure Occupancy (s : Shared) : Prop where
  lastIndex : ∀ a p, OnLevel s a → s.view a = some (.internal p) →
    p.hdr.lastIndex + 1 = p.live.length ∧ p.children.Nodup
  internal : ∀ a p, OnLevel s a → s.view a = some (.internal p) →
    1 ≤ p.live.length ∧ p.live.length ≤ kInternalCardinality - 1
  halfFull : ∀ a p, OnLevel s a → s.view a = some (.internal p) → a ≠ s.rootPtr →
    30 ≤ p.live.length ∧ 31 ≤ p.children.length
  leaf : ∀ a p, s.view a = some (.leaf p) → p.records.countP LeafEntry.used < kLeafCardinality

theorem InternalPage.Ok.lastIndex {p : InternalPage} (ok : p.Ok) :
    p.hdr.lastIndex + 1 = p.live.length := by
  have pos := ok.pos
  rw [length_live ok.space.le]
  unfold cnt at pos ⊢
  omega

namespace TreeInv
variable {s : Shared} {g : Ghost} {a : GlobalAddress} {l : Nat} {x : Key} {p : InternalPage}

theorem halfFull (inv : TreeInv s g) (view : s.view a = some (.internal p)) (owner : g.owner a = none)
    (other : a ≠ s.rootPtr) : 30 ≤ p.live.length := by
  have ok : p.Ok := (inv.view_sound a _ view).ok
  rw [InternalPage.length_live ok.space.le]
  exact ok.occupied fun covers => other (inv.root_of_covers view owner covers.1 covers.2)

theorem occupancy (inv : TreeInv s g) : Occupancy s where
  lastIndex a p _ view := ⟨InternalPage.Ok.lastIndex (inv.view_sound a _ view).ok, inv.nodup_children view⟩
  internal a p _ view := by
    have ok : p.Ok := (inv.view_sound a _ view).ok
    rw [InternalPage.length_live ok.space.le]
    exact ⟨ok.pos, Nat.le_sub_one_of_lt ok.space⟩
  halfFull a p onLevel view other := by
    obtain ⟨l, x, linked⟩ := inv.onLevel_linked onLevel
    have half := inv.halfFull view linked.2 other
    exact ⟨half, p.length_children ▸ Nat.succ_le_succ half⟩
  leaf a p view := LeafPage.Ok.space (inv.view_sound a _ view).ok

/-! ## Height -/

def pages (s : Shared) (g : Ghost) (l : Nat) : Finset GlobalAddress :=
  s.allocated.toFinset.filter fun a => (g.info a).map Prod.fst = some l ∧ g.owner a = none

def childrenAt (s : Shared) (a : GlobalAddress) : Finset GlobalAddress :=
  match s.view a with
  | some (.internal p) => p.children.toFinset
  | _ => ∅

theorem mem_pages (inv : TreeInv s g) : a ∈ pages s g l ↔ ∃ x, g.Linked a l x := by
  have known : ∀ x, g.Linked a l x → a ∈ s.allocated := by
    intro x linked
    by_contra fresh
    exact Option.some_ne_none _ (linked.1.symm.trans (inv.allocated a fresh).1)
  simp only [pages, Finset.mem_filter, List.mem_toFinset, Option.map_eq_some_iff, Prod.exists]
  constructor
  · rintro ⟨-, ⟨level, x, info, rfl⟩, owner⟩
    exact ⟨x, info, owner⟩
  · rintro ⟨x, linked⟩
    exact ⟨known x linked, ⟨l, x, linked.1, rfl⟩, linked.2⟩

theorem mem_childrenAt (inv : TreeInv s g) (linked : g.Linked a (l + 1) x) {c : GlobalAddress}
    (child : c ∈ childrenAt s a) :
    ∃ p y, s.view a = some (.internal p) ∧ p.hdr.level = l + 1 ∧ p.Child c y ∧ g.Linked c l y := by
  obtain ⟨p, view, level, -⟩ := inv.linked_internal linked
  rw [childrenAt, view, List.mem_toFinset, InternalPage.mem_children] at child
  obtain ⟨y, child⟩ := child
  have below := inv.child_linked view child
  rw [level, Nat.add_sub_cancel] at below
  exact ⟨p, y, view, level, child, below⟩

/-- The levels of the tree. A child starts inside the fences of its parent, which are disjoint. -/
def layers (inv : TreeInv s g) : Layers GlobalAddress where
  level := pages s g
  children := childrenAt s
  below l a mem c child := by
    obtain ⟨x, linked⟩ := inv.mem_pages.mp mem
    obtain ⟨-, y, -, -, -, below⟩ := inv.mem_childrenAt linked child
    exact inv.mem_pages.mpr ⟨y, below⟩
  apart l a memA b memB other := by
    obtain ⟨x, linkedA⟩ := inv.mem_pages.mp memA
    obtain ⟨x', linkedB⟩ := inv.mem_pages.mp memB
    refine Finset.disjoint_left.mpr fun c childA childB => other ?_
    obtain ⟨p, y, viewA, levelA, childA, below⟩ := inv.mem_childrenAt linkedA childA
    obtain ⟨q, y', viewB, levelB, childB, below'⟩ := inv.mem_childrenAt linkedB childB
    obtain rfl := (below.level_eq below').2
    have rangeA := InternalPage.Ok.child_range (inv.view_sound a _ viewA).ok childA
    have rangeB := InternalPage.Ok.child_range (inv.view_sound b _ viewB).ok childB
    exact inv.page_unique viewA linkedA.2 viewB linkedB.2 (levelA.trans levelB.symm) rangeA.1 rangeA.2
      rangeB.1 rangeB.2

theorem card_childrenAt (inv : TreeInv s g) (view : s.view a = some (.internal p)) :
    (childrenAt s a).card = p.live.length + 1 := by
  rw [childrenAt, view, List.toFinset_card_of_nodup (inv.nodup_children view), p.length_children]

theorem card_leaves (inv : TreeInv s g) {top : Nat} (root : g.Linked s.rootPtr (top + 1) kKeyMin) :
    2 * 31 ^ top ≤ (pages s g 0).card := by
  have two : 2 ≤ (pages s g top).card := by
    obtain ⟨p, view, -⟩ := inv.linked_internal root
    have first := (inv.occupancy.internal _ p (inv.onLevel root) view).1
    calc 2 ≤ (childrenAt s s.rootPtr).card := inv.card_childrenAt view ▸ Nat.succ_le_succ first
      _ ≤ (pages s g top).card :=
          Finset.card_le_card (inv.layers.below top s.rootPtr (inv.mem_pages.mpr ⟨_, root⟩))
  have wide : ∀ l < top, ∀ a ∈ inv.layers.level (l + 1), 31 ≤ (inv.layers.children a).card := by
    intro l less a mem
    obtain ⟨x, linked⟩ := inv.mem_pages.mp mem
    obtain ⟨p, view, -⟩ := inv.linked_internal linked
    have other : a ≠ s.rootPtr := by
      rintro rfl
      have := (linked.level_eq root).1
      omega
    exact (inv.card_childrenAt view).ge.trans' (Nat.succ_le_succ (inv.halfFull view linked.2 other))
  exact (Nat.mul_le_mul_right _ two).trans (inv.layers.card_bottom wide)

theorem leaves_onLevel (inv : TreeInv s g) (mem : a ∈ pages s g 0) :
    OnLevel s a ∧ ∃ p, s.view a = some (.leaf p) := by
  obtain ⟨x, linked⟩ := inv.mem_pages.mp mem
  obtain ⟨p, view, -⟩ := inv.linked_leaf linked
  exact ⟨inv.onLevel linked, p, view⟩

theorem card_pages_le (s : Shared) (g : Ghost) (l : Nat) : (pages s g l).card ≤ s.allocated.length :=
  (Finset.card_filter_le _ _).trans s.allocated.toFinset_card_le

theorem level_lt (inv : TreeInv s g) (linked : g.Linked a l x) (few : s.allocated.length < 2 * 31 ^ 6) :
    l < kMaxLevelOfTree := by
  obtain ⟨top, root, below⟩ := inv.root
  by_contra high
  have le : kMaxLevelOfTree ≤ top := (not_lt.mp high).trans (below a l x linked)
  obtain ⟨height, rfl⟩ := Nat.exists_eq_add_of_le' ((by decide : 1 ≤ kMaxLevelOfTree).trans le)
  have many : 2 * 31 ^ 6 ≤ s.allocated.length :=
    calc 2 * 31 ^ 6 ≤ 2 * 31 ^ height :=
          Nat.mul_le_mul_left 2 (Nat.pow_le_pow_right (by decide) (Nat.le_of_succ_le_succ le))
      _ ≤ (pages s g 0).card := inv.card_leaves root
      _ ≤ s.allocated.length := card_pages_le s g 0
  exact absurd few (not_lt.mpr many)

end TreeInv

/-! ## `path_stack` -/

section PathStack
variable {cfg : Config} {s s' : State} {t : Client} {op : Op} {a : GlobalAddress} {k : Key}
  {fromCache : Bool} {next : Option SearchResult → Code Result}

theorem search_linked {g : Ghost} (good : (protocol .any cfg).Good (system cfg) s g)
    (called : s.threads t = .running op (.call (.pageSearch a k fromCache) next)) :
    ∃ l x, g.Linked a l x := by
  have may : MayCall .any t (.pageSearch a k fromCache) s.shared :=
    ⟨fun _ h => (nomatch h), fun current => current.elim⟩
  obtain ⟨⟨-, l, x, reach, -, -⟩, -⟩ := (good.thread called).2 _ (Rely.refl .any cfg t _) good.1 may
  exact ⟨l, x, reach.1⟩

theorem search_reads (a : GlobalAddress) (k : Key) (fromCache : Bool) (next : Option SearchResult → Code Result) :
    ∃ cont, (pageSearch a k fromCache).bind next = .verb (.readPage a) cont ∧
    ∀ page, page.hdr.level < kMaxLevelOfTree →
      ∃ rest, cont (some page) = .verb (.storePath page.hdr.level a) rest := by
  refine ⟨_, rfl, fun page level => ?_⟩
  simp only [storePath, Program.bind_eq, Program.ret_bind, if_pos level]
  exact ⟨_, rfl⟩

theorem search_stores {page : Page} {choice : Choice}
    (reading : s.threads t = .running op ((pageSearch a k fromCache).bind next))
    (mem : s.shared.mem a = some page) (level : page.hdr.level < kMaxLevelOfTree)
    (step : (system cfg).step s (.advance t choice) = some s') :
    ∃ rest, s'.threads t = .running op (.verb (.storePath page.hdr.level a) rest) := by
  obtain ⟨cont, reads, stores⟩ := search_reads a k fromCache next
  obtain ⟨rest, stored⟩ := stores page level
  simp only [System.step, reading, reads, System.advance, system, perform, mem] at step
  split_ifs at step
  cases step
  exact ⟨rest, by rw [State.setThread_same, stored]⟩

end PathStack

/-- When a `page_search` called in `s` reads its page, after any steps of other clients, and fewer
than `2 * 31 ^ 6` pages have been allocated, it stores the page inside `path_stack`. -/
def PathStackFits (cfg : Config) (s : State) : Prop :=
  ∀ t op a k fromCache next choice choice' as s₁ s₂,
    s.threads t = .running op (.call (.pageSearch a k fromCache) next) →
    KeysBelow as → (∀ b ∈ as, b.thread? ≠ some t) →
    (system cfg).run s (.advance t choice :: as) = some s₁ →
    s₁.shared.allocated.length < 2 * 31 ^ 6 →
    (system cfg).step s₁ (.advance t choice') = some s₂ →
    ∃ page rest, s₁.shared.mem a = some page ∧ page.hdr.level < kMaxLevelOfTree ∧
      s₂.threads t = .running op (.verb (.storePath page.hdr.level a) rest)

theorem pathStack_fits {cfg : Config} {s : State} (h : Reachable cfg s) : PathStackFits cfg s := by
  intro t op a k fromCache next choice choice' as s₁ s₂ called keys others run few step
  obtain ⟨g, good⟩ := h.good
  obtain ⟨l, x, linked⟩ := search_linked good called
  obtain ⟨m, call, rest⟩ := (system cfg).run_cons.mp run
  obtain ⟨g', good', same, -⟩ := Protocol.good_step (protocol_sound .any cfg) good
    (may_any (a := .advance t choice) fun _ _ h => (nomatch h)) call
  have linked' : g'.Linked a l x := by
    simp only [Protocol.Effect, called, Prod.mk.injEq] at same
    exact same.2 ▸ linked
  obtain ⟨g₁, good₁, rely⟩ := Protocol.good_run_rely (protocol_sound .any cfg) good'
    (throughout_any keys) others rest
  have linked₁ : g₁.Linked a l x := rely.extends.linked a l x linked'
  obtain ⟨page, mem, rfl, -⟩ := good₁.1.tree.linked_mem linked₁
  have level := good₁.1.tree.level_lt linked₁ few
  have reading : s₁.threads t = .running op ((pageSearch a k fromCache).bind next) := by
    rw [(system cfg).run_other rest others]
    simp only [System.step, called, System.advance, Option.some.injEq] at call
    rw [← call, State.setThread_same]
    rfl
  obtain ⟨cont, stores⟩ := search_stores reading mem level step
  exact ⟨page, cont, mem, level, stores⟩

def IsLeaf (s : Shared) (a : GlobalAddress) : Prop := OnLevel s a ∧ ∃ p, s.view a = some (.leaf p)

/-- The pages are half full, so the number of leaves grows with the level of the root, and while few
pages have been allocated `page_search` stays inside `path_stack`. -/
theorem tree_occupancy {cfg : Config} {s : State} (h : Reachable cfg s) :
    Occupancy s.shared ∧
      (∃ page, s.shared.view s.shared.rootPtr = some page ∧ (1 ≤ page.hdr.level →
        ∃ leaves : Finset GlobalAddress, (∀ a ∈ leaves, IsLeaf s.shared a) ∧
          2 * 31 ^ (page.hdr.level - 1) ≤ leaves.card)) ∧
      PathStackFits cfg s := by
  refine ⟨?_, ?_, pathStack_fits h⟩
  · obtain ⟨g, good⟩ := h.good
    exact good.1.tree.occupancy
  · obtain ⟨g, good⟩ := h.good
    have inv := good.1.tree
    obtain ⟨top, root, -⟩ := inv.root
    obtain ⟨page, view, rfl, -⟩ := inv.linked_view root
    refine ⟨page, view, fun high => ⟨_, fun a mem => inv.leaves_onLevel mem, inv.card_leaves ?_⟩⟩
    rwa [Nat.sub_add_cancel high]

theorem tree_occupancy_growth :
    ∃ s, (system oneLock).run (State.init ⟨1, 8⟩) growth = some s ∧ grown s = true ∧ Occupancy s.shared ∧
      (∃ page, s.shared.view s.shared.rootPtr = some page ∧ (1 ≤ page.hdr.level →
        ∃ leaves : Finset GlobalAddress, (∀ a ∈ leaves, IsLeaf s.shared a) ∧
          2 * 31 ^ (page.hdr.level - 1) ≤ leaves.card)) ∧
      PathStackFits oneLock s := by
  obtain ⟨s, run, shape⟩ := growth_run
  exact ⟨s, run, shape, tree_occupancy ⟨⟨1, 8⟩, growth, by decide, growth_own.keysBelow, run⟩⟩

end Sherman
