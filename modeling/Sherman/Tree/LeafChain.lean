import Mathlib.Data.Fintype.EquivFin
import Sherman.Tree.Occupancy

/-!
# Walking along the leaves

`print_and_check_tree` goes down to the leftmost leaf and then along the links between the leaves. It takes no
lock: the clients may change the tree between any two of its reads.
-/

namespace Sherman

open Concurrency

/-! ## `print_and_check_tree` -/

section
variable (moments : Nat → Shared)

def rootPtrAt (n : NodeID) : GlobalAddress :=
  if ((moments 0).dir n).gRootPtr = .null then (moments 1).rootPtr else ((moments 1).dir n).gRootPtr

/-- The loop at `next_level`, with `room` places left in the array `levels`. -/
def nextLevel : (room i : Nat) → GlobalAddress → Option (List GlobalAddress × GlobalAddress)
  | 0, _, _ => none
  | room + 1, i, p => do
      let page ← (moments i).mem p
      if page.hdr.level ≠ 0 then
        let (levels, leafHead) ← nextLevel room (i + 1) page.hdr.leftmostPtr
        return (p :: levels, leafHead)
      else
        return ([p], p)

def nextLeaf : (fuel i : Nat) → GlobalAddress → Option (List (GlobalAddress × LeafPage))
  | 0, _, _ => none
  | fuel + 1, i, leafHead =>
      match (moments i).mem leafHead with
      | some (.leaf page) =>
          if page.hdr.siblingPtr ≠ .null then do
            let leaves ← nextLeaf fuel (i + 1) page.hdr.siblingPtr
            return ((leafHead, page) :: leaves)
          else
            return [(leafHead, page)]
      | _ => none

/-- The pages entered in `levels` and the leaves read. The `i`-th read is at the moment `i`; there is none when
the walk leaves the array or the tree. -/
def printAndCheckTree (n : NodeID) (fuel : Nat) : Option (List GlobalAddress × List (GlobalAddress × LeafPage)) := do
  let (levels, leafHead) ← nextLevel moments kMaxLevelOfTree 2 (rootPtrAt moments n)
  let leaves ← nextLeaf moments fuel (2 + levels.length) leafHead
  return (levels, leaves)

end

section
variable {moments : Nat → Shared} {room fuel i : Nat} {p leafHead : GlobalAddress} {levels : List GlobalAddress}
  {page : Page} {leaf : LeafPage} {leaves : List (GlobalAddress × LeafPage)}

theorem nextLevel_leaf (mem : (moments i).mem p = some page) (level : page.hdr.level = 0) :
    nextLevel moments (room + 1) i p = some ([p], p) := by
  simp [nextLevel, mem, level]

theorem nextLevel_inner (mem : (moments i).mem p = some page) (level : page.hdr.level ≠ 0)
    (rest : nextLevel moments room (i + 1) page.hdr.leftmostPtr = some (levels, leafHead)) :
    nextLevel moments (room + 1) i p = some (p :: levels, leafHead) := by
  simp [nextLevel, mem, level, rest]

theorem nextLeaf_last (mem : (moments i).mem leafHead = some (.leaf leaf)) (last : leaf.hdr.siblingPtr = .null) :
    nextLeaf moments (fuel + 1) i leafHead = some [(leafHead, leaf)] := by
  simp [nextLeaf, mem, last]

theorem nextLeaf_next (mem : (moments i).mem leafHead = some (.leaf leaf)) (sibling : leaf.hdr.siblingPtr ≠ .null)
    (rest : nextLeaf moments fuel (i + 1) leaf.hdr.siblingPtr = some leaves) :
    nextLeaf moments (fuel + 1) i leafHead = some ((leafHead, leaf) :: leaves) := by
  simp [nextLeaf, mem, sibling, rest]

end

/-! ## Leaves side by side -/

def Consecutive : Key → List LeafPage → Prop
  | x, [] => x = kKeyMax
  | x, page :: rest => page.hdr.lowest = x ∧ x < page.hdr.highest ∧ Consecutive page.hdr.highest rest

def LeafPage.Spans (page : LeafPage) (k : Key) : Prop := page.hdr.lowest ≤ k ∧ k < page.hdr.highest

theorem Consecutive.le {x : Key} {pages : List LeafPage} (h : Consecutive x pages) {page : LeafPage}
    (member : page ∈ pages) : x ≤ page.hdr.lowest := by
  induction pages generalizing x with
  | nil => cases member
  | cons first rest ih =>
      obtain ⟨lowest, fence, rest⟩ := h
      cases member with
      | head => exact lowest.ge
      | tail _ later => exact fence.le.trans (ih rest later)

theorem Consecutive.once {x k : Key} {pages : List LeafPage} (h : Consecutive x pages) (low : x ≤ k)
    (high : k < kKeyMax) : ∃! j : Nat, ∃ page : LeafPage, pages[j]? = some page ∧ page.Spans k := by
  induction pages generalizing x with
  | nil => exact absurd (h ▸ low) (not_le.mpr high)
  | cons first rest ih =>
      obtain ⟨lowest, -, consecutive⟩ := h
      by_cases inside : k < first.hdr.highest
      · refine ⟨0, ⟨first, rfl, lowest.trans_le low, inside⟩, ?_⟩
        rintro (_ | j) ⟨page, found, spans, -⟩
        · rfl
        · -- a later leaf starts where the first one ends
          have later := consecutive.le (List.mem_of_getElem? found)
          exact absurd (later.trans spans) (not_le.mpr inside)
      · obtain ⟨j, found, only⟩ := ih consecutive (not_lt.mp inside)
        refine ⟨j + 1, found, ?_⟩
        rintro (_ | j') ⟨page, found', spans⟩
        · cases found'
          exact absurd spans.2 inside
        · exact congrArg (· + 1) (only j' ⟨page, found', spans⟩)

/-! ## The walk -/

/-- The tree at the moments of the reads, between which the clients take any steps. -/
structure Proceeds (cfg : Config) (moments : Nat → State) : Prop where
  start : Reachable cfg (moments 0)
  goes : ∀ i, ∃ as, KeysBelow as ∧ (system cfg).run (moments i) as = some (moments (i + 1))

structure Shows (s : Shared) (a : GlobalAddress) (page : LeafPage) : Prop where
  onLevel : OnLevel s a
  map : s.Quiet a → ∀ k, page.Spans k → ∀ v, LeafMap s k v ↔ page.Holds k v

section
variable {cfg : Config} {moments : Nat → State} {i : Nat} {g : Ghost}

theorem Proceeds.next (proceeds : Proceeds cfg moments) (good : (protocol .any cfg).Good (system cfg) (moments i) g) :
    ∃ g' t, (protocol .any cfg).Good (system cfg) (moments (i + 1)) g' ∧
      Rely .any cfg t ((moments i).shared, g) ((moments (i + 1)).shared, g') := by
  obtain ⟨as, keys, run⟩ := proceeds.goes i
  -- some client takes no step
  obtain ⟨t, fresh⟩ := Infinite.exists_notMem_finset (as.filterMap Action.thread?).toFinset
  have others : ∀ a ∈ as, a.thread? ≠ some t := by
    intro a member same
    exact fresh (List.mem_toFinset.mpr (List.mem_filterMap.mpr ⟨a, member, same⟩))
  obtain ⟨g', good', rely⟩ := Protocol.good_run_rely (protocol_sound .any cfg) good (throughout_any keys) others run
  exact ⟨g', t, good', rely⟩

theorem TreeInv.shows {s : Shared} (inv : TreeInv s g) {a : GlobalAddress} {page : LeafPage} {x : Key}
    (linked : g.Linked a 0 x) (mem : s.mem a = some (.leaf page)) : Shows s a page := by
  refine ⟨inv.onLevel linked, fun quiet k spans v => ?_⟩
  rw [inv.leafMap]
  exact inv.bindings_iff (quiet.view.trans mem) linked.2 spans.1 spans.2 v

theorem TreeInv.leftmost_below {s : Shared} (inv : TreeInv s g) {a : GlobalAddress} {page : Page}
    (mem : s.mem a = some page) (level : page.hdr.level ≠ 0) :
    g.Linked page.hdr.leftmostPtr (page.hdr.level - 1) page.hdr.lowest := by
  have sound := inv.mem_sound a page mem
  cases page with
  | leaf page => exact absurd (LeafPage.Ok.level sound.ok) level
  | internal page => exact sound.points.2 _ _ (.inl ⟨rfl, rfl⟩)

theorem rootPtrAt_linked (proceeds : Proceeds cfg moments) (n : NodeID) :
    ∃ g l, (protocol .any cfg).Good (system cfg) (moments 1) g ∧
      g.Linked (rootPtrAt (fun i => (moments i).shared) n) l kKeyMin := by
  obtain ⟨g, good⟩ := proceeds.start.good
  obtain ⟨g', t, good', rely⟩ := proceeds.next good
  unfold rootPtrAt
  split
  · obtain ⟨l, linked, -⟩ := good'.1.tree.root
    exact ⟨g', l, good', linked⟩
  · rename_i known
    rcases good'.1.tree.dir n with ⟨unknown, -⟩ | ⟨l, -, -, linked⟩
    · exact absurd unknown (rely.rooted n known)
    · exact ⟨g', l, good', linked⟩

theorem nextLevel_ends (proceeds : Proceeds cfg moments) {room l : Nat} {p : GlobalAddress}
    (good : (protocol .any cfg).Good (system cfg) (moments i) g) (linked : g.Linked p l kKeyMin) (below : l < room) :
    ∃ levels leafHead g', nextLevel (fun i => (moments i).shared) room i p = some (levels, leafHead) ∧
      (protocol .any cfg).Good (system cfg) (moments (i + levels.length)) g' ∧ g'.Linked leafHead 0 kKeyMin := by
  induction room generalizing i l p g with
  | zero => exact absurd below (Nat.not_lt_zero l)
  | succ room ih =>
      obtain ⟨page, mem, rfl, lowest⟩ := good.1.tree.linked_mem linked
      obtain ⟨g', t, good', rely⟩ := proceeds.next good
      by_cases level : page.hdr.level = 0
      · refine ⟨[p], p, g', nextLevel_leaf mem level, good', ?_⟩
        rw [level] at linked
        exact rely.linked p 0 kKeyMin linked
      · have child := rely.linked _ _ _ (good.1.tree.leftmost_below mem level)
        rw [lowest] at child
        have lower : page.hdr.level - 1 < room := by omega
        obtain ⟨levels, leafHead, g'', ends, good'', leaf⟩ := ih good' child lower
        refine ⟨p :: levels, leafHead, g'', nextLevel_inner mem level ends, ?_, leaf⟩
        rw [List.length_cons, Nat.add_comm levels.length, ← Nat.add_assoc]
        exact good''

theorem nextLeaf_ends (proceeds : Proceeds cfg moments) {fuel : Nat} {a : GlobalAddress} {x : Key}
    (good : (protocol .any cfg).Good (system cfg) (moments i) g) (linked : g.Linked a 0 x) (enough : kKeyMax - x ≤ fuel) :
    ∃ leaves, nextLeaf (fun i => (moments i).shared) fuel i a = some leaves ∧ Consecutive x (leaves.map Prod.snd) ∧
      ∀ j b page, leaves[j]? = some (b, page) → Shows (moments (i + j)).shared b page := by
  induction fuel generalizing i a x g with
  | zero => exact absurd (good.1.tree.start_lt linked) (not_lt.mpr (Nat.le_of_sub_eq_zero (Nat.le_zero.mp enough)))
  | succ fuel ih =>
      obtain ⟨page, mem, level, rfl⟩ := good.1.tree.linked_mem linked
      have sound := good.1.tree.mem_sound a page mem
      cases page with
      | internal page => exact absurd level (InternalPage.Ok.level sound.ok)
      | leaf page =>
          have first := good.1.tree.shows linked mem
          have fence : page.hdr.lowest < page.hdr.highest := sound.ok.fence
          rcases sound.points with ⟨end_, null⟩ | ⟨-, sibling⟩
          · refine ⟨[(a, page)], nextLeaf_last mem null, ⟨rfl, fence, end_⟩, ?_⟩
            rintro (_ | j) b page' found
            · cases found
              exact first
            · cases found
          · -- the next leaf starts where this one ends, whatever is split meanwhile
            obtain ⟨g', t, good', rely⟩ := proceeds.next good
            have next := rely.linked _ _ _ sibling
            rw [show page.hdr.level = 0 from level] at next
            have less : kKeyMax - page.hdr.highest ≤ fuel := by
              have := Nat.sub_lt_sub_left (good.1.tree.start_lt linked) fence
              exact Nat.le_of_lt_succ (this.trans_le enough)
            obtain ⟨leaves, ends, consecutive, rest⟩ := ih good' next less
            refine ⟨(a, page) :: leaves, nextLeaf_next mem (good'.1.tree.ne_null next) ends, ⟨rfl, fence, consecutive⟩, ?_⟩
            rintro (_ | j) b page' found
            · cases found
              exact first
            · rw [Nat.add_comm j, ← Nat.add_assoc]
              exact rest j b page' found

/-- While the clients go on, `print_and_check_tree` stays inside `levels` and the tree, comes to an end, and
finds each key in exactly one leaf. -/
theorem leaves_walked (proceeds : Proceeds cfg moments) (few : (moments 1).shared.allocated.length < 2 * 31 ^ 6)
    (n : NodeID) {fuel : Nat} (enough : kKeyMax ≤ fuel) :
    ∃ levels leaves, printAndCheckTree (fun i => (moments i).shared) n fuel = some (levels, leaves) ∧
      Consecutive kKeyMin (leaves.map Prod.snd) ∧
      (∀ k < kKeyMax, ∃! j : Nat, ∃ page : LeafPage, (leaves.map Prod.snd)[j]? = some page ∧ page.Spans k) ∧
      ∀ j a page, leaves[j]? = some (a, page) → Shows (moments (2 + levels.length + j)).shared a page := by
  obtain ⟨g, l, good, linked⟩ := rootPtrAt_linked proceeds n
  have below := good.1.tree.level_lt linked few
  obtain ⟨g', t, good', rely⟩ := proceeds.next good
  obtain ⟨levels, leafHead, g'', down, good'', leaf⟩ := nextLevel_ends proceeds good' (rely.linked _ _ _ linked) below
  obtain ⟨leaves, along, consecutive, shows_⟩ := nextLeaf_ends proceeds good'' leaf ((Nat.sub_le _ _).trans enough)
  refine ⟨levels, leaves, by simp [printAndCheckTree, down, along], consecutive, fun k high => ?_, shows_⟩
  exact consecutive.once (Nat.zero_le k) high

end

/-- The root is read while its leaf is about to be split, and the pages after the root has grown. -/
def duringGrowth (m s : State) (i : Nat) : State := if i < 2 then m else s

theorem duringGrowth_proceeds {m s : State} (run : (system oneLock).run (State.init ⟨1, 8⟩) beforeGrowth = some m)
    (run' : (system oneLock).run m growthAndSearch = some s) : Proceeds oneLock (duringGrowth m s) where
  start := ⟨⟨1, 8⟩, beforeGrowth, by decide,
    fun t op member => growth_own.keysBelow t op (List.mem_append_left _ member), run⟩
  goes i := by
    rcases Nat.lt_trichotomy (i + 1) 2 with before | same | after
    · exact ⟨[], fun _ _ member => absurd member List.not_mem_nil, by
        simp [duringGrowth, before, (Nat.lt_succ_self i).trans before, System.run]⟩
    · cases same
      exact ⟨growthAndSearch, fun t op member => growth_own.keysBelow t op (List.mem_append_right _ member), run'⟩
    · refine ⟨[], fun _ _ member => absurd member List.not_mem_nil, ?_⟩
      simp [duringGrowth, not_lt.mpr (Nat.le_of_lt_succ after), not_lt.mpr after.le, System.run]

theorem leaves_walked_growth : ∃ m s, (system oneLock).run (State.init ⟨1, 8⟩) beforeGrowth = some m ∧
    (system oneLock).run m growthAndSearch = some s ∧ ∃ left right,
      printAndCheckTree (fun i => (duringGrowth m s i).shared) 0 kKeyMax =
        some ([⟨1, 8⟩], [(⟨1, 8⟩, left), (⟨0, 16⟩, right)]) ∧
      Consecutive kKeyMin [left, right] ∧
      (∀ k < kKeyMax, ∃! j : Nat, ∃ page : LeafPage, [left, right][j]? = some page ∧ page.Spans k) ∧
      Shows s.shared ⟨1, 8⟩ left ∧ Shows s.shared ⟨0, 16⟩ right := by
  obtain ⟨m, s, run, run', before, after, -⟩ := growth_spec
  obtain ⟨root, unheard, -, few⟩ := splitting_eq before
  obtain ⟨-, -, -, p, left, right, -, -, first, level, sibling, second, last, -⟩ := grown_eq after
  have few : (duringGrowth m s 1).shared.allocated.length < 2 * 31 ^ 6 := few.trans_lt (by decide)
  obtain ⟨levels, leaves, walk, consecutive, once, shows_⟩ :=
    leaves_walked (duringGrowth_proceeds run run') few 0 le_rfl
  have leaf : nextLevel (fun i => (duringGrowth m s i).shared) kMaxLevelOfTree 2 ⟨1, 8⟩ = some ([⟨1, 8⟩], ⟨1, 8⟩) :=
    nextLevel_leaf first level
  have chain : nextLeaf (fun i => (duringGrowth m s i).shared) kKeyMax 3 ⟨1, 8⟩ =
      some [(⟨1, 8⟩, left), (⟨0, 16⟩, right)] := by
    change nextLeaf _ (kKeyMax - 2 + 1 + 1) 3 ⟨1, 8⟩ = _
    refine nextLeaf_next first (by rw [sibling]; decide) ?_
    rw [sibling]
    exact nextLeaf_last second last
  have start : rootPtrAt (fun i => (duringGrowth m s i).shared) 0 = ⟨1, 8⟩ := (if_pos unheard).trans root
  have walked : printAndCheckTree (fun i => (duringGrowth m s i).shared) 0 kKeyMax =
      some ([⟨1, 8⟩], [(⟨1, 8⟩, left), (⟨0, 16⟩, right)]) := by
    simp [printAndCheckTree, start, leaf, chain]
  rw [walked, Option.some.injEq, Prod.mk.injEq] at walk
  obtain ⟨rfl, rfl⟩ := walk
  exact ⟨m, s, run, run', left, right, walked, consecutive, once, shows_ 0 _ _ rfl, shows_ 1 _ _ rfl⟩

end Sherman
