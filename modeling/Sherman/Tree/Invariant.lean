import Sherman.Tree.View
import Sherman.Tree.Operations
import Sherman.Page.LeafSpec
import Sherman.Page.InternalSpec

/-!
# The B-link invariant

A ghost state names what the machine does not store: the level and lowest key of every written
page, the client that owns a page not yet linked into the tree, the client that holds a lock
between acquiring it and posting its write, and the client that owes a linked page its separator.
-/

namespace Sherman

/-- A running operation: the leaf write it posted, and its result from the moment its effect is
posted and from the moment it is executed. -/
structure Running where
  op : Op
  commit : Option Write
  posted : Option Result
  executed : Option Result

structure Ghost where
  info : GlobalAddress → Option (Nat × Key)
  owner : GlobalAddress → Option Client
  holding : GlobalAddress → Option Client
  owed : GlobalAddress → Option Client
  status : Client → Option Running

abbrev World := Shared × Ghost

namespace Ghost

def Linked (g : Ghost) (a : GlobalAddress) (l : Nat) (x : Key) : Prop :=
  g.info a = some (l, x) ∧ g.owner a = none

theorem Linked.level_eq {g : Ghost} {a : GlobalAddress} {l l' : Nat} {x x' : Key}
    (h : g.Linked a l x) (h' : g.Linked a l' x') : l = l' ∧ x = x' := by
  have := h.1.symm.trans h'.1
  simpa using this

/-! ### Updates -/

def setInfo (g : Ghost) (i : GlobalAddress) (v : Option (Nat × Key)) : Ghost :=
  { g with info := Function.update g.info i v }

def setOwner (g : Ghost) (i : GlobalAddress) (v : Option Client) : Ghost :=
  { g with owner := Function.update g.owner i v }

def setHolding (g : Ghost) (i : GlobalAddress) (v : Option Client) : Ghost :=
  { g with holding := Function.update g.holding i v }

def setOwed (g : Ghost) (i : GlobalAddress) (v : Option Client) : Ghost :=
  { g with owed := Function.update g.owed i v }

def setStatus (g : Ghost) (i : Client) (v : Option Running) : Ghost :=
  { g with status := Function.update g.status i v }

@[simp] theorem setInfo_info (g : Ghost) (i : GlobalAddress) (v : Option (Nat × Key)) :
    (g.setInfo i v).info = Function.update g.info i v := rfl
@[simp] theorem setInfo_owner (g : Ghost) (i : GlobalAddress) (v : Option (Nat × Key)) :
    (g.setInfo i v).owner = g.owner := rfl
@[simp] theorem setInfo_holding (g : Ghost) (i : GlobalAddress) (v : Option (Nat × Key)) :
    (g.setInfo i v).holding = g.holding := rfl
@[simp] theorem setInfo_owed (g : Ghost) (i : GlobalAddress) (v : Option (Nat × Key)) :
    (g.setInfo i v).owed = g.owed := rfl
@[simp] theorem setInfo_status (g : Ghost) (i : GlobalAddress) (v : Option (Nat × Key)) :
    (g.setInfo i v).status = g.status := rfl

@[simp] theorem setOwner_info (g : Ghost) (i : GlobalAddress) (v : Option Client) :
    (g.setOwner i v).info = g.info := rfl
@[simp] theorem setOwner_owner (g : Ghost) (i : GlobalAddress) (v : Option Client) :
    (g.setOwner i v).owner = Function.update g.owner i v := rfl
@[simp] theorem setOwner_holding (g : Ghost) (i : GlobalAddress) (v : Option Client) :
    (g.setOwner i v).holding = g.holding := rfl
@[simp] theorem setOwner_owed (g : Ghost) (i : GlobalAddress) (v : Option Client) :
    (g.setOwner i v).owed = g.owed := rfl
@[simp] theorem setOwner_status (g : Ghost) (i : GlobalAddress) (v : Option Client) :
    (g.setOwner i v).status = g.status := rfl

@[simp] theorem setHolding_info (g : Ghost) (i : GlobalAddress) (v : Option Client) :
    (g.setHolding i v).info = g.info := rfl
@[simp] theorem setHolding_owner (g : Ghost) (i : GlobalAddress) (v : Option Client) :
    (g.setHolding i v).owner = g.owner := rfl
@[simp] theorem setHolding_holding (g : Ghost) (i : GlobalAddress) (v : Option Client) :
    (g.setHolding i v).holding = Function.update g.holding i v := rfl
@[simp] theorem setHolding_owed (g : Ghost) (i : GlobalAddress) (v : Option Client) :
    (g.setHolding i v).owed = g.owed := rfl
@[simp] theorem setHolding_status (g : Ghost) (i : GlobalAddress) (v : Option Client) :
    (g.setHolding i v).status = g.status := rfl

@[simp] theorem setOwed_info (g : Ghost) (i : GlobalAddress) (v : Option Client) :
    (g.setOwed i v).info = g.info := rfl
@[simp] theorem setOwed_owner (g : Ghost) (i : GlobalAddress) (v : Option Client) :
    (g.setOwed i v).owner = g.owner := rfl
@[simp] theorem setOwed_holding (g : Ghost) (i : GlobalAddress) (v : Option Client) :
    (g.setOwed i v).holding = g.holding := rfl
@[simp] theorem setOwed_owed (g : Ghost) (i : GlobalAddress) (v : Option Client) :
    (g.setOwed i v).owed = Function.update g.owed i v := rfl
@[simp] theorem setOwed_status (g : Ghost) (i : GlobalAddress) (v : Option Client) :
    (g.setOwed i v).status = g.status := rfl

@[simp] theorem setStatus_info (g : Ghost) (i : Client) (v : Option Running) :
    (g.setStatus i v).info = g.info := rfl
@[simp] theorem setStatus_owner (g : Ghost) (i : Client) (v : Option Running) :
    (g.setStatus i v).owner = g.owner := rfl
@[simp] theorem setStatus_holding (g : Ghost) (i : Client) (v : Option Running) :
    (g.setStatus i v).holding = g.holding := rfl
@[simp] theorem setStatus_owed (g : Ghost) (i : Client) (v : Option Running) :
    (g.setStatus i v).owed = g.owed := rfl
@[simp] theorem setStatus_status (g : Ghost) (i : Client) (v : Option Running) :
    (g.setStatus i v).status = Function.update g.status i v := rfl

end Ghost

def SiblingOk (reach : GlobalAddress → Nat → Key → Prop) (hdr : Header) : Prop :=
  (hdr.highest = kKeyMax ∧ hdr.siblingPtr = .null) ∨
    (hdr.highest < kKeyMax ∧ reach hdr.siblingPtr hdr.level hdr.highest)

namespace Page

def Ok : Page → Prop
  | internal p => p.Ok
  | leaf p => p.Ok

def Points (reach : GlobalAddress → Nat → Key → Prop) : Page → Prop
  | leaf p => SiblingOk reach p.hdr
  | internal p => SiblingOk reach p.hdr ∧ ∀ c x, p.Child c x → reach c (p.hdr.level - 1) x

theorem Points.sibling {reach : GlobalAddress → Nat → Key → Prop} {page : Page}
    (h : page.Points reach) : SiblingOk reach page.hdr := by
  cases page with
  | leaf p => exact h
  | internal p => exact h.1

theorem Points.mono {reach reach' : GlobalAddress → Nat → Key → Prop} {page : Page}
    (h : page.Points reach) (imp : ∀ c l x, reach c l x → reach' c l x) : page.Points reach' := by
  cases page with
  | leaf p => exact h.imp id (And.imp_right (imp _ _ _))
  | internal p => exact ⟨h.1.imp id (And.imp_right (imp _ _ _)), fun c x hc => imp _ _ _ (h.2 c x hc)⟩

theorem Ok.fence {page : Page} (ok : page.Ok) : page.hdr.lowest < page.hdr.highest := by
  cases page with
  | leaf p => exact LeafPage.Ok.fence ok
  | internal p => exact InternalPage.Ok.fence ok

theorem Ok.highest_le {page : Page} (ok : page.Ok) : page.hdr.highest ≤ kKeyMax := by
  cases page with
  | leaf p => exact LeafPage.Ok.highest_le ok
  | internal p => exact InternalPage.Ok.highest_le ok

end Page

/-- A page whose contents agree with the ghost state. -/
structure PageSound (g : Ghost) (a : GlobalAddress) (page : Page) : Prop where
  info : g.info a = some (page.hdr.level, page.hdr.lowest)
  ok : page.Ok
  points : page.Points g.Linked

/-- A cached page is a copy of some version of a level-1 page. -/
structure EntrySound (g : Ghost) (e : CacheEntry) (p : InternalPage) : Prop where
  fromKey : e.fromKey = p.hdr.lowest
  toKey : e.toKey = p.hdr.highest - 1
  level : p.hdr.level = 1
  ok : p.Ok
  points : (Page.internal p).Points g.Linked

def DirectorySound (g : Ghost) (d : Directory) : Prop :=
  (d.gRootPtr = .null ∧ d.gRootLevel = -1 ∧ (d.enableCache = true → ∃ a, g.Linked a 1 kKeyMin)) ∨
    ∃ l : Nat, d.gRootLevel = l ∧ 1 ≤ l ∧ g.Linked d.gRootPtr l kKeyMin

def Orphan (s : Shared) (g : Ghost) (a : GlobalAddress) : Prop :=
  ∀ b q, s.view b = some (.internal q) → g.owner b = none → ∀ x, ¬ q.Child a x

/-- The part of the invariant about pages and pointers. -/
structure TreeInv (s : Shared) (g : Ghost) : Prop where
  null : g.info .null = none ∧ g.owner .null = none
  mem_sound : ∀ a page, s.mem a = some page → PageSound g a page
  view_sound : ∀ a page, s.view a = some page → PageSound g a page
  mem_some : ∀ a l x, g.Linked a l x → ∃ page, s.mem a = some page
  view_some : ∀ a l x, g.Linked a l x → ∃ page, s.view a = some page
  unique : ∀ a b l x, g.Linked a l x → g.Linked b l x → a = b
  disjoint : ∀ a page, s.view a = some page → g.owner a = none →
    ∀ b y, g.Linked b page.hdr.level y → y ≤ page.hdr.lowest ∨ page.hdr.highest ≤ y
  root : ∃ l, g.Linked s.rootPtr l kKeyMin ∧ ∀ a m x, g.Linked a m x → m ≤ l
  sent : ∀ m ∈ s.sent, 1 ≤ m.2 ∧ g.Linked m.1 m.2 kKeyMin
  dir : ∀ n, DirectorySound g (s.dir n)
  cache : ∀ n, ∀ e ∈ s.cache n, ∀ p, e.ptr = some p → EntrySound g e p
  allocated : ∀ a, a ∉ s.allocated → g.info a = none ∧ g.owner a = none
  owed : ∀ a c, g.owed a = some c → (∃ l x, g.Linked a l x ∧ kKeyMin < x) ∧ Orphan s g a

/-- The part of the invariant about locks and posted writes. -/
structure LockInv (cfg : Config) (s : Shared) (g : Ghost) : Prop where
  holding : ∀ la c, g.holding la = some c → ∃ b, s.lock la = some (c, b)
  written : ∀ z ∈ s.pending, ∀ a, z.write.target = some a → (g.info a).isSome
  private_write : ∀ z ∈ s.pending, ∀ a c, z.write.target = some a → g.owner a = some c → z.client = c
  linked_write : ∀ z ∈ s.pending, ∀ a, z.write.target = some a → g.owner a = none →
    g.holding (cfg.lockAddr a) = none ∧ ∃ b, s.lock (cfg.lockAddr a) = some (z.client, b)
  unlocking : ∀ z ∈ s.pending, ∀ la, z.write = .unlock la →
    g.holding la = none ∧ s.lock la = some (z.client, false)
  single : s.Single
  ordered : s.pending.Pairwise fun z z' => ∀ a, z.write = .unlock (cfg.lockAddr a) →
    z'.write.target = some a → g.owner a ≠ none
  unlock_once : s.pending.Pairwise fun z z' => ∀ la, z.write = .unlock la → z'.write ≠ .unlock la

theorem LockInv.unlock_client {cfg : Config} {s : Shared} {g : Ghost} (inv : LockInv cfg s g)
    {z z' : Posted} {a : GlobalAddress} (hz : z ∈ s.pending) (hz' : z' ∈ s.pending)
    (unlock : z.write = .unlock (cfg.lockAddr a)) (target : z'.write.target = some a)
    (linked : g.owner a = none) : z'.client = z.client := by
  obtain ⟨-, b, lock⟩ := inv.linked_write z' hz' a target linked
  have := (inv.unlocking z hz _ unlock).2
  rw [this] at lock
  simp only [Option.some.injEq, Prod.mk.injEq] at lock
  exact lock.1.symm

namespace TreeInv
variable {s : Shared} {g : Ghost}

theorem linked_view (inv : TreeInv s g) {a : GlobalAddress} {l : Nat} {x : Key}
    (linked : g.Linked a l x) :
    ∃ page, s.view a = some page ∧ page.hdr.level = l ∧ page.hdr.lowest = x := by
  obtain ⟨page, view⟩ := inv.view_some a l x linked
  have := (inv.view_sound a page view).info.symm.trans linked.1
  simp only [Option.some.injEq, Prod.mk.injEq] at this
  exact ⟨page, view, this.1, this.2⟩

theorem linked_leaf (inv : TreeInv s g) {a : GlobalAddress} {x : Key} (linked : g.Linked a 0 x) :
    ∃ p, s.view a = some (.leaf p) ∧ p.hdr.lowest = x := by
  obtain ⟨page, view, level, lowest⟩ := inv.linked_view linked
  cases page with
  | leaf p => exact ⟨p, view, lowest⟩
  | internal p => exact absurd level (InternalPage.Ok.level (inv.view_sound a _ view).ok)

theorem linked_internal (inv : TreeInv s g) {a : GlobalAddress} {l : Nat} {x : Key}
    (linked : g.Linked a (l + 1) x) :
    ∃ p, s.view a = some (.internal p) ∧ p.hdr.level = l + 1 ∧ p.hdr.lowest = x := by
  obtain ⟨page, view, level, lowest⟩ := inv.linked_view linked
  cases page with
  | leaf p => cases (LeafPage.Ok.level (inv.view_sound a _ view).ok).symm.trans level
  | internal p => exact ⟨p, view, level, lowest⟩

theorem child_linked (inv : TreeInv s g) {a c : GlobalAddress} {p : InternalPage} {x : Key}
    (view : s.view a = some (.internal p)) (child : p.Child c x) : g.Linked c (p.hdr.level - 1) x :=
  (inv.view_sound a _ view).points.2 c x child

theorem linked_mem (inv : TreeInv s g) {a : GlobalAddress} {l : Nat} {x : Key}
    (linked : g.Linked a l x) :
    ∃ page, s.mem a = some page ∧ page.hdr.level = l ∧ page.hdr.lowest = x := by
  obtain ⟨page, mem⟩ := inv.mem_some a l x linked
  have := (inv.mem_sound a page mem).info.symm.trans linked.1
  simp only [Option.some.injEq, Prod.mk.injEq] at this
  exact ⟨page, mem, this.1, this.2⟩

theorem ne_null (inv : TreeInv s g) {a : GlobalAddress} {l : Nat} {x : Key}
    (linked : g.Linked a l x) : a ≠ .null := by
  rintro rfl
  have := linked.1
  rw [inv.null.1] at this
  cases this

theorem start_below (inv : TreeInv s g) {a : GlobalAddress} {l : Nat} {x : Key}
    (linked : g.Linked a (l + 1) x) : ∃ b, g.Linked b l x := by
  obtain ⟨p, view, level, lowest⟩ := inv.linked_internal linked
  have child := inv.child_linked view (.inl ⟨rfl, rfl⟩)
  rw [level, lowest, Nat.add_sub_cancel] at child
  exact ⟨_, child⟩

theorem start_at (inv : TreeInv s g) {a : GlobalAddress} {l m : Nat} {x : Key}
    (linked : g.Linked a m x) (le : l ≤ m) : ∃ b, g.Linked b l x := by
  induction m generalizing a with
  | zero => exact ⟨a, Nat.le_zero.mp le ▸ linked⟩
  | succ m ih =>
      rcases Nat.lt_or_eq_of_le le with lt | rfl
      · obtain ⟨b, below⟩ := inv.start_below linked
        exact ih below (Nat.le_of_lt_succ lt)
      · exact ⟨a, linked⟩

theorem start_le (inv : TreeInv s g) {a b : GlobalAddress} {page : Page} {m : Nat} {y k : Key}
    (view : s.view a = some page) (linked : g.owner a = none) (above : g.Linked b m y)
    (level : page.hdr.level ≤ m) (le : y ≤ k) (inside : k < page.hdr.highest) :
    y ≤ page.hdr.lowest := by
  obtain ⟨c, start⟩ := inv.start_at above level
  rcases inv.disjoint a page view linked c y start with h | h
  · exact h
  · exact absurd (h.trans le) (not_le.mpr inside)

theorem page_unique (inv : TreeInv s g) {a b : GlobalAddress} {p q : Page} {k : Key}
    (viewA : s.view a = some p) (linkedA : g.owner a = none) (viewB : s.view b = some q)
    (linkedB : g.owner b = none) (level : p.hdr.level = q.hdr.level) (lowA : p.hdr.lowest ≤ k)
    (highA : k < p.hdr.highest) (lowB : q.hdr.lowest ≤ k) (highB : k < q.hdr.highest) : a = b := by
  have linkA : g.Linked a p.hdr.level p.hdr.lowest := ⟨(inv.view_sound a p viewA).info, linkedA⟩
  have linkB : g.Linked b q.hdr.level q.hdr.lowest := ⟨(inv.view_sound b q viewB).info, linkedB⟩
  have leB := inv.start_le viewA linkedA linkB level.le lowB highA
  have leA := inv.start_le viewB linkedB linkA level.ge lowA highB
  refine inv.unique a b p.hdr.level p.hdr.lowest linkA ?_
  rw [level, le_antisymm leA leB]
  exact linkB

end TreeInv

end Sherman
