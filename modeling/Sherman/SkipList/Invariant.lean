import Mathlib.Data.Finset.Max
import Mathlib.Order.Monotone.Basic
import Sherman.Concurrency.LinearizationPoints
import Sherman.SkipList.Machine

namespace Sherman.SkipList

open Concurrency

variable {K : Type}

def Place.On (nodes : Finset (Node K)) : Place K → Prop
  | .head => True
  | .node x => x ∈ nodes

theorem Place.On.mono {nodes nodes' : Finset (Node K)} {p : Place K} (h : p.On nodes) (sub : nodes ⊆ nodes') :
    p.On nodes' := by
  cases p with
  | head => trivial
  | node x => exact sub h

variable [LinearOrder K]

/-! ## Chains -/

structure Links (next : Place K → Option (Node K)) (nodes : Finset (Node K)) : Prop where
  follows : ∀ p y, p.On nodes → next p = some y → y ∈ nodes ∧ p.Before y.key
  least : ∀ p z, p.On nodes → z ∈ nodes → p.Before z.key → ∃ y, next p = some y ∧ y.key ≤ z.key
  injective : ∀ y z, y ∈ nodes → z ∈ nodes → y.key = z.key → y = z

theorem Place.Before.trans {p : Place K} {k l : K} (h : p.Before k) (less : k < l) : p.Before l := by
  cases p with
  | head => trivial
  | node x => exact lt_trans h less

theorem Place.Before.notAfter {p : Place K} {k : K} (h : p.Before k) : p.NotAfter k := by
  cases p with
  | head => trivial
  | node x => exact le_of_lt h

namespace Links
variable {next : Place K → Option (Node K)} {nodes : Finset (Node K)} {p q : Place K} {x : Node K}

theorem empty : Links (fun _ : Place K => none) ∅ where
  follows _ _ _ h := nomatch h
  least _ z _ h := absurd h (Finset.notMem_empty z)
  injective y _ h := absurd h (Finset.notMem_empty y)

theorem total (h : Links next nodes) (onP : p.On nodes) (onQ : q.On nodes) (ne : q ≠ p) :
    (∃ v, p = .node v ∧ q.Before v.key) ∨ ∃ v, q = .node v ∧ p.Before v.key := by
  cases p with
  | head =>
      cases q with
      | head => exact absurd rfl ne
      | node w => exact .inr ⟨w, rfl, trivial⟩
  | node v =>
      cases q with
      | head => exact .inl ⟨v, rfl, trivial⟩
      | node w =>
          rcases lt_trichotomy w.key v.key with less | same | greater
          · exact .inl ⟨v, rfl, less⟩
          · exact absurd (congrArg Place.node (h.injective w v onQ onP same)) ne
          · exact .inr ⟨w, rfl, greater⟩

theorem beyond (h : Links next nodes) (on : p.On nodes) {k : K} (after : After k (next p)) {z : Node K}
    (member : z ∈ nodes) (before : p.Before z.key) : k < z.key := by
  obtain ⟨y, found, le⟩ := h.least p z on member before
  rw [found] at after
  exact lt_of_lt_of_le after le

theorem fresh (h : Links next nodes) (on : p.On nodes) (before : p.Before x.key) (after : After x.key (next p))
    {z : Node K} (member : z ∈ nodes) : z.key ≠ x.key := fun same =>
  lt_irrefl x.key (same ▸ h.beyond on after member (same ▸ before))

theorem link (h : Links next nodes) (on : p.On nodes) (before : p.Before x.key) (after : After x.key (next p))
    (new : x ∉ nodes) (own : next (.node x) = next p) :
    Links (Function.update next p (some x)) (insert x nodes) := by
  have other : Place.node x ≠ p := by
    rintro rfl
    exact new on
  refine ⟨fun q y onQ found => ?_, fun q z onQ member beforeZ => ?_, fun y z memberY memberZ same => ?_⟩
  · by_cases atP : q = p
    · subst atP
      rw [Function.update_self, Option.some.injEq] at found
      subst found
      exact ⟨Finset.mem_insert_self x nodes, before⟩
    · rw [Function.update_of_ne atP] at found
      by_cases atX : q = .node x
      · subst atX
        rw [own] at found
        rw [found] at after
        exact ⟨Finset.mem_insert_of_mem (h.follows p y on found).1, after⟩
      · have onOld : q.On nodes := by
          cases q with
          | head => trivial
          | node w => exact (Finset.mem_insert.mp onQ).resolve_left fun same => atX (congrArg Place.node same)
        exact ⟨Finset.mem_insert_of_mem (h.follows q y onOld found).1, (h.follows q y onOld found).2⟩
  · by_cases atP : q = p
    · subst atP
      refine ⟨x, Function.update_self .., ?_⟩
      rcases Finset.mem_insert.mp member with rfl | old
      · exact le_rfl
      · exact le_of_lt (h.beyond on after old beforeZ)
    · rw [Function.update_of_ne atP]
      by_cases atX : q = .node x
      · subst atX
        rcases Finset.mem_insert.mp member with rfl | old
        · exact absurd beforeZ (lt_irrefl z.key)
        · rw [own]
          exact h.least p z on old (before.trans beforeZ)
      · have onOld : q.On nodes := by
          cases q with
          | head => trivial
          | node w => exact (Finset.mem_insert.mp onQ).resolve_left fun same => atX (congrArg Place.node same)
        rcases Finset.mem_insert.mp member with rfl | old
        · -- the place is left of `p`, so its successor is not right of `p`
          rcases h.total on onOld atP with ⟨v, rfl, left⟩ | ⟨w, rfl, right⟩
          · obtain ⟨y, found, le⟩ := h.least q v onOld on left
            exact ⟨y, found, le.trans (le_of_lt before)⟩
          · exact absurd (h.beyond on after onOld right) (not_lt_of_gt beforeZ)
        · exact h.least q z onOld old beforeZ
  · rcases Finset.mem_insert.mp memberY with rfl | oldY
    · rcases Finset.mem_insert.mp memberZ with rfl | oldZ
      · rfl
      · exact absurd same.symm (h.fresh on before after oldZ)
    · rcases Finset.mem_insert.mp memberZ with rfl | oldZ
      · exact absurd same (h.fresh on before after oldY)
      · exact h.injective y z oldY oldZ same

theorem congr (h : Links next nodes) {next' : Place K → Option (Node K)}
    (same : ∀ p, p.On nodes → next' p = next p) : Links next' nodes where
  follows p y on found := h.follows p y on (same p on ▸ found)
  least p z on member before := by
    rw [same p on]
    exact h.least p z on member before
  injective := h.injective

end Links

/-! ## The object -/

def leastFrom (keys : Finset K) (k : K) : Option K :=
  if h : (keys.filter (k ≤ ·)).Nonempty then some ((keys.filter (k ≤ ·)).min' h) else none

/-- The sequential specification of the list: a set of keys. -/
def Op.apply : Op K → Finset K → Result K × Finset K
  | .insertConcurrently k, keys => (.inserted (decide (k ∉ keys)), insert k keys)
  | .seek k, keys => (.key (leastFrom keys k), keys)

theorem leastFrom_eq_some {keys : Finset K} {k y : K} (member : y ∈ keys) (le : k ≤ y)
    (least : ∀ z ∈ keys, k ≤ z → y ≤ z) : leastFrom keys k = some y := by
  have inside : y ∈ keys.filter (k ≤ ·) := Finset.mem_filter.mpr ⟨member, le⟩
  rw [leastFrom, dif_pos ⟨y, inside⟩]
  refine congrArg some (le_antisymm (Finset.min'_le _ _ inside) ?_)
  have found := Finset.mem_filter.mp (Finset.min'_mem (keys.filter (k ≤ ·)) ⟨y, inside⟩)
  exact least _ found.1 found.2

theorem leastFrom_eq_none {keys : Finset K} {k : K} (below : ∀ z ∈ keys, ¬ k ≤ z) : leastFrom keys k = none := by
  refine dif_neg fun h => ?_
  obtain ⟨z, member⟩ := h
  exact below z (Finset.mem_filter.mp member).1 (Finset.mem_filter.mp member).2

/-! ## The invariant -/

/-- A node that a thread inserts. It is linked at the levels below `level`. -/
structure Building (K : Type) where
  node : Node K
  level : Nat

abbrev Calls (K : Type) := Tid → Option (Op K × Option (Result K))

structure Ghost (K : Type) where
  linked : Nat → Finset (Node K)
  building : Tid → Option (Building K)
  calls : Calls K

abbrev World (K : Type) := Shared K × Ghost K

def World.calls (w : World K) : Calls K := w.2.calls

def World.keys (w : World K) : Finset K := (w.2.linked 0).image Node.key

structure Inv (w : World K) : Prop where
  links : ∀ i, Links (fun p => w.1.next p i) (w.2.linked i)
  nested : ∀ i, w.2.linked (i + 1) ⊆ w.2.linked i
  maxHeight : 1 ≤ w.1.maxHeight ∧ w.1.maxHeight ≤ kMaxHeight
  allocated : ∀ i, ∀ x ∈ w.2.linked i, x.address < w.1.allocated
  building : ∀ t b, w.2.building t = some b → b.node.address < w.1.allocated ∧ ∀ i, b.node ∈ w.2.linked i ↔ i < b.level
  own : ∀ t u b c, w.2.building t = some b → w.2.building u = some c → b.node = c.node → t = u

structure Rely (t : Tid) (w w' : World K) : Prop where
  linked : ∀ i, w.2.linked i ⊆ w'.2.linked i
  building : w'.2.building t = w.2.building t
  calls : w'.2.calls t = w.2.calls t
  own : ∀ b, w.2.building t = some b → ∀ i, b.level ≤ i → w'.1.next (.node b.node) i = w.1.next (.node b.node) i

structure Guarantee (t : Tid) (w w' : World K) : Prop where
  inv : Inv w'
  others : ∀ u, u ≠ t → Rely u w w'
  effects : Effects Op.apply w.keys w.calls w'.keys w'.calls
  op : ∀ u, (w'.2.calls u).map Prod.fst = (w.2.calls u).map Prod.fst

omit [LinearOrder K] in
theorem Rely.refl (t : Tid) (w : World K) : Rely t w w := ⟨fun _ => subset_rfl, rfl, rfl, fun _ _ _ _ => rfl⟩

omit [LinearOrder K] in
theorem Rely.trans {t : Tid} {u v w : World K} (h : Rely t u v) (h' : Rely t v w) : Rely t u w where
  linked i := (h.linked i).trans (h'.linked i)
  building := h'.building.trans h.building
  calls := h'.calls.trans h.calls
  own b building i le := (h'.own b (h.building.trans building) i le).trans (h.own b building i le)

theorem Guarantee.refl {t : Tid} {w : World K} (inv : Inv w) : Guarantee t w w :=
  ⟨inv, fun u _ => .refl u w, .unseen, fun _ => rfl⟩

theorem Inv.mono {w : World K} (inv : Inv w) {i j : Nat} (le : i ≤ j) : w.2.linked j ⊆ w.2.linked i :=
  antitone_nat_of_succ_le inv.nested le

theorem World.mem_keys {w : World K} {k : K} : k ∈ w.keys ↔ ∃ x ∈ w.2.linked 0, x.key = k := Finset.mem_image

end Sherman.SkipList
