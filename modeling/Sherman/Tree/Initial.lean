import Sherman.Tree.Soundness

namespace Sherman

open Shared Concurrency

variable {m : Mode} {cfg : Config} {root : GlobalAddress}

def Ghost.init (root : GlobalAddress) : Ghost where
  info := Function.update (fun _ => none) root (some (0, kKeyMin))
  owner := fun _ => none
  holding := fun _ => none
  owed := fun _ => none
  status := fun _ => none

abbrev rootLeaf : LeafPage := (LeafPage.new 0).setConsistent

theorem rootLeaf_empty : ∀ r ∈ rootLeaf.records, r = default := fun _ hr => List.eq_of_mem_replicate hr

theorem init_linked {a : GlobalAddress} {l : Nat} {x : Key} :
    (Ghost.init root).Linked a l x ↔ a = root ∧ l = 0 ∧ x = kKeyMin := by
  unfold Ghost.Linked Ghost.init
  by_cases same : a = root
  · subst same
    simp [eq_comm]
  · simp [same]

theorem init_info {a : GlobalAddress} (other : a ≠ root) : (Ghost.init root).info a = none := by
  simp [Ghost.init, other]

theorem init_mem {a : GlobalAddress} {page : Page} :
    (Shared.init root).mem a = some page ↔ a = root ∧ page = .leaf rootLeaf := by
  unfold Shared.init
  by_cases same : a = root
  · subst same
    simp [eq_comm]
  · simp [same]

theorem init_tree (nonnull : root ≠ .null) : TreeInv (.init root) (.init root) := by
  have sound : ∀ a page, (Shared.init root).mem a = some page → PageSound (Ghost.init root) a page := by
    intro a page mem
    obtain ⟨rfl, rfl⟩ := init_mem.mp mem
    exact ⟨(init_linked.mpr ⟨rfl, rfl, rfl⟩).1, LeafPage.new_ok, .inl ⟨rfl, rfl⟩⟩
  have stored : ∀ a l x, (Ghost.init root).Linked a l x → ∃ page, (Shared.init root).mem a = some page := by
    intro a l x linked
    obtain ⟨rfl, -, -⟩ := init_linked.mp linked
    exact ⟨_, init_mem.mpr ⟨rfl, rfl⟩⟩
  have rootLinked : (Ghost.init root).Linked root 0 kKeyMin := init_linked.mpr ⟨rfl, rfl, rfl⟩
  refine ⟨⟨init_info nonnull.symm, rfl⟩, sound, sound, stored, stored, ?_, ?_,
    ⟨0, rootLinked, ?_⟩, ?_, fun _ => .inl ⟨rfl, rfl, nofun⟩, ?_, ?_, ?_⟩
  · intro a b l x linkedA linkedB
    rw [(init_linked.mp linkedA).1, (init_linked.mp linkedB).1]
  · intro a page _ _ b y linked
    rw [(init_linked.mp linked).2.2]
    exact .inl (Nat.zero_le _)
  · exact fun a l x linked => (init_linked.mp linked).2.1.le
  · intro z hz
    cases hz
  · intro n e he
    cases he
  · intro a fresh
    refine ⟨init_info ?_, rfl⟩
    rintro rfl
    exact fresh (by simp [Shared.init])
  · intro a c owed
    cases owed

theorem init_lock : LockInv cfg (.init root) (.init root) where
  holding la c h := by cases h
  written z hz := by cases hz
  private_write z hz := by cases hz
  linked_write z hz := by cases hz
  unlocking z hz := by cases hz
  single := List.Pairwise.nil
  ordered := List.Pairwise.nil
  unlock_once := List.Pairwise.nil

theorem init_visible : VisibleInv (.init root) (.init root) := by
  have leaf : ∀ reach a page, (Shared.init root).mem a = some page → page.Points reach := by
    intro reach a page mem
    obtain ⟨rfl, rfl⟩ := init_mem.mp mem
    exact .inl ⟨rfl, rfl⟩
  refine ⟨⟨fun a page mem _ => leaf _ a page mem, fun a page view _ => leaf _ a page view, ?_, ?_, ?_⟩, ?_,
    ⟨?_, ?_⟩⟩
  · intro n e he
    cases he
  · intro z hz
    cases hz
  · intro z hz
    cases hz
  · rintro a p - - - b y ⟨linked, -⟩
    rw [(init_linked.mp linked).2.2]
    exact .inl (Nat.zero_le _)
  · intro z hz
    cases hz
  · intro c op w r status
    cases status

theorem init_invariant (nonnull : root ≠ .null) : Invariant m cfg (.init root, .init root) :=
  ⟨init_tree nonnull, init_lock, fun _ => init_visible, (fun _ _ z hz => by cases hz), fun _ n h => by cases h⟩

theorem init_good (m : Mode) (cfg : Config) (nonnull : root ≠ .null) :
    (protocol m cfg).Good (system cfg) (State.init root) (Ghost.init root) :=
  ⟨init_invariant nonnull, fun _ => rfl⟩

theorem init_bindings : Bindings (.init root) (.init root) = fun _ _ => False := by
  funext k v
  refine eq_false ?_
  rintro ⟨a, p, -, view, used, r, hr, -, rfl⟩
  obtain ⟨rfl, leaf⟩ := init_mem.mp view
  cases leaf
  exact used (rootLeaf_empty r hr ▸ rfl)

theorem init_executed : Executed (.init root) (.init root) = fun _ _ => False := by
  funext k v
  refine eq_false ?_
  rintro ⟨a, p, -, -, mem, used, r, hr, -, rfl⟩
  obtain ⟨rfl, leaf⟩ := init_mem.mp mem
  cases leaf
  exact used (rootLeaf_empty r hr ▸ rfl)

end Sherman
