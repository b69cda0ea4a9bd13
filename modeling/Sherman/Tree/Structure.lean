import Sherman.Tree.Initial
import Sherman.Tree.Schedules

namespace Sherman

open Shared Concurrency

/-! ## Pages and levels -/

/-- The leftmost page of a level, found by going down from the root. -/
inductive Leftmost (s : Shared) : GlobalAddress → Prop where
  | root : Leftmost s s.rootPtr
  | down {a : GlobalAddress} {p : InternalPage} (above : Leftmost s a)
      (view : s.view a = some (.internal p)) : Leftmost s p.hdr.leftmostPtr

/-- The pages linked by `sibling_ptr` from the leftmost page of their level. -/
inductive OnLevel (s : Shared) : GlobalAddress → Prop where
  | leftmost {a : GlobalAddress} (first : Leftmost s a) : OnLevel s a
  | right {a : GlobalAddress} {page : Page} (left : OnLevel s a) (view : s.view a = some page)
      (sibling : page.hdr.siblingPtr ≠ .null) : OnLevel s page.hdr.siblingPtr

/-- From page `a` on, the pages of level `l` tile the keys from `x` to the end of the key space. -/
inductive Tiles (s : Shared) (l : Nat) : GlobalAddress → Key → Prop where
  | last {a : GlobalAddress} {page : Page} (view : s.view a = some page) (level : page.hdr.level = l)
      (fence : page.hdr.lowest < page.hdr.highest) (end_ : page.hdr.highest = kKeyMax)
      (sibling : page.hdr.siblingPtr = .null) : Tiles s l a page.hdr.lowest
  | next {a : GlobalAddress} {page : Page} (view : s.view a = some page) (level : page.hdr.level = l)
      (fence : page.hdr.lowest < page.hdr.highest) (sibling : page.hdr.siblingPtr ≠ .null)
      (rest : Tiles s l page.hdr.siblingPtr page.hdr.highest) : Tiles s l a page.hdr.lowest

def PageAt (s : Shared) (l : Nat) (x : Key) (a : GlobalAddress) : Prop :=
  ∃ page, s.view a = some page ∧ page.hdr.level = l ∧ page.hdr.lowest = x

/-- The separators of an internal page, and where its pointers lead. -/
structure Separates (s : Shared) (p : InternalPage) : Prop where
  level : p.hdr.level ≠ 0
  sorted : p.live.Pairwise fun r r' => r.key < r'.key
  inside : ∀ r ∈ p.live, p.hdr.lowest < r.key ∧ r.key < p.hdr.highest
  leftmost : PageAt s (p.hdr.level - 1) p.hdr.lowest p.hdr.leftmostPtr
  child : ∀ r ∈ p.live, PageAt s (p.hdr.level - 1) r.key r.ptr

/-- The records of a leaf that are not null have distinct keys inside its fences. -/
structure Records (p : LeafPage) : Prop where
  level : p.hdr.level = 0
  distinct : p.records.Pairwise fun r r' =>
    r.value ≠ kValueNull → r'.value ≠ kValueNull → r.key ≠ r'.key
  inside : ∀ r ∈ p.records, r.value ≠ kValueNull → p.hdr.lowest ≤ r.key ∧ r.key < p.hdr.highest

structure WellFormed (s : Shared) : Prop where
  tiles : ∀ a, Leftmost s a → ∃ l, Tiles s l a kKeyMin
  internal : ∀ a p, s.view a = some (.internal p) → Separates s p
  leaf : ∀ a p, s.view a = some (.leaf p) → Records p

/-- The pairs held by the leaves on the sibling chain of level 0. -/
def LeafMap (s : Shared) (k : Key) (v : Value) : Prop :=
  ∃ a p, OnLevel s a ∧ s.view a = some (.leaf p) ∧ p.Holds k v

/-! ## The linked pages are the pages of the levels -/

namespace TreeInv
variable {s : Shared} {g : Ghost}

theorem leftmost_linked (inv : TreeInv s g) {a : GlobalAddress} (first : Leftmost s a) :
    ∃ l, g.Linked a l kKeyMin := by
  induction first with
  | root =>
      obtain ⟨l, linked, -⟩ := inv.root
      exact ⟨l, linked⟩
  | @down a p above view ih =>
      obtain ⟨l, linked⟩ := ih
      have sound := inv.view_sound _ _ view
      have info := sound.info.symm.trans linked.1
      simp only [Option.some.injEq, Prod.mk.injEq] at info
      have child := sound.points.2 _ _ (.inl ⟨rfl, rfl⟩)
      rw [show p.hdr.lowest = kKeyMin from info.2] at child
      exact ⟨_, child⟩

theorem onLevel_linked (inv : TreeInv s g) {a : GlobalAddress} (h : OnLevel s a) :
    ∃ l x, g.Linked a l x := by
  induction h with
  | leftmost first =>
      obtain ⟨l, linked⟩ := inv.leftmost_linked first
      exact ⟨l, _, linked⟩
  | right left view sibling ih =>
      rcases (inv.view_sound _ _ view).points.sibling with ⟨-, null⟩ | ⟨-, linked⟩
      · exact absurd null sibling
      · exact ⟨_, _, linked⟩

theorem exists_leftmost (inv : TreeInv s g) {a : GlobalAddress} {l m : Nat} (first : Leftmost s a)
    (linked : g.Linked a m kKeyMin) (le : l ≤ m) : ∃ b, Leftmost s b ∧ g.Linked b l kKeyMin := by
  induction m generalizing a with
  | zero => exact ⟨a, first, Nat.le_zero.mp le ▸ linked⟩
  | succ m ih =>
      rcases Nat.lt_or_eq_of_le le with lt | rfl
      · obtain ⟨p, view, level, lowest⟩ := inv.linked_internal linked
        have child := inv.child_linked view (.inl ⟨rfl, rfl⟩)
        rw [level, lowest, Nat.add_sub_cancel] at child
        exact ih (.down first view) child (Nat.le_of_lt_succ lt)
      · exact ⟨a, first, linked⟩

theorem onLevel_of_le (inv : TreeInv s g) {a b : GlobalAddress} {l : Nat} {x y : Key}
    (linked : g.Linked a l x) (left : OnLevel s b) (linkedB : g.Linked b l y) (le : y ≤ x) : OnLevel s a := by
  induction distance : x - y using Nat.strong_induction_on generalizing b y with
  | h n ih =>
      subst distance
      rcases Nat.lt_or_eq_of_le le with lt | rfl
      · obtain ⟨page, view, rfl, rfl⟩ := inv.linked_view linkedB
        have sound := inv.view_sound b page view
        have past : page.hdr.highest ≤ x :=
          (inv.disjoint b page view linkedB.2 a x linked).resolve_left (not_le.mpr lt)
        have fence := sound.ok.fence
        rcases sound.points.sibling with ⟨end_, -⟩ | ⟨-, sibling⟩
        · exact absurd (inv.start_lt linked) (not_lt.mpr (end_ ▸ past))
        · exact ih _ (Nat.sub_lt_sub_left lt fence) (.right left view (inv.ne_null sibling)) sibling past rfl
      · exact inv.unique b a l y linkedB linked ▸ left

theorem onLevel (inv : TreeInv s g) {a : GlobalAddress} {l : Nat} {x : Key} (linked : g.Linked a l x) :
    OnLevel s a := by
  obtain ⟨top, root, below⟩ := inv.root
  obtain ⟨b, first, linkedB⟩ := inv.exists_leftmost .root root (below a l x linked)
  exact inv.onLevel_of_le linked (.leftmost first) linkedB (Nat.zero_le x)

theorem tiles (inv : TreeInv s g) {a : GlobalAddress} {l : Nat} {x : Key} (linked : g.Linked a l x) :
    Tiles s l a x := by
  induction distance : kKeyMax - x using Nat.strong_induction_on generalizing a x with
  | h n ih =>
      subst distance
      obtain ⟨page, view, rfl, rfl⟩ := inv.linked_view linked
      have sound := inv.view_sound a page view
      have fence := sound.ok.fence
      rcases sound.points.sibling with ⟨end_, null⟩ | ⟨-, sibling⟩
      · exact .last view rfl fence end_ null
      · exact .next view rfl fence (inv.ne_null sibling)
          (ih _ (Nat.sub_lt_sub_left (inv.start_lt linked) fence) sibling rfl)

theorem pageAt (inv : TreeInv s g) {a : GlobalAddress} {l : Nat} {x : Key} (linked : g.Linked a l x) :
    PageAt s l x a := inv.linked_view linked

theorem separates (inv : TreeInv s g) {a : GlobalAddress} {p : InternalPage}
    (view : s.view a = some (.internal p)) : Separates s p := by
  have sound := inv.view_sound a _ view
  have ok : p.Ok := sound.ok
  exact ⟨ok.level, ok.sorted, ok.range, inv.pageAt (sound.points.2 _ _ (.inl ⟨rfl, rfl⟩)),
    fun r hr => inv.pageAt (sound.points.2 _ _ (.inr ⟨r, hr, rfl, rfl⟩))⟩

theorem wellFormed (inv : TreeInv s g) : WellFormed s := by
  refine ⟨fun a first => ?_, fun a p view => inv.separates view, fun a p view => ?_⟩
  · obtain ⟨l, linked⟩ := inv.leftmost_linked first
    exact ⟨l, inv.tiles linked⟩
  · have ok : p.Ok := (inv.view_sound a _ view).ok
    exact ⟨ok.level, ok.distinct, ok.range⟩

theorem leafMap (inv : TreeInv s g) : LeafMap s = Bindings s g := by
  funext k v
  refine propext ⟨?_, ?_⟩
  · rintro ⟨a, p, onLevel, view, holds⟩
    obtain ⟨l, x, linked⟩ := inv.onLevel_linked onLevel
    exact ⟨a, p, linked.2, view, holds⟩
  · rintro ⟨a, p, owner, view, holds⟩
    exact ⟨a, p, inv.onLevel ⟨(inv.view_sound a _ view).info, owner⟩, view, holds⟩

end TreeInv

/-! ## Reachable states -/

/-- What any number of clients can reach from a freshly constructed tree. -/
def Reachable (cfg : Config) (s : State) : Prop :=
  ∃ root as, root ≠ .null ∧ KeysBelow as ∧ (system cfg).run (State.init root) as = some s

def Mode.any : Mode := ⟨none, False, False, True⟩

section Any
variable {cfg : Config} {s s' : State} {as : List (Action Client Op Choice Env)}
  {a : Action Client Op Choice Env}

theorem may_any (keys : ∀ t op, a = .invoke t op → op.key < kKeyMax) : (protocol .any cfg).May s a := by
  cases a with
  | invoke t op => exact ⟨fun _ h => (nomatch h), keys t op rfl⟩
  | advance t choice =>
      simp only [Protocol.May]
      split
      · exact ⟨fun _ h => (nomatch h), fun vis => vis.elim, fun current => current.elim⟩
      · exact ⟨fun _ h => (nomatch h), fun current => current.elim⟩
      · trivial
  | respond t => exact fun vis => vis.elim
  | interfere e => trivial

theorem throughout_any (keys : KeysBelow as) : (system cfg).Throughout (protocol .any cfg).May s as := by
  induction as generalizing s with
  | nil => trivial
  | cons a as ih =>
      refine ⟨may_any fun t op h => keys t op (by simp [h]), fun s' _ => ih fun t op h => ?_⟩
      exact keys t op (List.mem_cons_of_mem a h)

theorem Reachable.good (h : Reachable cfg s) : ∃ g, (protocol .any cfg).Good (system cfg) s g := by
  obtain ⟨root, as, nonnull, keys, run⟩ := h
  exact Protocol.good_run (protocol_sound .any cfg) (init_good .any cfg nonnull) (throughout_any keys) run

end Any

/-- At every level the pages tile the keys, and every page is well formed. -/
theorem reachable_wellFormed {cfg : Config} {s : State} (h : Reachable cfg s) : WellFormed s.shared := by
  obtain ⟨g, good⟩ := h.good
  exact good.1.tree.wellFormed

theorem reachable_wellFormed_growth :
    ∃ s, (system oneLock).run (State.init ⟨1, 8⟩) growth = some s ∧ grown s = true ∧ WellFormed s.shared := by
  obtain ⟨s, run, shape⟩ := growth_run
  exact ⟨s, run, shape, reachable_wellFormed ⟨⟨1, 8⟩, growth, by decide, growth_own.keysBelow, run⟩⟩

/-! ## How the map changes -/

def PostsLeaf (s : State) (op : Op) : Action Client Op Choice Env → Prop
  | .advance t _ => ∃ v next, s.threads t = .running op (.verb v next) ∧ WritesLeaf s.shared v
  | _ => False

def Op.Updates (op : Op) (before after : Key → Value → Prop) : Prop :=
  match op with
  | .insert k v => Rebinds k v before after
  | .del k => Rebinds k kValueNull before after
  | .search _ => False

theorem Op.Effect.updates {op : Op} {before after : Key → Value → Prop}
    (h : op.Effect .done before after) : op.Updates before after := by
  cases op with
  | insert k v => exact h.2
  | del k => exact h.2
  | search k =>
      obtain ⟨-, ⟨v, found, -⟩ | ⟨found, -⟩⟩ := h
      · cases found
      · cases found

/-- The map changes only when an insert or a delete posts the write of its leaf, and then by what
that operation does. -/
theorem leafMap_step {cfg : Config} {s s' : State} {a : Action Client Op Choice Env}
    (h : Reachable cfg s) (keys : ∀ t op, a = .invoke t op → op.key < kKeyMax)
    (step : (system cfg).step s a = some s') :
    (∀ op, PostsLeaf s op a → op.Updates (LeafMap s.shared) (LeafMap s'.shared)) ∧
      ((∀ op, ¬ PostsLeaf s op a) → LeafMap s'.shared = LeafMap s.shared) := by
  obtain ⟨g, good⟩ := h.good
  obtain ⟨g', good', effect, -⟩ := Protocol.good_step (protocol_sound .any cfg) good (may_any keys) step
  rw [good.1.tree.leafMap, good'.1.tree.leafMap]
  cases a with
  | invoke t op => exact ⟨fun _ posts => posts.elim, fun _ => effect.1⟩
  | respond t =>
      obtain ⟨op, r, -, -, -, same, -⟩ := effect
      exact ⟨fun _ posts => posts.elim, fun _ => same⟩
  | interfere e => exact ⟨fun _ posts => posts.elim, fun _ => effect.1⟩
  | advance t choice =>
      simp only [PostsLeaf]
      cases thread : s.threads t with
      | idle => simp [System.step, thread] at step
      | running op rest =>
          simp only [Protocol.Effect, thread] at effect
          cases rest with
          | ret r => simp [System.step, System.advance, thread] at step
          | fault e => simp [System.step, System.advance, thread] at step
          | call p next =>
              simp only [Prod.mk.injEq] at effect
              refine ⟨?_, fun _ => by rw [effect.1, effect.2]⟩
              rintro op' ⟨v, next', same, -⟩
              cases same
          | verb v next =>
              obtain ⟨active, guar⟩ := effect
              refine ⟨?_, fun quiet => guar.quiet fun writes => quiet op ⟨v, next, rfl, writes⟩⟩
              rintro op' ⟨v', next', same, writes⟩
              cases same
              obtain ⟨op'', fresh, effect⟩ := guar.writes writes
              have same : op'' = op := by
                simp only [postedTrack, Option.map_eq_some_iff, Prod.mk.injEq] at fresh
                obtain ⟨running, status, rfl, -⟩ := fresh
                have active : (g.status t).map Running.op = some op := active
                rw [status] at active
                exact Option.some.inj active
              exact same ▸ effect.updates

def beforePost : Schedule := insertToLock 0 5 7 ++ advances 0 2 ++ [.advance 0 (.waiter false)]

def posting (s : State) : Bool :=
  match s.threads 0 with
  | .running op (.verb (.post ws) _) => op = .insert 5 7 && ws.any fun w =>
      match w.target with
      | none => false
      | some a => match s.shared.mem a with
        | some (.leaf _) => true
        | _ => false
  | _ => false

theorem posting_eq {s : State} (h : posting s = true) (choice : Choice) :
    PostsLeaf s (.insert 5 7) (.advance 0 choice) := by
  unfold posting at h
  split at h
  · rename_i op ws next thread
    simp only [Bool.and_eq_true, decide_eq_true_eq, List.any_eq_true] at h
    obtain ⟨rfl, w, member, target⟩ := h
    refine ⟨.post ws, next, thread, w, member, ?_⟩
    split at target
    · cases target
    · rename_i a writes
      split at target
      · rename_i p page
        exact ⟨a, p, writes, page⟩
      · cases target
  · cases h

theorem leafMap_step_post : ∃ s s', (system oneLock).run (State.init ⟨1, 8⟩) beforePost = some s ∧
    (system oneLock).step s (.advance 0 .none) = some s' ∧ Rebinds 5 7 (LeafMap s.shared) (LeafMap s'.shared) := by
  have posts : (((system oneLock).run (State.init ⟨1, 8⟩) beforePost).bind fun s =>
      ((system oneLock).step s (.advance 0 .none)).map fun _ => posting s) = some true := by
    decide +kernel
  obtain ⟨s, run, later⟩ := Option.bind_eq_some_iff.mp posts
  obtain ⟨s', step, shape⟩ := Option.map_eq_some_iff.mp later
  have reachable : Reachable oneLock s := ⟨⟨1, 8⟩, beforePost, by decide, keysBelow_iff (by decide), run⟩
  exact ⟨s, s', run, step, (leafMap_step reachable (fun _ _ h => by cases h) step).1 _ (posting_eq shape .none)⟩

end Sherman
