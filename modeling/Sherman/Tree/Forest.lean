import Sherman.Tree.Sequential

/-!
# Several trees on one memory

The trees share the memory nodes, the allocator, the lock words and the directories. Each has its own
root slot and index cache. A client works on one tree. A directory processes the `NEW_ROOT` messages of
all trees alike.
-/

namespace Sherman

open Shared Concurrency

abbrev TreeID := Nat

structure Forest where
  mem : GlobalAddress → Option Page
  roots : TreeID → GlobalAddress
  pending : List Posted
  lock : GlobalAddress → Option (Client × Bool)
  allocated : List GlobalAddress
  sent : TreeID → List (GlobalAddress × Nat)
  dir : NodeID → Directory
  cache : TreeID → NodeID → IndexCache
  path : Client → Nat → GlobalAddress

namespace Forest

def tree (f : Forest) (i : TreeID) : Shared where
  mem := f.mem
  rootPtr := f.roots i
  pending := f.pending
  lock := f.lock
  allocated := f.allocated
  sent := f.sent i
  dir := f.dir
  cache := f.cache i
  path := f.path

def setTree (f : Forest) (i : TreeID) (s : Shared) : Forest where
  mem := s.mem
  roots := Function.update f.roots i s.rootPtr
  pending := s.pending
  lock := s.lock
  allocated := s.allocated
  sent := Function.update f.sent i s.sent
  dir := s.dir
  cache := Function.update f.cache i s.cache
  path := s.path

def init (n : Nat) (roots : TreeID → GlobalAddress) : Forest where
  mem := fun a => if a ∈ (List.range n).map roots then some (.leaf (LeafPage.new 0).setConsistent) else none
  roots := roots
  pending := []
  lock := fun _ => none
  allocated := (List.range n).map roots
  sent := fun _ => []
  dir := fun _ => { gRootPtr := .null, gRootLevel := -1, enableCache := false }
  cache := fun _ _ => []
  path := fun _ _ => .null

end Forest

def forest (cfg : Config) (treeOf : Client → TreeID) :
    System signature Client Op Result Forest Choice (TreeID × Env) where
  body := body cfg
  main := main
  perform c v choice f := (perform cfg c v choice (f.tree (treeOf c))).map fun x =>
    (x.1, f.setTree (treeOf c) x.2)
  interfere e f := (interfere e.2 (f.tree e.1)).map (f.setTree e.1)

abbrev ForestState := Concurrency.State signature Client Op Result Forest

abbrev ForestAction := Action Client Op Choice (TreeID × Env)

def ForestState.init (n : Nat) (roots : TreeID → GlobalAddress) : ForestState where
  shared := .init n roots
  threads := fun _ => .idle

/-! ## One tree of the forest -/

section Part
variable {cfg : Config} {treeOf : Client → TreeID} {i k : TreeID} {f : Forest} {s : Shared} {c : Client}

structure Part (cfg : Config) (treeOf : Client → TreeID) (i : TreeID) (f : Forest) (s : Shared) : Prop where
  root : s.rootPtr = f.roots i
  pending : s.pending = f.pending.filter fun z => treeOf z.client = i
  lock : ∀ la, s.lock la = (f.lock la).filter fun o => treeOf o.1 = i
  dir : ∀ c, treeOf c = i → s.dir (cfg.nodeOf c) = f.dir (cfg.nodeOf c)
  sent : s.sent = f.sent i
  cache : s.cache = f.cache i
  path : ∀ c, treeOf c = i → s.path c = f.path c
  mem : ∀ a ∈ s.allocated, s.mem a = f.mem a
  allocated : ∀ a ∈ s.allocated, a ∈ f.allocated

theorem Part.drained (h : Part cfg treeOf i f s) {n : NodeID} (drained : (f.tree i).drained c n) : s.drained c n := by
  intro z hz
  rw [h.pending] at hz
  exact drained z (List.mem_of_mem_filter hz)

theorem Part.lock_none (h : Part cfg treeOf i f s) {la : GlobalAddress} (free : f.lock la = none) : s.lock la = none := by
  rw [h.lock, free]
  rfl

theorem Part.lock_own (h : Part cfg treeOf i f s) {la : GlobalAddress} {b : Bool} (own : treeOf c = i) :
    s.lock la = some (c, b) ↔ f.lock la = some (c, b) := by
  rw [h.lock, Option.filter_eq_some_iff]
  simp [own]

theorem Part.congr (h : Part cfg treeOf k f s) {f' : Forest} (root : f'.roots k = f.roots k)
    (pending : (f'.pending.filter fun z => treeOf z.client = k) = f.pending.filter fun z => treeOf z.client = k)
    (lock : ∀ la, ((f'.lock la).filter fun o => treeOf o.1 = k) = (f.lock la).filter fun o => treeOf o.1 = k)
    (dir : ∀ c, treeOf c = k → f'.dir (cfg.nodeOf c) = f.dir (cfg.nodeOf c)) (sent : f'.sent k = f.sent k)
    (cache : f'.cache k = f.cache k) (path : ∀ c, treeOf c = k → f'.path c = f.path c)
    (mem : ∀ a ∈ s.allocated, f'.mem a = f.mem a) (allocated : ∀ a ∈ f.allocated, a ∈ f'.allocated) :
    Part cfg treeOf k f' s :=
  ⟨h.root.trans root.symm, h.pending.trans pending.symm, fun la => (h.lock la).trans (lock la).symm,
    fun c own => (h.dir c own).trans (dir c own).symm, h.sent.trans sent.symm, h.cache.trans cache.symm,
    fun c own => (h.path c own).trans (path c own).symm,
    fun a ha => (h.mem a ha).trans (mem a ha).symm, fun a ha => allocated a (h.allocated a ha)⟩

structure Touches (c : Client) (s s' : Shared) : Prop where
  mem : s'.mem = s.mem
  dir : s'.dir = s.dir
  path : ∀ u, u ≠ c → s'.path u = s.path u
  pending : ∃ ws : List Write, s'.pending = s.pending ++ ws.map (⟨c, ·⟩)
  lock : ∀ la, s'.lock la = s.lock la ∨ (s.lock la = none ∨ ∃ b, s.lock la = some (c, b)) ∧
    (s'.lock la = none ∨ ∃ b, s'.lock la = some (c, b))
  allocated : ∀ a ∈ s.allocated, a ∈ s'.allocated

theorem Touches.refl (c : Client) (s : Shared) : Touches c s s :=
  ⟨rfl, rfl, fun _ _ => rfl, ⟨[], by simp⟩, fun _ => .inl rfl, fun _ h => h⟩

theorem touches_lock {la : GlobalAddress} {o : Option (Client × Bool)}
    (before : s.lock la = none ∨ ∃ b, s.lock la = some (c, b)) (after : o = none ∨ ∃ b, o = some (c, b)) :
    Touches c s { s with lock := Function.update s.lock la o } := by
  refine ⟨rfl, rfl, fun _ _ => rfl, ⟨[], by simp⟩, fun la' => ?_, fun _ h => h⟩
  by_cases same : la' = la
  · subst same
    simp only [Function.update_self]
    exact .inr ⟨before, after⟩
  · exact .inl (Function.update_of_ne same _ _)

theorem perform_touches {v : Verb} {choice : Choice} {r : Resp v} {s' : Shared}
    (decides : ∀ la, v = .canHandOver la → ∃ b, s.lock la = some (c, b))
    (step : perform cfg c v choice s = some (r, s')) : Touches c s s' := by
  cases v with
  | beforeOperation =>
      cases step
      exact ⟨rfl, rfl, fun u ne => Function.update_of_ne ne _ _, ⟨[], by simp⟩, fun _ => .inl rfl, fun _ h => h⟩
  | storePath level a =>
      cases step
      exact ⟨rfl, rfl, fun u ne => Function.update_of_ne ne _ _, ⟨[], by simp⟩, fun _ => .inl rfl, fun _ h => h⟩
  | loadPath level => cases step; exact .refl c s
  | loadRoot => cases step; exact .refl c s
  | loadEnableCache => cases step; exact .refl c s
  | searchFromCache k => cases step; exact .refl c s
  | addToCache p => cases step; exact { Touches.refl c s with }
  | invalidate e => cases step; exact { Touches.refl c s with }
  | broadcastNewRoot a level => cases step; exact { Touches.refl c s with }
  | readRoot =>
      simp only [perform] at step
      split at step
      · cases step; exact .refl c s
      · cases step
  | readPage a =>
      simp only [perform] at step
      split at step
      · cases step; exact .refl c s
      · cases step
  | poll n =>
      simp only [perform] at step
      split at step
      · cases step; exact .refl c s
      · cases step
  | alloc =>
      cases choice with
      | none => cases step
      | waiter b => cases step
      | fresh a =>
          simp only [perform] at step
          split at step
          · cases step
            exact { Touches.refl c s with allocated := fun _ h => List.mem_cons_of_mem _ h }
          · cases step
  | tryLock la =>
      simp only [perform] at step
      split at step
      · rename_i free
        cases step
        exact touches_lock (.inl free) (.inr ⟨_, rfl⟩)
      · cases step
  | canHandOver la =>
      cases choice with
      | none => cases step
      | fresh a => cases step
      | waiter b =>
          cases step
          obtain ⟨b', owned⟩ := decides la rfl
          exact touches_lock (.inr ⟨b', owned⟩) (.inr ⟨_, by rw [owned]; rfl⟩)
  | releaseLocalLock la =>
      simp only [perform] at step
      split at step
      · rename_i owned
        cases step
        exact touches_lock (.inr ⟨_, owned⟩) (.inl rfl)
      · cases step; exact .refl c s
  | post ws =>
      cases step
      exact { Touches.refl c s with pending := ⟨ws, rfl⟩ }
  | casRoot old new =>
      simp only [perform] at step
      split at step
      · split at step
        · cases step; exact { Touches.refl c s with }
        · cases step; exact .refl c s
      · cases step

theorem Part.other (h : Part cfg treeOf k f s) (own : treeOf c = i) (ne : k ≠ i) {s' : Shared}
    (touches : Touches c (f.tree i) s') : Part cfg treeOf k (f.setTree i s') s := by
  have foreign : ∀ b, Option.filter (fun o : Client × Bool => decide (treeOf o.1 = k)) (some (c, b)) = none := by
    intro b
    simp [Option.filter, own, Ne.symm ne]
  obtain ⟨ws, pending⟩ := touches.pending
  refine h.congr (Function.update_of_ne ne _ _) ?_ (fun la => ?_) (fun _ _ => congrFun touches.dir _)
    (Function.update_of_ne ne _ _) (Function.update_of_ne ne _ _)
    (fun u ownU => touches.path u fun same => ?_) (fun a _ => congrFun touches.mem a) touches.allocated
  · simp only [Forest.setTree, pending, List.filter_append, Forest.tree]
    have none : ((ws.map (⟨c, ·⟩ : Write → Posted)).filter fun z => treeOf z.client = k) = [] := by
      refine List.filter_eq_nil_iff.mpr fun z hz => ?_
      obtain ⟨w, -, rfl⟩ := List.mem_map.mp hz
      simp [own, Ne.symm ne]
    rw [none, List.append_nil]
  · rcases touches.lock la with same | ⟨before, after⟩
    · exact congrArg _ same
    · have hidden : ∀ o : Option (Client × Bool), (o = none ∨ ∃ b, o = some (c, b)) →
          Option.filter (fun o : Client × Bool => decide (treeOf o.1 = k)) o = none := by
        rintro o (rfl | ⟨b, rfl⟩)
        · rfl
        · exact foreign b
      exact (hidden _ after).trans (hidden _ before).symm
  · subst same
    exact ne (ownU.symm.trans own)

theorem Part.perform (h : Part cfg treeOf i f s) (own : treeOf c = i) {v : Verb} {choice : Choice} {r : Resp v}
    {s' : Shared} (reads : ∀ a, v = .readPage a → a ∈ s.allocated)
    (unused : ∀ a, a ∉ f.allocated → s.mem a = f.mem a)
    (step : perform cfg c v choice (f.tree i) = some (r, s')) :
    ∃ σ, perform cfg c v choice s = some (r, σ) ∧ Part cfg treeOf i (f.setTree i s') σ ∧
      ∀ a ∈ σ.allocated, a ∈ s.allocated ∨ a ∉ f.allocated := by
  have same : Part cfg treeOf i (f.setTree i (f.tree i)) s :=
    h.congr (Function.update_self ..) rfl (fun _ => rfl) (fun _ _ => rfl) (Function.update_self ..)
      (Function.update_self ..) (fun _ _ => rfl) (fun _ _ => rfl) fun _ ha => ha
  have old : ∀ a ∈ s.allocated, a ∈ s.allocated ∨ a ∉ f.allocated := fun a ha => .inl ha
  cases v with
  | beforeOperation =>
      cases step
      refine ⟨_, rfl, { same with path := fun u ownU => ?_ }, old⟩
      by_cases eq : u = c
      · subst eq
        simp [Forest.setTree]
      · simp [Forest.setTree, Forest.tree, eq, h.path u ownU]
  | storePath level a =>
      cases step
      refine ⟨_, rfl, { same with path := fun u ownU => ?_ }, old⟩
      by_cases eq : u = c
      · subst eq
        simp [Forest.setTree, Forest.tree, h.path u own]
      · simp [Forest.setTree, Forest.tree, eq, h.path u ownU]
  | loadPath level =>
      cases step
      exact ⟨s, by simp [Sherman.perform, h.path c own, Forest.tree], same, old⟩
  | loadRoot =>
      cases step
      exact ⟨s, by simp [Sherman.perform, h.dir c own, Forest.tree], same, old⟩
  | loadEnableCache =>
      cases step
      exact ⟨s, by simp [Sherman.perform, h.dir c own, Forest.tree], same, old⟩
  | searchFromCache k =>
      cases step
      exact ⟨s, by simp [Sherman.perform, h.cache, Forest.tree], same, old⟩
  | addToCache p =>
      cases step
      refine ⟨_, rfl, { same with cache := ?_ }, old⟩
      simp [Forest.setTree, Forest.tree, h.cache]
  | invalidate e =>
      cases step
      refine ⟨_, rfl, { same with cache := ?_ }, old⟩
      simp [Forest.setTree, Forest.tree, h.cache]
  | broadcastNewRoot a level =>
      cases step
      exact ⟨_, rfl, { same with sent := by simp [Forest.setTree, Forest.tree, h.sent] }, old⟩
  | readRoot =>
      simp only [Sherman.perform] at step
      split at step
      · rename_i drained
        cases step
        refine ⟨s, ?_, same, old⟩
        simp [Sherman.perform, h.drained drained, h.root, Forest.tree]
      · cases step
  | readPage a =>
      simp only [Sherman.perform] at step
      split at step
      · rename_i drained
        cases step
        refine ⟨s, ?_, same, old⟩
        simp [Sherman.perform, h.drained drained, h.mem a (reads a rfl), Forest.tree]
      · cases step
  | poll n =>
      simp only [Sherman.perform] at step
      split at step
      · rename_i drained
        cases step
        exact ⟨s, by simp [Sherman.perform, h.drained drained], same, old⟩
      · cases step
  | alloc =>
      cases choice with
      | none => cases step
      | waiter b => cases step
      | fresh a =>
          simp only [Sherman.perform] at step
          split at step
          · rename_i fresh
            cases step
            have new : r ≠ .null ∧ r ∉ s.allocated := ⟨fresh.1, fun ha => fresh.2 (h.allocated _ ha)⟩
            refine ⟨{ s with allocated := r :: s.allocated }, by simp only [Sherman.perform, if_pos new],
              { same with mem := fun b hb => ?_, allocated := fun b hb => ?_ }, fun b hb => ?_⟩
            · rcases List.mem_cons.mp hb with rfl | hb
              · exact unused _ fresh.2
              · exact h.mem b hb
            · rcases List.mem_cons.mp hb with rfl | hb
              · exact List.mem_cons_self ..
              · exact List.mem_cons_of_mem _ (h.allocated b hb)
            · rcases List.mem_cons.mp hb with rfl | hb
              · exact .inr fresh.2
              · exact .inl hb
          · cases step
  | tryLock la =>
      simp only [Sherman.perform] at step
      split at step
      · rename_i free
        cases step
        have free' : s.lock la = none := h.lock_none free
        refine ⟨{ s with lock := Function.update s.lock la (some (c, false)) },
          by simp only [Sherman.perform, if_pos free'], { same with lock := fun la' => ?_ }, old⟩
        by_cases eq : la' = la
        · subst eq
          simp [Forest.setTree, Forest.tree, own, Option.filter]
        · simp [Forest.setTree, Forest.tree, eq, h.lock]
      · cases step
  | canHandOver la =>
      cases choice with
      | none => cases step
      | fresh a => cases step
      | waiter b =>
          cases step
          refine ⟨_, rfl, { same with lock := fun la' => ?_ }, old⟩
          by_cases eq : la' = la
          · subst eq
            simp only [Forest.setTree, Forest.tree, Function.update_self, h.lock]
            cases f.lock la' with
            | none => rfl
            | some o => by_cases mine : treeOf o.1 = i <;> simp [Option.filter, mine]
          · simp [Forest.setTree, Forest.tree, eq, h.lock]
  | releaseLocalLock la =>
      simp only [Sherman.perform] at step
      split at step
      · rename_i owned
        cases step
        have owned' : s.lock la = some (c, true) := (h.lock_own own).mpr owned
        refine ⟨{ s with lock := Function.update s.lock la none },
          by simp only [Sherman.perform, if_pos owned'], { same with lock := fun la' => ?_ }, old⟩
        by_cases eq : la' = la
        · subst eq
          simp [Forest.setTree, Forest.tree, Option.filter]
        · simp [Forest.setTree, Forest.tree, eq, h.lock]
      · rename_i free
        cases step
        have free' : ¬ s.lock la = some (c, true) := fun owned => free ((h.lock_own own).mp owned)
        exact ⟨s, by simp only [Sherman.perform, if_neg free'], same, old⟩
  | post ws =>
      cases step
      refine ⟨_, rfl, { same with pending := ?_ }, old⟩
      simp only [Forest.setTree, Forest.tree, List.filter_append, h.pending]
      congr 1
      refine (List.filter_eq_self.mpr fun z hz => ?_).symm
      obtain ⟨w, -, rfl⟩ := List.mem_map.mp hz
      simp [own]
  | casRoot old' new =>
      simp only [Sherman.perform] at step
      split at step
      · rename_i drained
        have drained' := h.drained drained
        split at step
        · rename_i current
          cases step
          have current' : s.rootPtr = old' := h.root.trans current
          refine ⟨{ s with rootPtr := new }, by simp only [Sherman.perform, if_pos drained', if_pos current'],
            { same with root := ?_ }, old⟩
          simp [Forest.setTree]
        · rename_i outdated
          cases step
          have outdated' : ¬ s.rootPtr = old' := fun current => outdated (h.root.symm.trans current)
          exact ⟨s, by simp only [Sherman.perform, if_pos drained', if_neg outdated'], same, old⟩
      · cases step

end Part
end Sherman
