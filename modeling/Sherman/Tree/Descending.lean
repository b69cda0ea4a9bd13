import Sherman.Tree.Searching

namespace Sherman

open Shared Concurrency

variable {m : Mode} {cfg : Config} {t : Client} {w w' : World} {k : Key}

/-! ## What a visit of a page adds to `path_stack` -/

theorem PathOk.visit {p : GlobalAddress} {l j : Nat} {x : Key} (ok : PathOk t j k w)
    (extend : Extends m w w') (linked : w.2.Linked p l x) (le : x ≤ k)
    (path : ∀ i, w'.1.path t i = if i = l then p else w.1.path t i) : PathOk t j k w' := by
  intro i low
  rw [path]
  split
  · rename_i same
    exact .inr ⟨x, le, same ▸ extend.linked _ _ _ linked⟩
  · rcases ok i low with null | ⟨y, below, linked⟩
    · exact .inl null
    · exact .inr ⟨y, below, extend.linked _ _ _ linked⟩

theorem Cover.visit {p root : GlobalAddress} {l j : Nat} (cover : Cover m t l root w)
    (extend : Extends m w w') (nonnull : p ≠ .null) (below : j ≤ l) (near : l ≤ j + 1)
    (path : ∀ i, w'.1.path t i = if i = l then p else w.1.path t i) : Cover m t j root w' := by
  obtain ⟨top, linked, full⟩ := cover
  refine ⟨top, extend.linked _ _ _ linked, fun current => ?_⟩
  obtain ⟨le, full⟩ := full current
  refine ⟨below.trans le, fun i low high => ?_⟩
  rw [path]
  split
  · exact nonnull
  · rename_i other
    exact full i (lt_of_le_of_ne (near.trans low) (Ne.symm other)) high

theorem Cover.top {root : GlobalAddress} {l : Nat} (linked : w.2.Linked root l kKeyMin) :
    Cover m t l root w := ⟨l, linked, fun _ => ⟨le_rfl, fun _ low high => absurd high (not_le.mpr low)⟩⟩

namespace Answer
variable {l : Nat} {result : SearchResult}

theorem status (h : Answer m t k l w result w')
    (other : ∀ k', (w.2.status t).map Running.op ≠ some (.search k')) : StatusLe t w w' := by
  obtain ⟨-, -, h⟩ := h
  split at h
  · exact h.1
  · split at h
    · exact h.2 other
    · exact h.1

theorem status_of_inner (h : Answer m t k l w result w') (inner : l ≠ 0) : StatusLe t w w' := by
  obtain ⟨-, -, h⟩ := h
  rw [if_neg inner] at h
  split at h
  · exact h.1
  · exact h.1

theorem sibling (h : Answer m t k l w result w') (more : result.slibing ≠ .null) :
    ∃ y, Reach m w' result.slibing l y ∧ y ≤ k := by
  obtain ⟨-, -, h⟩ := h
  rw [if_pos more] at h
  exact h.2.2

theorem child (h : Answer m t k l w result w') (last : result.slibing = .null) (inner : l ≠ 0) :
    ∃ y, Reach m w' result.nextLevel (l - 1) y ∧ y ≤ k := by
  obtain ⟨-, -, h⟩ := h
  rw [if_neg (not_not.mpr last), if_neg inner] at h
  exact h.2

end Answer

theorem Fresh.not_search {op : Op} (fresh : Fresh t op w) (other : ∀ k', op ≠ .search k') (k' : Key) :
    (w.2.status t).map Running.op ≠ some (.search k') := by
  rw [fresh]
  simpa using other k'

/-! ## The loops -/

section Loops
variable {p root : GlobalAddress} {l : Nat} {x : Key} {α : Type} {Q : α → World → Prop}

theorem runs_visit {fromCache : Bool} {next : Option SearchResult → Code α} (bound : k < kKeyMax)
    (reach : Reach m w p l x) (le : x ≤ k) (cached : fromCache = true → l = 0)
    (stale : ∀ w₁ w₂, Rely m cfg t w w₁ → Extends m w₁ w₂ → StatusLe t w₁ w₂ → fromCache = true →
      Runs m cfg t (next none) Q w₂)
    (h : ∀ w₁ w₂ result, Rely m cfg t w w₁ → Invariant m cfg w₁ → Extends m w₁ w₂ →
      (∀ b, w₁.2.owed b = some t → w₂.2.owed b = some t) → Answer m t k l w₁ result w₂ →
      (∀ i, w₂.1.path t i = if i = l then p else w₁.1.path t i) →
      Runs m cfg t (next (some result)) Q w₂) :
    Runs m cfg t (call (.pageSearch p k fromCache) >>= next) Q w := by
  refine runs_call fun w₁ rely₁ inv₁ => ?_
  have reach₁ := rely₁.extends.reach_mono reach
  refine ⟨⟨bound, l, x, reach₁, le, cached⟩, fun result w₂ ⟨extend, owed, post⟩ => ?_⟩
  cases result with
  | none => exact stale w₁ w₂ rely₁ extend post.2 post.1
  | some result =>
      obtain ⟨l', x', linked, answer, path, -⟩ := post
      obtain ⟨rfl, rfl⟩ := reach₁.1.level_eq linked
      exact h w₁ w₂ result rely₁ inv₁ extend owed answer path

theorem runs_insertNext {v : Value} (pre : Pre m cfg t (.insertNext p k v root) w) :
    Runs m cfg t (insertNext p k v root) (Post m t (.insertNext p k v root) w) w := by
  obtain ⟨bound, ⟨l, x, reach, le, cover⟩, fresh, pathOk⟩ := pre
  refine runs_visit bound reach le (fun h => by cases h) (fun _ _ _ _ _ h => by cases h) ?_
  intro w₁ w₂ result rely₁ inv₁ extend _ answer path
  have reach₁ := rely₁.extends.reach_mono reach
  have fresh₁ := rely₁.status.fresh fresh
  have fresh₂ := (answer.status (fresh₁.not_search fun _ h => by cases h)).fresh fresh₁
  have pathOk₂ := (rely₁.keeps.pathOk pathOk).visit extend reach₁.1 le path
  have reach₂ := extend.reach_mono reach₁
  have cover₂ : ∀ j, j ≤ l → l ≤ j + 1 → Cover m t j root w₂ := fun j below near =>
    (rely₁.keeps.cover cover).visit extend (inv₁.tree.ne_null reach₁.1) below near path
  obtain ⟨level, leaf, -⟩ := id answer
  have store : ∀ q y, Reach m w₂ q 0 y → y ≤ k → Cover m t 0 root w₂ →
      Runs m cfg t (do let _ ← call (.leafPageStore q k v root 0 false))
        (Post m t (.insertNext p k v root) w) w₂ := by
    intro q y reach le cover
    refine runs_call fun w₃ rely₃ _ => ⟨⟨rfl, bound, ⟨y, rely₃.extends.reach_mono reach, le⟩,
      rely₃.status.fresh fresh₂, ?_⟩, fun stored w₄ post => runs_ret fun w₅ rely₅ _ => ?_⟩
    · unfold Route
      rw [if_neg (by simp)]
      exact ⟨rely₃.keeps.pathOk pathOk₂, rely₃.keeps.cover cover⟩
    · cases stored with
      | false => cases post.1
      | true => exact rely₅.status.committed post
  have loop : ∀ q l' y, Reach m w₂ q l' y → y ≤ k → Cover m t l' root w₂ →
      Runs m cfg t (call (.insertNext q k v root)) (Post m t (.insertNext p k v root) w) w₂ := by
    intro q l' y reach le cover
    refine runs_lastCall fun w₃ rely₃ _ => ⟨⟨bound, ⟨l', y, rely₃.extends.reach_mono reach, le,
      rely₃.keeps.cover cover⟩, rely₃.status.fresh fresh₂,
      rely₃.keeps.pathOk pathOk₂⟩, fun _ w₄ w₅ post rely₅ _ => ?_⟩
    exact rely₅.status.committed post
  dsimp only
  split
  · rename_i isLeaf
    obtain rfl := leaf.mp isLeaf
    exact store p x reach₂ le (cover₂ 0 le_rfl (Nat.zero_le _))
  · rename_i notLeaf
    have inner : l ≠ 0 := fun h => notLeaf (leaf.mpr h)
    refine runs_assert (level ▸ inner) ?_
    split
    · rename_i more
      obtain ⟨y, next, le⟩ := answer.sibling more
      exact loop _ l y next le (cover₂ l le_rfl (Nat.le_succ l))
    · rename_i last
      obtain ⟨y, next, le⟩ := answer.child (not_not.mp last) inner
      have cover := cover₂ (l - 1) (Nat.sub_le l 1) (by omega)
      split
      · exact loop _ (l - 1) y next le cover
      · rename_i one
        have one : l = 1 := level.symm.trans (not_not.mp one)
        subst one
        exact store _ y next le cover

theorem runs_delNext (pre : Pre m cfg t (.delNext p k) w) :
    Runs m cfg t (delNext p k) (Post m t (.delNext p k) w) w := by
  obtain ⟨bound, ⟨l, x, reach, le⟩, fresh⟩ := pre
  refine runs_visit bound reach le (fun h => by cases h) (fun _ _ _ _ _ h => by cases h) ?_
  intro w₁ w₂ result rely₁ inv₁ extend _ answer path
  have reach₂ := extend.reach_mono (rely₁.extends.reach_mono reach)
  have fresh₁ := rely₁.status.fresh fresh
  have fresh₂ := (answer.status (fresh₁.not_search fun _ h => by cases h)).fresh fresh₁
  obtain ⟨level, leaf, -⟩ := id answer
  have delete : ∀ q y, Reach m w₂ q 0 y → y ≤ k →
      Runs m cfg t (do let _ ← call (.leafPageDel q k 0 false)) (Post m t (.delNext p k) w) w₂ := by
    intro q y reach le
    refine runs_call fun w₃ rely₃ _ => ⟨⟨rfl, bound, ⟨y, rely₃.extends.reach_mono reach, le⟩,
      rely₃.status.fresh fresh₂⟩, fun deleted w₄ post => runs_ret fun w₅ rely₅ _ => ?_⟩
    cases deleted with
    | false => cases post.1
    | true => exact rely₅.status.committed post
  have loop : ∀ q l' y, Reach m w₂ q l' y → y ≤ k →
      Runs m cfg t (call (.delNext q k)) (Post m t (.delNext p k) w) w₂ := by
    intro q l' y reach le
    refine runs_lastCall fun w₃ rely₃ _ => ⟨⟨bound, ⟨l', y, rely₃.extends.reach_mono reach, le⟩,
      rely₃.status.fresh fresh₂⟩, fun _ w₄ w₅ post rely₅ _ => ?_⟩
    exact rely₅.status.committed post
  dsimp only
  split
  · rename_i isLeaf
    obtain rfl := leaf.mp isLeaf
    exact delete p x reach₂ le
  · rename_i notLeaf
    have inner : l ≠ 0 := fun h => notLeaf (leaf.mpr h)
    refine runs_assert (level ▸ inner) ?_
    split
    · rename_i more
      obtain ⟨y, next, le⟩ := answer.sibling more
      exact loop _ l y next le
    · rename_i last
      obtain ⟨y, next, le⟩ := answer.child (not_not.mp last) inner
      split
      · exact loop _ (l - 1) y next le
      · rename_i one
        have one : l = 1 := level.symm.trans (not_not.mp one)
        subst one
        exact delete _ y next le

theorem runs_searchNext {entry : Option CacheEntry} (pre : Pre m cfg t (.searchNext p k root entry) w) :
    Runs m cfg t (searchNext p k root entry) (Post m t (.searchNext p k root entry) w) w := by
  obtain ⟨bound, ⟨l, x, reach, le, cached⟩, ⟨top, rootReach⟩, fresh⟩ := pre
  have loop : ∀ w₂ q l' y (entry' : Option CacheEntry), Extends m w w₂ → Reach m w₂ q l' y → y ≤ k →
      (entry'.isSome = true → l' = 0) → Fresh t (.search k) w₂ →
      Runs m cfg t (call (.searchNext q k root entry')) (Post m t (.searchNext p k root entry) w) w₂ := by
    intro w₂ q l' y entry' extend reach le cached fresh₂
    refine runs_lastCall fun w₃ rely₃ _ => ⟨⟨bound, ⟨l', y, rely₃.extends.reach_mono reach, le, cached⟩,
      ⟨top, (extend.trans rely₃.extends).reach_mono rootReach⟩, rely₃.status.fresh fresh₂⟩,
      fun _ w₄ w₅ post rely₅ _ => ?_⟩
    exact rely₅.status.searched post
  refine runs_visit bound reach le cached (fun w₁ w₂ rely₁ extend status stale => ?_) ?_
  · cases entry with
    | none => cases stale
    | some e =>
        have fresh₂ := status.fresh (rely₁.status.fresh fresh)
        refine runs_invalidate fun w₃ keeps₃ => ?_
        have extend₃ := (rely₁.extends.trans extend).trans keeps₃.toExtends
        exact loop w₃ root top kKeyMin none extend₃ (extend₃.reach_mono rootReach) (Nat.zero_le k)
          (fun h => by cases h) (keeps₃.status.fresh fresh₂)
  · intro w₁ w₂ result rely₁ inv₁ extend _ answer path
    have fresh₁ := rely₁.status.fresh fresh
    have extend₂ := rely₁.extends.trans extend
    obtain ⟨level, leaf, outcome⟩ := id answer
    dsimp only
    split
    · rename_i isLeaf
      obtain rfl := leaf.mp isLeaf
      split at outcome
      · rename_i more
        obtain ⟨status, null, y, next, le⟩ := outcome
        rw [if_neg (not_not.mpr null), if_pos more]
        exact loop w₂ _ 0 y entry extend₂ next le (fun _ => rfl) (status.fresh fresh₁)
      · rename_i last
        rw [if_pos rfl] at outcome
        have searched := outcome.1 fresh₁
        unfold found at searched
        split
        · rename_i value
          rw [if_neg value] at searched
          exact runs_ret fun w₃ rely₃ _ => rely₃.status.searched searched
        · rename_i null
          rw [if_pos (not_not.mp null)] at searched
          exact runs_ret fun w₃ rely₃ _ => rely₃.status.searched searched
    · rename_i notLeaf
      have inner : l ≠ 0 := fun h => notLeaf (leaf.mpr h)
      have direct : ∀ l', entry.isSome = true → l' = 0 := fun _ h => absurd (cached h) inner
      have fresh₂ := (answer.status_of_inner inner).fresh fresh₁
      by_cases more : result.slibing ≠ .null
      · obtain ⟨y, next, le⟩ := answer.sibling more
        rw [if_pos more]
        exact loop w₂ _ l y entry extend₂ next le (direct l) fresh₂
      · obtain ⟨y, next, le⟩ := answer.child (not_not.mp more) inner
        rw [if_neg more]
        exact loop w₂ _ (l - 1) y entry extend₂ next le (direct (l - 1)) fresh₂

theorem runs_insertInternalNext {v : GlobalAddress} {level : Nat}
    (pre : Pre m cfg t (.insertInternalNext p k v root level) w) :
    Runs m cfg t (insertInternalNext p k v root level)
      (Post m t (.insertInternalNext p k v root level) w) w := by
  obtain ⟨nonzero, ⟨l, x, reach, le, above, cover⟩, child, owed, pathOk⟩ := pre
  refine runs_of_rely fun w₀ rely₀ inv₀ => ?_
  have reach₀ := rely₀.extends.reach_mono reach
  obtain ⟨page, mem, -, lowest⟩ := inv₀.tree.linked_mem (rely₀.linked _ _ _ child)
  have ok := (inv₀.tree.mem_sound v page mem).ok
  have bound : k < kKeyMax := lowest ▸ ok.fence.trans_le ok.highest_le
  refine runs_visit bound reach₀ le (fun h => by cases h) (fun _ _ _ _ _ h => by cases h) ?_
  intro w₁ w₂ result rely₁ inv₁ extend owed₂ answer path
  have rely := rely₀.trans rely₁
  have child₂ := extend.linked _ _ _ (rely.linked _ _ _ child)
  have paid := owed₂ v (rely.owed v owed)
  have pathOk₂ := (rely.keeps.pathOk pathOk).visit extend (rely₁.linked _ _ _ reach₀.1) le path
  have cover₂ : ∀ j, j ≤ l → l ≤ j + 1 → Cover m t j root w₂ := fun j below near =>
    (rely.keeps.cover cover).visit extend (inv₁.tree.ne_null (rely₁.linked _ _ _ reach₀.1)) below near path
  obtain ⟨levelEq, -, -⟩ := id answer
  dsimp only
  refine runs_check (fun bottom => .inr (.inr ⟨fun high => ?_, rfl⟩)) fun inner => ?_
  · have := above high
    omega
  have inner : l ≠ 0 := levelEq ▸ inner
  have status₂ : StatusLe t w w₂ := rely.status.trans (answer.status_of_inner inner)
  have loop : ∀ q l' y, Reach m w₂ q l' y → y ≤ k → (m.high → level + 1 ≤ l') →
      Cover m t l' root w₂ →
      Runs m cfg t (call (.insertInternalNext q k v root level))
        (Post m t (.insertInternalNext p k v root level) w) w₂ := by
    intro q l' y reach le above cover
    refine runs_lastCall fun w₃ rely₃ _ => ⟨⟨nonzero, ⟨l', y, rely₃.extends.reach_mono reach, le, above,
      rely₃.keeps.cover cover⟩, rely₃.linked _ _ _ child₂, rely₃.owed v paid,
      rely₃.keeps.pathOk pathOk₂⟩, fun _ w₄ w₅ post rely₅ _ => ?_⟩
    exact status₂.trans (rely₃.status.trans (post.trans rely₅.status))
  split
  · rename_i more
    obtain ⟨y, next, le⟩ := answer.sibling more
    exact loop _ l y next le above (cover₂ l le_rfl (Nat.le_succ l))
  · rename_i last
    obtain ⟨y, next, le⟩ := answer.child (not_not.mp last) inner
    have cover := cover₂ (l - 1) (Nat.sub_le l 1) (by omega)
    split
    · rename_i far
      refine loop _ (l - 1) y next le (fun high => ?_) cover
      have := above high
      omega
    · rename_i near
      have near : l - 1 = level := by omega
      rw [near] at next cover
      refine runs_lastCall fun w₃ rely₃ _ => ⟨⟨nonzero, ⟨y, rely₃.linked _ _ _ next.1, le⟩,
        rely₃.linked _ _ _ child₂, rely₃.owed v paid, rely₃.keeps.pathOk pathOk₂,
        rely₃.keeps.cover cover⟩, fun _ w₄ w₅ post rely₅ _ => ?_⟩
      exact status₂.trans (rely₃.status.trans (post.trans rely₅.status))

end Loops
end Sherman
