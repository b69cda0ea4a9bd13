import Sherman.Tree.Storing

namespace Sherman

open Shared Concurrency

variable {m : Mode} {cfg : Config} {t : Client} {w : World}

/-! ## A new root -/

theorem runs_updateNewRoot {root v : GlobalAddress} {splitKey : Key} {level : Nat}
    {Q : Bool → World → Prop} (linked : w.2.Linked root level kKeyMin)
    (linkedV : w.2.Linked v level splitKey) (owed : w.2.owed v = some t)
    (swapped : ∀ w', StatusLe t w w' → Q true w')
    (failed : ∀ w', Keeps m t w w' → ¬ m.current → Q false w') :
    Runs m cfg t (updateNewRoot root splitKey v (level + 1) root) Q w := by
  refine runs_alloc fun w₁ b steady₁ inv₁ new₁ => ?_
  have linked₁ := steady₁.linked _ _ _ linked
  have linkedV₁ := steady₁.linked _ _ _ linkedV
  have ok : (InternalPage.newRoot root splitKey v (level + 1)).setConsistent.Ok := by
    obtain ⟨l, x, start, above⟩ := (inv₁.tree.owed v t (steady₁.owed v owed)).1
    rw [(start.level_eq linkedV₁).2] at above
    exact InternalPage.newRoot_ok (Nat.succ_ne_zero level) above (inv₁.tree.start_lt linkedV₁)
  refine runs_bind (runs_writeSync new₁ ok ⟨.inl ⟨rfl, rfl⟩, fun c x h => ?_⟩ fun w₂ steady₂ _ written₂ => ?_)
  · rcases InternalPage.newRoot_child h with ⟨rfl, rfl⟩ | ⟨rfl, rfl⟩
    · exact linked₁
    · exact linkedV₁
  have steady := steady₁.trans steady₂
  refine runs_frame (fun _ _ _ => ⟨id, trivial⟩) fun w₃ rely₃ inv₃ may choice r s step => ?_
  have steady₃ := steady.trans rely₃.steady
  simp only [perform] at step
  split at step
  · split at step
    · rename_i isRoot
      cases step
      let g' : Ghost :=
        { w₃.2 with
          owner := Function.update w₃.2.owner b none
          owed := Function.update (Function.update w₃.2.owed v none) b none }
      have written₃ := rely₃.written written₂
      have linking : Linking t w₃.2 b v none g' := ⟨rfl, rfl, rfl, rfl⟩
      have frame := frame_swapRoot inv₃ may.1 isRoot (steady₃.linked _ _ _ linked)
        (steady₃.linked _ _ _ linkedV) (steady₃.owed v owed) (fun vis => may.2.1 vis trivial) written₃
        linking rfl
      refine ⟨g', frame, runs_frame (fun _ _ _ => ⟨id, trivial⟩) fun w₄ rely₄ inv₄ _ choice r s step => ?_⟩
      cases step
      have newRoot := rely₄.linked _ _ _ (linking.linked_new inv₃ written₃)
      have broadcast := frame_broadcast (t := t) inv₄ (Nat.le_add_left 1 _) newRoot
      refine ⟨w₄.2, broadcast, runs_ret fun w₅ rely₅ _ => swapped w₅ ?_⟩
      refine steady₃.status.trans (.trans (.inl (congrFun frame.status t)) (rely₄.status.trans ?_))
      exact .trans (.inl (congrFun broadcast.status t)) rely₅.status
    · rename_i outdated
      cases step
      refine ⟨w₃.2, .refl inv₃, runs_ret fun w₄ rely₄ _ => failed w₄ (steady₃.toKeeps.trans rely₄.keeps) ?_⟩
      exact fun current => outdated (may.2.2 current _ _ rfl)
  · cases step

/-! ## The parent level -/

def HasParent (m : Mode) (t : Client) (level : Nat) (root : GlobalAddress) (w : World) : Prop :=
  Cover m t (level + 1) root w ∧ (m.current → w.1.path t (level + 1) ≠ .null)

theorem Keeps.hasParent {w' : World} (h : Keeps m t w w') {level : Nat} {root : GlobalAddress}
    (parent : HasParent m t level root w) : HasParent m t level root w' := by
  refine ⟨h.cover parent.1, ?_⟩
  rw [h.path]
  exact parent.2

theorem Cover.hasParent {level : Nat} {root : GlobalAddress} (cover : Cover m t level root w)
    (below : m.current → ¬ w.2.Linked root level kKeyMin) : HasParent m t level root w := by
  obtain ⟨top, linked, full⟩ := cover
  have above : m.current → level + 1 ≤ top := fun current =>
    lt_of_le_of_ne (full current).1 fun same => below current (same ▸ linked)
  refine ⟨⟨top, linked, fun current => ⟨above current, fun i low high => ?_⟩⟩, fun current => ?_⟩
  · exact (full current).2 i (Nat.lt_of_succ_lt low) high
  · exact (full current).2 _ (Nat.lt_succ_self level) (above current)

section Parent
variable {a v root : GlobalAddress} {splitKey : Key} {level : Nat} {Q : Unit → World → Prop}

theorem runs_loadPath {l : Nat} {next : GlobalAddress → Code Unit}
    (h : ∀ w', Rely m cfg t w w' → Invariant m cfg w' → Runs m cfg t (next (w'.1.path t l)) Q w') :
    Runs m cfg t (loadPath l >>= next) Q w := by
  unfold loadPath
  split
  · exact runs_load (fun s => s.path t l) (fun _ _ => rfl) (fun _ => ⟨id, trivial⟩) h
  · exact runs_bind (runs_stop fun _ _ _ => .inl rfl)

theorem runs_upLevel (linked : w.2.Linked v level splitKey) (owed : w.2.owed v = some t)
    (pathOk : PathOk t level splitKey w) (cover : Cover m t (level + 1) root w)
    (nonnull : w.1.path t (level + 1) ≠ .null) (h : ∀ w', StatusLe t w w' → Q () w') :
    Runs m cfg t (call (.internalPageStore (w.1.path t (level + 1)) splitKey v root (level + 1))) Q w := by
  refine runs_lastCall fun w₁ rely₁ _ => ⟨⟨Nat.succ_ne_zero level, ?_, rely₁.linked _ _ _ linked,
    rely₁.owed v owed, fun i low => rely₁.keeps.pathOk pathOk i (Nat.le_of_succ_le low),
    rely₁.keeps.cover cover⟩, fun _ w₂ w₃ post rely₃ _ => ?_⟩
  · obtain ⟨x, le, parent⟩ := (pathOk (level + 1) (Nat.le_succ level)).resolve_left nonnull
    exact ⟨x, rely₁.linked _ _ _ parent, le⟩
  · exact h w₃ (rely₁.status.trans (post.trans rely₃.status))

theorem runs_internalParentStore (linked : w.2.Linked v level splitKey) (owed : w.2.owed v = some t)
    (pathOk : PathOk t level splitKey w) (parent : HasParent m t level root w)
    (h : ∀ w', StatusLe t w w' → Q () w') :
    Runs m cfg t (internalParentStore splitKey v root level) Q w := by
  refine runs_loadPath fun w₁ rely₁ _ => ?_
  have parent₁ := rely₁.keeps.hasParent parent
  split
  · rename_i nonnull
    exact runs_upLevel (rely₁.linked _ _ _ linked) (rely₁.owed v owed) (rely₁.keeps.pathOk pathOk)
      parent₁.1 nonnull fun w' status => h w' (rely₁.status.trans status)
  · rename_i null
    exact runs_stop fun _ _ _ => .inr (.inl ⟨fun current => parent₁.2 current (not_not.mp null), .inr rfl⟩)

theorem runs_internalSplitUp (inv : Invariant m cfg w)
    (pre : Pre m cfg t (.internalSplitUp a splitKey v root level) w)
    (may : MayCall m t (.internalSplitUp a splitKey v root level) w.1) :
    Runs m cfg t (internalSplitUp a splitKey v root level)
      (Post m t (.internalSplitUp a splitKey v root level) w) w := by
  obtain ⟨nonzero, ⟨x, linked⟩, linkedV, owed, pathOk, cover⟩ := pre
  unfold internalSplitUp
  split
  · rename_i isRoot
    subst isRoot
    obtain ⟨top, linkedRoot, -⟩ := id cover
    obtain ⟨rfl, rfl⟩ := linkedRoot.level_eq linked
    refine runs_bind (runs_updateNewRoot linked linkedV owed (fun w₁ status => ?_) fun w₁ keeps outdated => ?_)
    · exact runs_ret fun w₂ rely₂ _ => status.trans rely₂.status
    · exact runs_internalParentStore (keeps.linked _ _ _ linkedV) (keeps.owed v owed)
        (keeps.pathOk pathOk) ((keeps.cover cover).hasParent fun current => absurd current outdated)
        fun w' status => keeps.status.trans status
  · rename_i other
    refine runs_internalParentStore linkedV owed pathOk (cover.hasParent fun current atTop => ?_)
      fun w' status => status
    obtain ⟨page, mem, levelEq, -⟩ := inv.tree.linked_mem atTop
    exact other (may.2 current a splitKey v root level (.inl rfl) page mem levelEq).symm

theorem runs_leafParentStore {fromCache : Bool} (linked : w.2.Linked v 0 splitKey)
    (owed : w.2.owed v = some t) (route : Route m cfg t splitKey root fromCache w)
    (parent : fromCache = false → HasParent m t 0 root w) (h : ∀ w', StatusLe t w w' → Q () w') :
    Runs m cfg t (leafParentStore splitKey v root 0 fromCache) Q w := by
  refine runs_loadPath fun w₁ rely₁ _ => ?_
  have route₁ := rely₁.keeps.route route
  unfold Route at route₁
  cases fromCache with
  | false =>
      rw [if_neg (by simp)] at route₁
      have parent₁ := rely₁.keeps.hasParent (parent rfl)
      split
      · rename_i nonnull
        exact runs_upLevel (rely₁.linked _ _ _ linked) (rely₁.owed v owed) route₁.1 parent₁.1 nonnull
          fun w' status => h w' (rely₁.status.trans status)
      · rename_i null
        refine runs_bind (runs_stop fun _ _ _ => .inr (.inl ⟨fun current => ?_, .inl rfl⟩))
        exact parent₁.2 current (not_not.mp null)
  | true =>
      rw [if_pos rfl] at route₁
      obtain ⟨empty, enabled, -⟩ := route₁
      rw [if_neg (not_not.mpr (empty _))]
      refine runs_assert rfl (runs_bind (runs_getRootPtr fun w₂ root' rely₂ inv₂ current => ?_))
      obtain ⟨top, linkedRoot, high⟩ := current
      have atLeast := high enabled
      refine runs_lastCall fun w₃ rely₃ inv₃ => ⟨⟨Nat.one_ne_zero, ⟨top, kKeyMin, root_reach inv₃ (rely₃.linked _ _ _ linkedRoot),
        Nat.zero_le _, fun high => (atLeast.2 high).trans' (by decide), .top (rely₃.linked _ _ _ linkedRoot)⟩,
        ((rely₁.trans rely₂).trans rely₃).linked _ _ _ linked, ((rely₁.trans rely₂).trans rely₃).owed v owed,
        fun i _ => .inl ?_⟩, fun _ w₄ w₅ post rely₅ _ => h w₅ ?_⟩
      · rw [(rely₂.trans rely₃).path]
        exact empty i
      · exact ((rely₁.trans rely₂).trans rely₃).status.trans (post.trans rely₅.status)

theorem runs_leafSplitUp {fromCache : Bool} (inv : Invariant m cfg w)
    (pre : Pre m cfg t (.leafSplitUp a splitKey v root level fromCache) w)
    (may : MayCall m t (.leafSplitUp a splitKey v root level fromCache) w.1) :
    Runs m cfg t (leafSplitUp a splitKey v root level fromCache)
      (Post m t (.leafSplitUp a splitKey v root level fromCache) w) w := by
  obtain ⟨rfl, ⟨x, linked⟩, linkedV, owed, route⟩ := pre
  have cover : fromCache = false → Cover m t 0 root w := by
    rintro rfl
    unfold Route at route
    rw [if_neg (by simp)] at route
    exact route.2
  unfold leafSplitUp
  split
  · rename_i isRoot
    subst isRoot
    have direct : fromCache = false := by
      refine Bool.eq_false_iff.mpr fun cached => ?_
      unfold Route at route
      rw [if_pos cached] at route
      obtain ⟨-, -, top, high, linkedRoot⟩ := route
      rw [(linkedRoot.level_eq linked).1] at high
      cases high
    obtain ⟨top, linkedRoot, -⟩ := cover direct
    obtain ⟨rfl, rfl⟩ := linkedRoot.level_eq linked
    refine runs_bind (runs_updateNewRoot linked linkedV owed (fun w₁ status => ?_) fun w₁ keeps outdated => ?_)
    · exact runs_ret fun w₂ rely₂ _ => status.trans rely₂.status
    · exact runs_leafParentStore (keeps.linked _ _ _ linkedV) (keeps.owed v owed) (keeps.route route)
        (fun _ => (keeps.cover (cover direct)).hasParent fun current => absurd current outdated)
        fun w' status => keeps.status.trans status
  · rename_i other
    refine runs_leafParentStore linkedV owed route (fun direct => (cover direct).hasParent
      fun current atTop => ?_) fun w' status => status
    obtain ⟨page, mem, levelEq, -⟩ := inv.tree.linked_mem atTop
    exact other (may.2 current a splitKey v root 0 (.inr ⟨fromCache, rfl⟩) page mem levelEq).symm

end Parent

end Sherman
