import Sherman.Tree.Descending

namespace Sherman

open Shared Concurrency

variable {m : Mode} {cfg : Config} {t : Client} {w w' : World}

theorem runs_ofExcept {α β : Type} {e : Except Fault α} {value : α} {next : α → Code β}
    {Q : β → World → Prop} (ok : e = .ok value) (h : Runs m cfg t (next value) Q w) :
    Runs m cfg t (Program.ofExcept e >>= next) Q w := by
  subst ok
  exact h

/-! ## A locked page -/

structure Locked (cfg : Config) (t : Client) (a : GlobalAddress) (page : Page) (w : World) : Prop where
  linked : w.2.Linked a page.hdr.level page.hdr.lowest
  mem : w.1.mem a = some page
  holding : w.2.holding (cfg.lockAddr a) = some t

namespace Locked
variable {a : GlobalAddress} {page : Page}

theorem steady (h : Locked cfg t a page w) (steady : Steady m cfg t w w') : Locked cfg t a page w' :=
  ⟨steady.linked _ _ _ h.linked, (steady.held a _ _ h.holding h.linked).trans h.mem,
    steady.holding _ h.holding⟩

theorem sound (h : Locked cfg t a page w) (inv : Invariant m cfg w) : PageSound w.2 a page :=
  inv.tree.mem_sound a page h.mem

theorem view (h : Locked cfg t a page w) (inv : Invariant m cfg w) : w.1.view a = some page :=
  (inv.lock.quiet_of_holding h.holding h.linked.2).view.trans h.mem

theorem narrow (h : Locked cfg t a page w) (inv : Invariant m cfg w) {k splitKey : Key}
    (ok : PathOk t page.hdr.level k w) (inside : k < page.hdr.highest) (above : page.hdr.lowest ≤ splitKey) :
    PathOk t page.hdr.level splitKey w := by
  intro i low
  rcases ok i low with null | ⟨x, le, linked⟩
  · exact .inl null
  · exact .inr ⟨x, (inv.tree.start_le (h.view inv) h.linked.2 linked low le inside).trans above, linked⟩

theorem owed_inside {p : InternalPage} (h : Locked cfg t a (.internal p) w) (inv : Invariant m cfg w)
    {v : GlobalAddress} {k : Key} (child : w.2.Linked v (p.hdr.level - 1) k) (owed : w.2.owed v = some t)
    (low : p.hdr.lowest ≤ k) : p.hdr.lowest < k := by
  refine lt_of_le_of_ne low fun same => ?_
  have first : p.Child p.hdr.leftmostPtr p.hdr.lowest := .inl ⟨rfl, rfl⟩
  have start := (h.sound inv).points.2 _ _ first
  rw [same] at start first
  have := inv.tree.unique _ _ _ _ child start
  exact (inv.tree.owed v t owed).2 a p (h.view inv) h.linked.2 k (this ▸ first)

end Locked

theorem TreeInv.start_lt {s : Shared} {g : Ghost} (inv : TreeInv s g) {a : GlobalAddress} {l : Nat}
    {x : Key} (linked : g.Linked a l x) : x < kKeyMax := by
  obtain ⟨page, mem, -, lowest⟩ := inv.linked_mem linked
  have ok := (inv.mem_sound a page mem).ok
  exact lowest ▸ ok.fence.trans_le ok.highest_le

theorem runs_lock {β : Type} {Q : β → World → Prop} {a : GlobalAddress} {l : Nat} {x : Key}
    {next : Option Page → Code β} (linked : w.2.Linked a l x)
    (h : ∀ w' page, Steady m cfg t w w' → Invariant m cfg w' → Locked cfg t a page w' →
      page.hdr.level = l → page.hdr.lowest = x → ∃ g, Guarantee m cfg t (.readPage a) w' (w'.1, g) ∧
        Runs m cfg t (next (some page)) Q (w'.1, g)) :
    Runs m cfg t (lockAndReadPage a (cfg.lockAddr a) >>= next) Q w := by
  refine runs_lockAndReadPage linked fun w₁ steady₁ inv₁ held page mem => ?_
  have linked₁ := steady₁.linked _ _ _ linked
  have info := (inv₁.tree.mem_sound a page mem).info.symm.trans linked₁.1
  simp only [Option.some.injEq, Prod.mk.injEq] at info
  obtain ⟨rfl, rfl⟩ := info
  exact h w₁ page steady₁ inv₁ ⟨linked₁, mem, held⟩ rfl rfl

/-! ## `internal_page_store` -/

section Internal
variable {a v root : GlobalAddress} {k : Key} {level : Nat}

theorem Locked.parent {p : InternalPage} (h : Locked cfg t a (.internal p) w)
    (child : w.2.Linked v (p.hdr.level - 1) k) (owed : w.2.owed v = some t) {page : InternalPage}
    (may : ∃ ws, Write.page a (.internal page) ∈ ws ∧ MayVerb m t (.post ws) w.1) :
    Parent m cfg t w.1 w.2 a p v k := by
  obtain ⟨ws, mem, may⟩ := may
  exact ⟨h.linked.2, h.mem, h.holding, child, owed,
    fun vis => may.2.1 vis ⟨a, page, mem, by rw [h.mem]; rfl⟩⟩

theorem points_sibling {reach : GlobalAddress → Nat → Key → Prop} {p p' q sib : InternalPage}
    {b : GlobalAddress} {splitKey : Key} (old : (Page.internal p).Points reach)
    (new : reach v (p.hdr.level - 1) k) (stored : p.Stored k v p') (halves : p'.Halves b q sib splitKey) :
    (Page.internal sib.setConsistent).Points reach := by
  obtain ⟨levelS, -, highestS, siblingS⟩ := halves.sibling_hdr
  have level := levelS.trans stored.level
  refine points_of_children old level (siblingOk_congr old.1 level (highestS.trans stored.highest)
    (siblingS.trans stored.siblingPtr)) new fun c x h => ?_
  exact ((stored.child c x).mp ((halves.child c x).mpr (.inr h))).imp id And.right

theorem runs_internalWrite {p p' : InternalPage} {Q : Unit → World → Prop}
    (locked : Locked cfg t a (.internal p) w) (child : w.2.Linked v (p.hdr.level - 1) k)
    (owed : w.2.owed v = some t) (stored : p.Stored k v p') (notFull : p'.cnt ≠ kInternalCardinality)
    (h : ∀ w', StatusLe t w w' → Q () w') :
    Runs m cfg t (writePageAndUnlock (.page a (.internal p'.setConsistent)) (cfg.lockAddr a) false) Q w := by
  refine runs_writePageAndUnlock locked.holding rfl fun w₁ steady₁ inv₁ may => ?_
  have parent := (locked.steady steady₁).parent (steady₁.linked _ _ _ child) (steady₁.owed v owed) may
  obtain ⟨ws, -, may⟩ := may
  have frame := frame_postInternal inv₁ may.1 parent stored notFull
  refine ⟨_, frame.guarantee ⟨parent.not_writesLeaf _, trivial⟩, rfl, fun w₂ keeps₂ _ _ => h w₂ ?_⟩
  exact steady₁.status.trans (.trans (.inl (congrFun frame.status t)) keeps₂.status)

theorem runs_internalSplit {p p' q sib : InternalPage} {b : GlobalAddress} {splitKey : Key}
    {Q : Unit → World → Prop} (locked : Locked cfg t a (.internal p) w)
    (child : w.2.Linked v (p.hdr.level - 1) k) (owed : w.2.owed v = some t) (stored : p.Stored k v p')
    (halves : p'.Halves b q sib splitKey) (new : Written t w.1 w.2 b (.internal sib.setConsistent))
    (inside : k < p.hdr.highest) (pathOk : PathOk t p.hdr.level k w) (cover : Cover m t p.hdr.level root w)
    (h : ∀ w', StatusLe t w w' → Q () w') :
    Runs m cfg t (do
      writePageAndUnlock (.page a (.internal q.setConsistent)) (cfg.lockAddr a) true
      call (.internalSplitUp a splitKey b root p.hdr.level)) Q w := by
  refine runs_bind (runs_writePageAndUnlock locked.holding rfl fun w₁ steady₁ inv₁ may => ?_)
  have locked₁ := locked.steady steady₁
  have new₁ := steady₁.written _ _ new
  have parent := locked₁.parent (steady₁.linked _ _ _ child) (steady₁.owed v owed) may
  obtain ⟨ws, -, may⟩ := may
  let g' : Ghost :=
    { w₁.2 with
      owner := Function.update w₁.2.owner b none
      owed := Function.update (Function.update w₁.2.owed v none) b (some t)
      holding := Function.update w₁.2.holding (cfg.lockAddr a) none }
  have linking : Linking t w₁.2 b v (some t) g' := ⟨rfl, rfl, rfl, rfl⟩
  have frame := frame_postInternalSplit inv₁ may.1 parent stored halves new₁ linking rfl
  refine ⟨g', frame.guarantee ⟨parent.not_writesLeaf _, trivial⟩, rfl, fun w₂ keeps₂ _ _ => ?_⟩
  have status₂ : StatusLe t w w₂ :=
    steady₁.status.trans (.trans (.inl (congrFun frame.status t)) keeps₂.status)
  have extend₂ : Extends m w₁ w₂ := frame.extends.trans keeps₂.toExtends
  have linked₂ : w₂.2.Linked b p.hdr.level splitKey := by
    obtain ⟨level, lowest, -, -⟩ := halves.sibling_hdr
    have := keeps₂.linked _ _ _ (linking.linked_new inv₁ new₁)
    simpa only [Page.hdr, InternalPage.setConsistent, level, lowest, stored.level] using this
  have owed₂ : w₂.2.owed b = some t := keeps₂.owed b (Function.update_self ..)
  have pathOk₂ : PathOk t p.hdr.level splitKey w₂ := by
    refine (locked₁.narrow inv₁ (steady₁.pathOk pathOk) inside ?_).extend extend₂ keeps₂.path
    exact stored.lowest ▸ halves.above.le
  have cover₂ := (steady₁.cover cover).extend extend₂ keeps₂.path
  refine runs_lastCall fun w₃ rely₃ _ => ⟨⟨InternalPage.Ok.level (locked₁.sound inv₁).ok, ⟨_,
    (extend₂.trans rely₃.extends).linked _ _ _ locked₁.linked⟩, rely₃.linked _ _ _ linked₂,
    rely₃.owed b owed₂, rely₃.keeps.pathOk pathOk₂, rely₃.keeps.cover cover₂⟩,
    fun _ w₄ w₅ post rely₅ _ => h w₅ ?_⟩
  exact status₂.trans (rely₃.status.trans (post.trans rely₅.status))

theorem runs_internalPageStore (pre : Pre m cfg t (.internalPageStore a k v root level) w) :
    Runs m cfg t (internalPageStore cfg a k v root level)
      (Post m t (.internalPageStore a k v root level) w) w := by
  obtain ⟨nonzero, ⟨x, linked, le⟩, child, owed, pathOk, cover⟩ := pre
  refine runs_lock linked fun w₁ page steady₁ inv₁ locked₁ levelEq lowestEq => ⟨w₁.2, .refl inv₁ ⟨id, _, locked₁.mem⟩, ?_⟩
  subst levelEq lowestEq
  have sound := locked₁.sound inv₁
  have child₁ := steady₁.linked _ _ _ child
  have owed₁ := steady₁.owed v owed
  cases page with
  | leaf p => exact absurd (LeafPage.Ok.level sound.ok) nonzero
  | internal p =>
      have ok : p.Ok := sound.ok
      dsimp only
      refine runs_assert rfl (runs_assert (by simp [InternalPage.checkConsistent, ok.consistent]) ?_)
      split
      · rename_i past
        refine runs_bind (runs_unlockAddr locked₁.holding fun w₂ keeps₂ inv₂ => ?_)
        have keeps := steady₁.toKeeps.trans keeps₂
        have bound := inv₁.tree.start_lt child₁
        rcases sound.points.1 with ⟨last, -⟩ | ⟨-, sibling⟩
        · exact absurd (last ▸ past) (not_le.mpr bound)
        · have sibling₂ := keeps₂.linked _ _ _ sibling
          refine runs_assert (inv₂.tree.ne_null sibling₂) (runs_lastCall fun w₃ rely₃ _ => ?_)
          have keeps₃ := keeps.trans rely₃.keeps
          refine ⟨⟨nonzero, ⟨_, rely₃.linked _ _ _ sibling₂, past⟩, keeps₃.linked _ _ _ child,
            keeps₃.owed v owed, keeps₃.pathOk pathOk, keeps₃.cover cover⟩, fun _ w₄ w₅ post rely₅ _ => ?_⟩
          exact keeps₃.status.trans (post.trans rely₅.status)
      · rename_i inside
        have inside : k < p.hdr.highest := not_le.mp inside
        have low : p.hdr.lowest ≤ k := le
        obtain ⟨p', store, stored⟩ := ok.store v (locked₁.owed_inside inv₁ child₁ owed₁ low) inside
        refine runs_assert low (runs_ofExcept store ?_)
        split
        · rename_i full
          refine runs_alloc fun w₂ b steady₂ inv₂ new₂ => ?_
          obtain ⟨q, sib, splitKey, split, halves⟩ := (stored.full full).split b
          refine runs_ofExcept split (runs_bind (runs_writeSync new₂ halves.sibling_ok ?_ ?_))
          · exact points_sibling (sound.points.mono steady₂.linked) (steady₂.linked _ _ _ child₁) stored halves
          · intro w₃ steady₃ inv₃ written₃
            have steady := steady₂.trans steady₃
            exact runs_internalSplit (locked₁.steady steady) (steady.linked _ _ _ child₁)
              (steady.owed v owed₁) stored halves written₃ inside (steady.pathOk (steady₁.pathOk pathOk))
              (steady.cover (steady₁.cover cover)) fun w' status =>
                steady₁.status.trans (steady.status.trans status)
        · rename_i notFull
          exact runs_internalWrite locked₁ child₁ owed₁ stored notFull fun w' status =>
            steady₁.status.trans status

end Internal

/-! ## `leaf_page_store` and `leaf_page_del` -/

section Leaf
variable {a root : GlobalAddress} {k : Key} {v : Value} {fromCache : Bool}

theorem Locked.target {p : LeafPage} {op : Op} (h : Locked cfg t a (.leaf p) w)
    (exposed : m.visible → ¬ Hidden w.1 w.2 a) (low : p.hdr.lowest ≤ op.key) (high : op.key < p.hdr.highest)
    (fresh : Fresh t op w) : Target m cfg t w.1 w.2 a p op :=
  ⟨h.linked.2, h.mem, h.holding, exposed, low, high, fresh⟩

def Posts (t : Client) (op : Op) (wr : Write) (w : World) : Prop :=
  w.2.status t = some ⟨op, some wr, some .done, none⟩ ∨
    w.2.status t = some ⟨op, some wr, some .done, some .done⟩

theorem StatusLe.posts {op : Op} {wr : Write} (h : StatusLe t w w')
    (status : w.2.status t = some ⟨op, some wr, some .done, none⟩) : Posts t op wr w' := by
  rcases h with same | ⟨op', wr', r, before, after⟩
  · exact .inl (same.trans status)
  · rw [status, Option.some.injEq, Running.mk.injEq] at before
    obtain ⟨rfl, wrEq, rEq, -⟩ := before
    cases wrEq
    cases rEq
    exact .inr after

theorem Posts.committed {op : Op} {wr : Write} (h : Posts t op wr w) (inv : Invariant m cfg w)
    (drained : w.1.drained t wr.node) : Committed m t op w := by
  rcases h with status | status
  · refine ⟨_, _, status, fun vis => ?_⟩
    obtain ⟨pending, -⟩ := (inv.visible vis).commit.status t _ _ _ status
    exact absurd rfl (drained _ pending rfl)
  · exact ⟨_, _, status, fun _ => .inl rfl⟩

theorem Posts.committed_split {op : Op} {q : LeafPage} (h : Posts t op (.page a (.leaf q)) w) :
    Committed m t op w := by
  rcases h with status | status
  · exact ⟨_, _, status, fun _ => .inr ⟨rfl, a, q, rfl⟩⟩
  · exact ⟨_, _, status, fun _ => .inl rfl⟩

theorem runs_leafEntry (op : Op) {p p' : LeafPage} {i : Nat} {r : LeafEntry} {Q : Unit → World → Prop}
    (locked : Locked cfg t a (.leaf p) w) (reach : Reach m w a 0 p.hdr.lowest)
    (low : p.hdr.lowest ≤ op.key) (high : op.key < p.hdr.highest) (fresh : Fresh t op w)
    (slot : p' = p.setRecord i r) (index : i < kLeafCardinality) (ok : p'.Ok)
    (effect : op.Effect .done p.Holds p'.Holds) (h : ∀ w', Committed m t op w' → Q () w') :
    Runs m cfg t (writePageAndUnlock (.entry a i (p'.records.getD i default)) (cfg.lockAddr a) false) Q w := by
  refine runs_writePageAndUnlock locked.holding rfl fun w₁ steady₁ inv₁ ⟨ws, _, may⟩ => ?_
  have entry : p'.records.getD i default = r := by
    rw [slot, LeafPage.setRecord, List.getD_eq_getElem _ _ (by simp [p.size, index])]
    simp
  have target := (locked.steady steady₁).target (steady₁.reach_mono reach).2 low high
    (steady₁.status.fresh fresh)
  rw [entry]
  have post := leafPost_entry inv₁ target slot ok effect
  refine ⟨_, post.guarantee target inv₁ may.1, rfl, fun w₂ keeps₂ inv₂ drained => h w₂ ?_⟩
  exact (keeps₂.status.posts (Function.update_self ..)).committed inv₂ (drained rfl)

theorem Route.narrow {p : LeafPage} {splitKey : Key} (route : Route m cfg t k root fromCache w)
    (locked : Locked cfg t a (.leaf p) w) (inv : Invariant m cfg w) (inside : k < p.hdr.highest)
    (above : p.hdr.lowest ≤ splitKey) : Route m cfg t splitKey root fromCache w := by
  have level : (Page.leaf p).hdr.level = 0 := LeafPage.Ok.level (locked.sound inv).ok
  unfold Route at route ⊢
  split
  · rename_i cached
    rwa [if_pos cached] at route
  · rename_i direct
    rw [if_neg direct] at route
    exact ⟨level ▸ locked.narrow inv (level ▸ route.1) inside above, route.2⟩

theorem runs_leafSplit (op : Op) {p p' q sib : LeafPage} {b : GlobalAddress} {splitKey : Key}
    {Q : Bool → World → Prop} (locked : Locked cfg t a (.leaf p) w)
    (reach : Reach m w a 0 p.hdr.lowest) (low : p.hdr.lowest ≤ op.key) (high : op.key < p.hdr.highest)
    (fresh : Fresh t op w) (hdr : p'.hdr = p.hdr) (effect : op.Effect .done p.Holds p'.Holds)
    (halves : p'.Halves b q sib splitKey) (new : Written t w.1 w.2 b (.leaf sib.setConsistent))
    (route : Route m cfg t op.key root fromCache w) (h : ∀ w', Committed m t op w' → Q true w') :
    Runs m cfg t (do
      writePageAndUnlock (.page a (.leaf q.setConsistent)) (cfg.lockAddr a) true
      call (.leafSplitUp a splitKey b root 0 fromCache)
      return true) Q w := by
  refine runs_bind (runs_writePageAndUnlock locked.holding rfl fun w₁ steady₁ inv₁ ⟨ws, _, may⟩ => ?_)
  have locked₁ := locked.steady steady₁
  have new₁ := steady₁.written _ _ new
  have target := locked₁.target (steady₁.reach_mono reach).2 low high (steady₁.status.fresh fresh)
  let wr : Write := .page a (.leaf q.setConsistent)
  let g' : Ghost :=
    { w₁.2 with
      owner := Function.update w₁.2.owner b none
      owed := Function.update w₁.2.owed b (some t)
      holding := Function.update w₁.2.holding (cfg.lockAddr a) none
      status := Function.update w₁.2.status t (some ⟨op, some wr, some .done, none⟩) }
  have post : LeafPost m cfg t w₁.1 w₁.2 a p op wr g' :=
    leafPost_split inv₁ target hdr effect halves new₁ ⟨rfl, rfl, rfl, rfl, rfl⟩
  have guarantee := post.guarantee target inv₁ may.1
  refine ⟨g', guarantee, rfl, fun w₂ keeps₂ _ _ => ?_⟩
  have extend₂ : Extends m w₁ w₂ := guarantee.extends.trans keeps₂.toExtends
  have committed₂ : Committed m t op w₂ :=
    (keeps₂.status.posts (Function.update_self ..)).committed_split
  have linked₂ : w₂.2.Linked b 0 splitKey := by
    obtain ⟨lowest, -, -⟩ := halves.sibling_hdr
    have info := new₁.info inv₁
    simp only [Page.hdr, LeafPage.Ok.level halves.sibling_ok] at info
    exact keeps₂.linked _ _ _ ⟨lowest ▸ info, Function.update_self ..⟩
  have owed₂ : w₂.2.owed b = some t := keeps₂.owed b (Function.update_self ..)
  have above : p.hdr.lowest ≤ splitKey := hdr ▸ halves.above.le
  have route₂ := ((steady₁.route route).narrow locked₁ inv₁ high above).extend extend₂ keeps₂.path
  refine runs_call fun w₃ rely₃ _ => ⟨⟨rfl, ⟨_, (extend₂.trans rely₃.extends).linked _ _ _
    (steady₁.linked _ _ _ reach.1)⟩, rely₃.linked _ _ _ linked₂, rely₃.owed b owed₂,
    rely₃.keeps.route route₂⟩, fun _ w₄ post => runs_ret fun w₅ rely₅ _ => h w₅ ?_⟩
  exact rely₅.status.committed (post.committed (rely₃.status.committed committed₂))

theorem LeafPage.Stored.hdr {p p' : LeafPage} {i n : Nat} (h : p.Stored k v i p' n) :
    p'.hdr = p.hdr := by
  obtain ⟨r, rfl, -⟩ := h.slot
  rfl

theorem direct_of_past {p : LeafPage} (past : p.hdr.highest ≤ k)
    (fits : ¬ (fromCache = true ∧ (k < p.hdr.lowest ∨ p.hdr.highest ≤ k))) : fromCache = false :=
  Bool.eq_false_iff.mpr fun cached => fits ⟨cached, .inr past⟩

theorem runs_leafPageStore {level : Nat} (pre : Pre m cfg t (.leafPageStore a k v root level fromCache) w) :
    Runs m cfg t (leafPageStore cfg a k v root level fromCache)
      (Post m t (.leafPageStore a k v root level fromCache) w) w := by
  obtain ⟨rfl, bound, ⟨x, reach, le⟩, fresh, route⟩ := pre
  refine runs_lock reach.1 fun w₁ page steady₁ inv₁ locked₁ levelEq lowestEq => ⟨w₁.2, .refl inv₁ ⟨id, _, locked₁.mem⟩, ?_⟩
  subst lowestEq
  have sound := locked₁.sound inv₁
  have reach₁ := steady₁.reach_mono reach
  have fresh₁ := steady₁.status.fresh fresh
  cases page with
  | internal p => exact absurd levelEq (InternalPage.Ok.level sound.ok)
  | leaf p =>
      have ok : p.Ok := sound.ok
      have low : p.hdr.lowest ≤ k := le
      dsimp only
      refine runs_assert ok.level (runs_assert (by simp [LeafPage.checkConsistent, ok.consistent]) ?_)
      split
      · rename_i stale
        refine runs_bind (runs_unlockAddr locked₁.holding fun w₂ keeps₂ _ => runs_ret fun w₃ rely₃ _ => ?_)
        have keeps := (steady₁.toKeeps.trans keeps₂).trans rely₃.keeps
        exact ⟨stale.1, keeps.status.fresh fresh, keeps.path⟩
      · rename_i fits
        split
        · rename_i past
          have direct := direct_of_past past fits
          have next := sibling_reach (inv₁.points_reach locked₁.mem locked₁.linked.2).sibling past bound
          have next : Reach m w₁ p.hdr.siblingPtr 0 p.hdr.highest := ok.level ▸ next
          refine runs_bind (runs_unlockAddr locked₁.holding fun w₂ keeps₂ inv₂ => ?_)
          have next₂ := keeps₂.reach_mono next
          refine runs_assert (inv₂.tree.ne_null next₂.1) (runs_call fun w₃ rely₃ _ => ?_)
          have keeps := (steady₁.toKeeps.trans keeps₂).trans rely₃.keeps
          refine ⟨⟨rfl, bound, ⟨_, rely₃.extends.reach_mono next₂, past⟩, keeps.status.fresh fresh,
            direct ▸ keeps.route route⟩, fun stored w₄ post => runs_ret fun w₅ rely₅ _ => ?_⟩
          cases stored with
          | false => cases post.1
          | true => exact rely₅.status.committed post
        · rename_i inside
          have inside : k < p.hdr.highest := not_le.mp inside
          obtain ⟨i, p', n, store, stored⟩ := ok.store v low inside
          have effect : (Op.insert k v).Effect .done p.Holds p'.Holds := ⟨rfl, stored.rebinds⟩
          refine runs_assert low (runs_ofExcept store ?_)
          dsimp only
          split
          · rename_i notFull
            obtain ⟨r, slot, index⟩ := stored.slot
            refine runs_bind (runs_leafEntry (.insert k v) locked₁ reach₁ low inside fresh₁ slot index
              (stored.ok notFull) effect fun w₂ committed => runs_ret fun w₃ rely₃ _ => ?_)
            exact rely₃.status.committed committed
          · rename_i full
            have full := not_not.mp full
            refine runs_alloc fun w₂ b steady₂ inv₂ new₂ => ?_
            obtain ⟨q, sib, splitKey, split, halves⟩ := (stored.full full).split b
            refine runs_ofExcept split (runs_bind (runs_writeSync new₂ halves.sibling_ok ?_ ?_))
            · obtain ⟨-, highest, sibling⟩ := halves.sibling_hdr
              have hdr := stored.hdr
              refine siblingOk_congr (sound.points.mono steady₂.linked).sibling ?_ ?_ ?_
              · exact (LeafPage.Ok.level halves.sibling_ok).trans ok.level.symm
              · exact highest.trans (congrArg Header.highest hdr)
              · exact sibling.trans (congrArg Header.siblingPtr hdr)
            · intro w₃ steady₃ inv₃ written₃
              have steady := steady₂.trans steady₃
              exact runs_leafSplit (.insert k v) (locked₁.steady steady) (steady.reach_mono reach₁) low
                inside (steady.status.fresh fresh₁) stored.hdr effect halves written₃
                (steady.route (steady₁.route route)) fun _ committed => committed

theorem runs_leafPageDel {level : Nat} (pre : Pre m cfg t (.leafPageDel a k level fromCache) w) :
    Runs m cfg t (leafPageDel cfg a k level fromCache)
      (Post m t (.leafPageDel a k level fromCache) w) w := by
  obtain ⟨rfl, bound, ⟨x, reach, le⟩, fresh⟩ := pre
  refine runs_lock reach.1 fun w₁ page steady₁ inv₁ locked₁ levelEq lowestEq => ?_
  subst lowestEq
  have sound := locked₁.sound inv₁
  have reach₁ := steady₁.reach_mono reach
  have fresh₁ := steady₁.status.fresh fresh
  cases page with
  | internal p => exact absurd levelEq (InternalPage.Ok.level sound.ok)
  | leaf p =>
      have ok : p.Ok := sound.ok
      have low : p.hdr.lowest ≤ k := le
      have consistent : p.checkConsistent := by simp [LeafPage.checkConsistent, ok.consistent]
      by_cases absent : k < p.hdr.highest ∧ p.del k = none
      · -- deleting an absent key takes effect when its leaf is read
        obtain ⟨inside, del⟩ := absent
        have unbound := LeafPage.del_none del
        have bindings := inv₁.tree.bindings_iff (locked₁.view inv₁) locked₁.linked.2 low inside
        have guarantee : Guarantee m cfg t (.readPage a) w₁
            (w₁.1, w₁.2.setStatus t (some ⟨.del k, none, some .done, some .done⟩)) := by
          refine guarantee_setStatus inv₁ ⟨id, _, locked₁.mem⟩ fresh₁ (.inr ⟨rfl, rfl, .unbound fun v hv => ?_⟩)
            fun vis => ⟨rfl, .unbound fun v hv => ?_⟩
          · exact unbound v ((bindings v).mp hv)
          · exact unbound v (((inv₁.visible vis).disjoint.executed_iff inv₁.tree locked₁.mem
              locked₁.linked.2 (reach₁.2 vis) low inside v).mp hv)
        refine ⟨_, guarantee, ?_⟩
        dsimp only
        refine runs_assert ok.level (runs_assert consistent ?_)
        have past : ¬ p.hdr.highest ≤ k := not_le.mpr inside
        rw [if_neg fun stale => stale.2.elim (not_lt.mpr low) past, if_neg past, del]
        refine runs_assert low (runs_bind (runs_unlockAddr locked₁.holding fun w₂ keeps₂ _ =>
          runs_ret fun w₃ rely₃ _ => (keeps₂.trans rely₃.keeps).status.committed ?_))
        exact ⟨none, some .done, Function.update_self .., fun _ => .inl rfl⟩
      · refine ⟨w₁.2, .refl inv₁ ⟨id, _, locked₁.mem⟩, ?_⟩
        dsimp only
        refine runs_assert ok.level (runs_assert consistent ?_)
        split
        · rename_i stale
          refine runs_bind (runs_unlockAddr locked₁.holding fun w₂ keeps₂ _ => runs_ret fun w₃ rely₃ _ => ?_)
          have keeps := (steady₁.toKeeps.trans keeps₂).trans rely₃.keeps
          exact ⟨stale.1, keeps.status.fresh fresh⟩
        · rename_i fits
          split
          · rename_i past
            have next := sibling_reach (inv₁.points_reach locked₁.mem locked₁.linked.2).sibling past bound
            have next : Reach m w₁ p.hdr.siblingPtr 0 p.hdr.highest := ok.level ▸ next
            refine runs_bind (runs_unlockAddr locked₁.holding fun w₂ keeps₂ inv₂ => ?_)
            have next₂ := keeps₂.reach_mono next
            refine runs_assert (inv₂.tree.ne_null next₂.1) (runs_call fun w₃ rely₃ _ => ?_)
            have keeps := (steady₁.toKeeps.trans keeps₂).trans rely₃.keeps
            refine ⟨⟨rfl, bound, ⟨_, rely₃.extends.reach_mono next₂, past⟩, keeps.status.fresh fresh⟩,
              fun deleted w₄ post => runs_ret fun w₅ rely₅ _ => ?_⟩
            cases deleted with
            | false => cases post.1
            | true => exact rely₅.status.committed post
          · rename_i inside
            have inside : k < p.hdr.highest := not_le.mp inside
            refine runs_assert low ?_
            cases del : p.del k with
            | none => exact absurd ⟨inside, del⟩ absent
            | some slot =>
                obtain ⟨i, p'⟩ := slot
                obtain ⟨⟨r, slot, index⟩, ok', rebinds, -⟩ := ok.del del
                refine runs_bind (runs_leafEntry (.del k) locked₁ reach₁ low inside fresh₁ slot index ok'
                  ⟨rfl, rebinds⟩ fun w₂ committed => runs_ret fun w₃ rely₃ _ => ?_)
                exact rely₃.status.committed committed

end Leaf

end Sherman
