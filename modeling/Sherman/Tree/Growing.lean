import Sherman.Tree.Posting

namespace Sherman

open Shared

variable {m : Mode} {cfg : Config} {t : Client} {s : Shared} {g : Ghost}

theorem Invariant.not_hidden_of_owed (inv : Invariant m cfg (s, g)) (vis : m.visible)
    {v : GlobalAddress} (owed : g.owed v = some t) (linkDone : ¬ LinkPending s t) :
    ¬ Hidden s g v := by
  rintro ⟨z, hz, links⟩
  have client := (inv.visible vis).exposure.owed z hz v links
  rw [owed, Option.some.injEq] at client
  obtain ⟨a, p, write, owner, -⟩ := links
  have linked := inv.tree.linked_of_leaf_view (view_of_page inv.lock.single hz write) owner
  obtain ⟨q, mem, -⟩ := inv.tree.leaf_mem linked
  exact linkDone ⟨z, hz, client.symm, a, p, write, by rw [mem]; rfl⟩

theorem points_of_children {reach : GlobalAddress → Nat → Key → Prop} {p p' : InternalPage}
    {v : GlobalAddress} {k : Key} (old : (Page.internal p).Points reach)
    (level : p'.hdr.level = p.hdr.level) (sibling : SiblingOk reach p'.hdr)
    (new : reach v (p.hdr.level - 1) k)
    (children : ∀ c x, p'.Child c x → (c = v ∧ x = k) ∨ p.Child c x) :
    (Page.internal p').Points reach := by
  refine ⟨sibling, fun c x h => ?_⟩
  rw [level]
  rcases children c x h with ⟨rfl, rfl⟩ | h
  · exact new
  · exact old.2 c x h

theorem siblingOk_congr {reach : GlobalAddress → Nat → Key → Prop} {hdr hdr' : Header}
    (old : SiblingOk reach hdr) (level : hdr'.level = hdr.level) (highest : hdr'.highest = hdr.highest)
    (siblingPtr : hdr'.siblingPtr = hdr.siblingPtr) : SiblingOk reach hdr' := by
  unfold SiblingOk at old ⊢
  rw [level, highest, siblingPtr]
  exact old

structure Parent (m : Mode) (cfg : Config) (t : Client) (s : Shared) (g : Ghost)
    (a : GlobalAddress) (p : InternalPage) (v : GlobalAddress) (k : Key) : Prop where
  owner : g.owner a = none
  mem : s.mem a = some (.internal p)
  holding : g.holding (cfg.lockAddr a) = some t
  child : g.Linked v (p.hdr.level - 1) k
  owed : g.owed v = some t
  linkDone : m.visible → ¬ LinkPending s t

namespace Parent
variable {a v : GlobalAddress} {p p' : InternalPage} {k : Key}

theorem not_writesLeaf (h : Parent m cfg t s g a p v k) (page : Page) :
    ¬ WritesLeaf s (.post [.page a page]) := by
  refine Sherman.not_writesLeaf fun b q target mem => ?_
  cases target
  rw [h.mem] at mem
  cases mem

theorem view (h : Parent m cfg t s g a p v k) (inv : Invariant m cfg (s, g)) :
    s.view a = some (.internal p) :=
  (inv.lock.quiet_of_holding h.holding h.owner).view.trans h.mem

theorem sound (h : Parent m cfg t s g a p v k) (inv : Invariant m cfg (s, g)) :
    PageSound g a (.internal p) := inv.tree.mem_sound a _ h.mem

theorem owed_other (h : Parent m cfg t s g a p v k) (inv : Invariant m cfg (s, g)) {b : GlobalAddress}
    {d : Client} (other : b ≠ v) (owed : g.owed b = some d)
    (children : ∀ c x, p'.Child c x → (c = v ∧ x = k) ∨ p.Child c x) (x : Key) : ¬ p'.Child b x := by
  intro child
  rcases children b x child with ⟨rfl, -⟩ | child
  · exact other rfl
  · exact (inv.tree.owed b d owed).2 a p (h.view inv) h.owner x child

theorem notLeaf (h : Parent m cfg t s g a p v k) (inv : Invariant m cfg (s, g)) (x : Key) :
    ¬ g.Linked a 0 x := by
  intro linked
  have sound := h.sound inv
  have := linked.1.symm.trans sound.info
  simp only [Option.some.injEq, Prod.mk.injEq] at this
  exact InternalPage.Ok.level sound.ok this.1.symm

theorem exposed (h : Parent m cfg t s g a p v k) (inv : Invariant m cfg (s, g)) (vis : m.visible) :
    ¬ Hidden s g v := inv.not_hidden_of_owed vis h.owed (h.linkDone vis)

theorem points_exposed (h : Parent m cfg t s g a p v k) (inv : Invariant m cfg (s, g))
    (vis : m.visible) (level : p'.hdr.level = p.hdr.level)
    (sibling : SiblingOk (Exposed s g) p'.hdr)
    (children : ∀ c x, p'.Child c x → (c = v ∧ x = k) ∨ p.Child c x) :
    (Page.internal p').Points (Exposed s g) :=
  points_of_children ((inv.visible vis).exposure.mem a _ h.mem h.owner) level sibling
    ⟨h.child, h.exposed inv vis⟩ children

end Parent

theorem follows_of_exposed {a c : GlobalAddress} {l : Nat} {x : Key} (h : Exposed s g c l x) :
    Follows s g a c l x :=
  ⟨h.1, fun z hz links => absurd ⟨z, hz, links⟩ h.2⟩

theorem not_links_internal {z : Posted} {a b : GlobalAddress} {p : InternalPage}
    (write : z.write = .page a (.internal p)) : ¬ Links g z b := by
  rintro ⟨c, q, leaf, -, -⟩
  rw [write] at leaf
  cases leaf

theorem frame_postInternal (inv : Invariant m cfg (s, g)) (may : ∀ c, m.only = some c → t = c)
    {a v : GlobalAddress} {p p' : InternalPage} {k : Key} (parent : Parent m cfg t s g a p v k)
    (stored : p.Stored k v p') (notFull : p'.cnt ≠ kInternalCardinality) :
    Frame m cfg t (s, g) (s.post t (.page a (.internal p'.setConsistent)),
      (g.setHolding (cfg.lockAddr a) none).setOwed v none) := by
  have view := parent.view inv
  have sound := parent.sound inv
  have children : ∀ c x, p'.setConsistent.Child c x → (c = v ∧ x = k) ∨ p.Child c x :=
    fun c x h => ((stored.child c x).mp h).imp id And.right
  have level : p'.setConsistent.hdr.level = p.hdr.level := stored.level
  have sibling : ∀ reach, SiblingOk reach p.hdr → SiblingOk reach p'.setConsistent.hdr :=
    fun reach h => siblingOk_congr h stored.level stored.highest stored.siblingPtr
  have same : SameLeaves s (s.post t (.page a (.internal p'.setConsistent))) g
      ((g.setHolding (cfg.lockAddr a) none).setOwed v none) :=
    sameLeaves_post rfl (fun b l x h => h) (fun b x h => h) fun b x target h =>
      parent.notLeaf inv x (Option.some.inj target ▸ h)
  have ok : p'.setConsistent.Ok := (stored.ok notFull).setConsistent
  have tree : TreeInv (s.post t (.page a (.internal p'.setConsistent)))
      ((g.setHolding (cfg.lockAddr a) none).setOwed v none) := by
    refine inv.tree.postLinked parent.owner view rfl rfl stored.level stored.lowest stored.highest ok
      (points_of_children sound.points level (sibling _ sound.points.1) parent.child children)
      rfl rfl fun b d h => ?_
    have other : b ≠ v := by
      rintro rfl
      simp at h
    refine ⟨update_some_none h, fun q x hq => ?_⟩
    cases hq
    exact parent.owed_other inv other (update_some_none h) children x
  refine same.frame inv tree (inv.lock.postLinked rfl parent.owner (by rw [sound.info]; rfl)
    parent.holding rfl rfl rfl) (fun vis => ?_) may
    (respects_post (fun b u target h => ?_) (fun b u _ h => ⟨h, rfl⟩)
      (fun b u hu h => update_none_of_ne (fun w hw => Option.some.inj (hw.symm.trans parent.owed)) hu h)
      fun la u hu h =>
        update_none_of_ne (fun w hw => Option.some.inj (hw.symm.trans parent.holding)) hu h)
  · have exposure := (inv.visible vis).exposure
    refine exposure.step rfl same.linked (fun z hz b h => ?_) (fun b q _ h => .inl h)
      (fun b q h unowned => ?_) exposure.cache (fun z hz b target unowned => ?_) fun b h => ?_
    · rcases mem_post.mp hz with hz | rfl
      · exact ⟨hz, h⟩
      · exact absurd h (not_links_internal rfl)
    · by_cases h' : b = a
      · subst h'
        rw [view_post_page, Option.some.injEq] at h
        subst h
        exact (parent.points_exposed inv vis level
          (sibling _ (exposure.mem b _ parent.mem parent.owner).1) children).mono
            fun _ _ _ => follows_of_exposed
      · rw [view_post_page_other h'] at h
        exact exposure.view b q h unowned
    · rcases mem_post.mp hz with hz | rfl
      · exact exposure.target z hz b target unowned
      · rw [← Option.some.inj target]
        exact inv.tree.exposed_of_level inv.lock.single ⟨sound.info, parent.owner⟩
          (.inl (InternalPage.Ok.level sound.ok))
    · refine Function.update_of_ne ?_ _ _
      rintro rfl
      exact parent.exposed inv vis h
  · rw [← Option.some.inj target, parent.owner] at h
    cases h

structure Written (t : Client) (s : Shared) (g : Ghost) (b : GlobalAddress) (page : Page) :
    Prop where
  owner : g.owner b = some t
  mem : s.mem b = some page
  quiet : s.Quiet b

structure Linking (t : Client) (g : Ghost) (b v : GlobalAddress) (owes : Option Client)
    (g' : Ghost) : Prop where
  info : g'.info = g.info
  owner : g'.owner = Function.update g.owner b none
  owed : g'.owed = Function.update (Function.update g.owed v none) b owes
  status : g'.status = g.status

namespace Linking
variable {b v : GlobalAddress} {owes : Option Client} {g' : Ghost} {page : Page}

theorem linked (h : Linking t g b v owes g') (new : Written t s g b page) {e : GlobalAddress}
    {l : Nat} {x : Key} (hl : g.Linked e l x) : g'.Linked e l x := by
  refine ⟨h.info ▸ hl.1, ?_⟩
  rw [h.owner, Function.update_of_ne]
  · exact hl.2
  · rintro rfl
    have := hl.2
    rw [new.owner] at this
    cases this

theorem owner_or (h : Linking t g b v owes g') {e : GlobalAddress} (he : g'.owner e = none) :
    e = b ∨ g.owner e = none := by
  by_cases same : e = b
  · exact .inl same
  · rw [h.owner, Function.update_of_ne same] at he
    exact .inr he

theorem linked_new (h : Linking t g b v owes g') (inv : Invariant m cfg (s, g))
    (new : Written t s g b page) : g'.Linked b page.hdr.level page.hdr.lowest :=
  ⟨h.info ▸ (inv.tree.mem_sound b page new.mem).info, by rw [h.owner, Function.update_self]⟩

theorem leaf (h : Linking t g b v owes g') (inv : Invariant m cfg (s, g))
    (new : Written t s g b page) (level : page.hdr.level ≠ 0) {e : GlobalAddress} {x : Key}
    (he : g'.Linked e 0 x) : g.Linked e 0 x := by
  rcases h.owner_or he.2 with rfl | owner
  · exact absurd (he.level_eq (h.linked_new inv new)).1.symm level
  · exact ⟨h.info ▸ he.1, owner⟩

theorem owed_old (h : Linking t g b v owes g') {e : GlobalAddress} {d : Client} (eb : e ≠ b)
    (he : g'.owed e = some d) : e ≠ v ∧ g.owed e = some d := by
  rw [h.owed, Function.update_of_ne eb] at he
  refine ⟨?_, update_some_none he⟩
  rintro rfl
  simp at he

theorem reowner (h : Linking t g b v owes g') (inv : Invariant m cfg (s, g))
    (new : Written t s g b page) : LockInv cfg s (g.setOwner b none) := by
  refine inv.lock.reowner rfl rfl rfl (fun e h => h) fun e busy => Function.update_of_ne ?_ _ _
  rintro rfl
  exact busy new.quiet

theorem owner_other (h : Linking t g b v owes g') (new : Written t s g b page) {e : GlobalAddress}
    {u : Client} (hu : u ≠ t) (he : g.owner e = some u) : g'.owner e = some u := by
  rw [h.owner]
  exact update_none_of_ne (fun w hw => Option.some.inj (hw.symm.trans new.owner)) hu he

theorem owed_other (h : Linking t g b v owes g') (inv : Invariant m cfg (s, g))
    (new : Written t s g b page) (mine : g.owed v = some t) {e : GlobalAddress} {u : Client}
    (hu : u ≠ t) (he : g.owed e = some u) : g'.owed e = some u := by
  have eb : e ≠ b := by
    rintro rfl
    obtain ⟨⟨l, x, linked, -⟩, -⟩ := inv.tree.owed e u he
    have := linked.2
    rw [new.owner] at this
    cases this
  rw [h.owed, Function.update_of_ne eb]
  exact update_none_of_ne (fun w hw => Option.some.inj (hw.symm.trans mine)) hu he

theorem free (inv : Invariant m cfg (s, g)) (new : Written t s g b page) {z : Posted}
    (hz : z ∈ s.pending) : ¬ Links g z b := by
  intro hl
  rcases inv.tree.links_linked inv.lock.single hz hl with null | ⟨x, -, linked⟩
  · have := new.owner
    rw [null, inv.tree.null.2] at this
    cases this
  · have := linked.2
    rw [new.owner] at this
    cases this

theorem exposure (h : Linking t g b v owes g') (inv : Invariant m cfg (s, g))
    (new : Written t s g b page) (vis : m.visible) (points : page.Points (Exposed s g))
    (visibleV : ¬ Hidden s g v) {s' : Shared} (mem : s'.mem = s.mem) (cache : s'.cache = s.cache)
    (links : ∀ z ∈ s'.pending, ∀ e, Links g' z e → z ∈ s.pending ∧ Links g z e)
    (view : ∀ e page, s'.view e = some page → g'.owner e = none → e ≠ b → page.Points fun f l x =>
      g'.Linked f l x ∧ ∀ z ∈ s.pending, Links g z f → z.write.target = some e)
    (viewB : s'.view b = s.view b)
    (target : ∀ z ∈ s'.pending, ∀ e, z.write.target = some e → g'.owner e = none →
      ¬ Hidden s g e) : ExposureInv s' g' := by
  have exposure := (inv.visible vis).exposure
  refine exposure.step_linking mem (fun _ _ _ => h.linked new) links (fun e q hq he => ?_)
    (fun e q hq he => ?_) (cache ▸ exposure.cache) target fun e he => ?_
  · rcases h.owner_or he with rfl | owner
    · rw [new.mem, Option.some.injEq] at hq
      exact .inr (hq ▸ points)
    · exact .inl owner
  · by_cases eb : e = b
    · subst eb
      rw [viewB, new.quiet.view, new.mem, Option.some.injEq] at hq
      exact hq ▸ points.mono fun f l x hf =>
        ⟨h.linked new hf.1, fun z hz hl => absurd ⟨z, hz, hl⟩ hf.2⟩
    · exact view e q hq he eb
  · have hiddenB : e ≠ b := by
      rintro rfl
      obtain ⟨z, hz, hl⟩ := he
      exact free inv new hz hl
    have hiddenV : e ≠ v := by
      rintro rfl
      exact visibleV he
    rw [h.owed, Function.update_of_ne hiddenB, Function.update_of_ne hiddenV]

end Linking

theorem frame_postInternalSplit (inv : Invariant m cfg (s, g))
    (may : ∀ c, m.only = some c → t = c) {a b v : GlobalAddress} {p p' q sib : InternalPage}
    {k splitKey : Key} (parent : Parent m cfg t s g a p v k) (stored : p.Stored k v p')
    (halves : p'.Halves b q sib splitKey) (new : Written t s g b (.internal sib.setConsistent))
    {g' : Ghost} (linking : Linking t g b v (some t) g')
    (holding : g'.holding = Function.update g.holding (cfg.lockAddr a) none) :
    Frame m cfg t (s, g) (s.post t (.page a (.internal q.setConsistent)), g') := by
  have view := parent.view inv
  have sound := parent.sound inv
  have nonzero : p.hdr.level ≠ 0 := InternalPage.Ok.level sound.ok
  have childrenQ : ∀ c x, q.setConsistent.Child c x → (c = v ∧ x = k) ∨ p.Child c x :=
    fun c x h => ((stored.child c x).mp ((halves.child c x).mpr (.inl h))).imp id And.right
  have childrenS : ∀ c x, sib.setConsistent.Child c x → (c = v ∧ x = k) ∨ p.Child c x :=
    fun c x h => ((stored.child c x).mp ((halves.child c x).mpr (.inr h))).imp id And.right
  obtain ⟨pageLevel, pageLowest, pageHighest, pageSibling⟩ := halves.page_hdr
  obtain ⟨sibLevel, sibLowest, sibHighest, sibSibling⟩ := halves.sibling_hdr
  have levelQ : q.setConsistent.hdr.level = p.hdr.level := pageLevel.trans stored.level
  have levelS : sib.setConsistent.hdr.level = p.hdr.level := sibLevel.trans stored.level
  have highestQ : q.setConsistent.hdr.highest = splitKey := pageHighest
  have lowestS : sib.setConsistent.hdr.lowest = splitKey := sibLowest
  have siblingQ : q.setConsistent.hdr.siblingPtr = b := pageSibling
  have notB : ∀ e, g.owner e = none → e ≠ b := by
    rintro e h rfl
    rw [new.owner] at h
    cases h
  have linkedB : g'.Linked b p.hdr.level splitKey := by
    have := linking.linked_new inv new
    simp only [Page.hdr] at this
    rw [levelS, lowestS] at this
    exact this
  have same : SameLeaves s (s.post t (.page a (.internal q.setConsistent))) g g' :=
    sameLeaves_post linking.status (fun _ _ _ => linking.linked new)
      (fun _ _ => linking.leaf inv new (levelS.symm ▸ nonzero)) fun e x target h =>
        parent.notLeaf inv x (Option.some.inj target ▸ h)
  have below : splitKey < kKeyMax :=
    halves.below.trans_le (stored.highest ▸ InternalPage.Ok.highest_le sound.ok)
  have siblingS : ∀ reach, SiblingOk reach p.hdr → SiblingOk reach sib.setConsistent.hdr :=
    fun reach h => siblingOk_congr h levelS (sibHighest.trans stored.highest)
      (sibSibling.trans stored.siblingPtr)
  have tree : TreeInv (s.post t (.page a (.internal q.setConsistent))) g' := by
    refine inv.tree.link parent.owner view new.owner new.mem new.quiet levelQ
      (pageLowest.trans stored.lowest) levelS (lowestS.trans highestQ.symm)
      (sibHighest.trans stored.highest) halves.page_ok
      (points_of_children (sound.points.mono fun _ _ _ => linking.linked new) levelQ (.inr ⟨?_, ?_⟩)
        (linking.linked new parent.child) childrenQ) linking.info linking.owner fun e d h => ?_
    · rw [highestQ]
      exact below
    · rw [highestQ, siblingQ, levelQ]
      exact linkedB
    · by_cases eb : e = b
      · exact .inl eb
      · obtain ⟨other, old⟩ := linking.owed_old eb h
        refine .inr ⟨old, fun r x hr => ?_, fun r x hr => ?_⟩
        · cases hr
          exact parent.owed_other inv other old childrenQ x
        · cases hr
          exact parent.owed_other inv other old childrenS x
  have lock : LockInv cfg (s.post t (.page a (.internal q.setConsistent))) g' := by
    refine (linking.reowner inv new).postLinked rfl ?_ ?_ parent.holding linking.info linking.owner holding
    · exact (Function.update_of_ne (notB a parent.owner) none g.owner).trans parent.owner
    · exact (congrArg Option.isSome sound.info).trans rfl
  refine same.frame inv tree lock (fun vis => ?_) may (respects_post (fun e u target h => ?_)
    (fun e u hu h => ⟨linking.owner_other new hu h, by rw [linking.info]⟩)
    (fun e u hu h => linking.owed_other inv new parent.owed hu h) fun la u hu h => ?_)
  · have exposure := (inv.visible vis).exposure
    have sibling := (exposure.mem a _ parent.mem parent.owner).1
    refine linking.exposure inv new vis
      (parent.points_exposed inv vis levelS (siblingS _ sibling) childrenS) (parent.exposed inv vis)
      rfl rfl (fun z hz e h => same.links tree lock.single hz h) (fun e page h he eb => ?_)
      (view_post_page_other (notB a parent.owner).symm) fun z hz e target he => ?_
    · by_cases ea : e = a
      · subst ea
        rw [view_post_page, Option.some.injEq] at h
        subst h
        refine points_of_children (((exposure.mem e _ parent.mem parent.owner).mono
          fun f l x hf => ?_)) levelQ (.inr ⟨?_, ?_⟩) ?_ childrenQ
        · exact ⟨linking.linked new hf.1, fun z hz hl => absurd ⟨z, hz, hl⟩ hf.2⟩
        · rw [highestQ]
          exact below
        · rw [highestQ, siblingQ, levelQ]
          exact ⟨linkedB, fun z hz hl => absurd hl (Linking.free inv new hz)⟩
        · exact ⟨linking.linked new parent.child,
            fun z hz hl => absurd ⟨z, hz, hl⟩ (parent.exposed inv vis)⟩
      · rw [view_post_page_other ea] at h
        refine (exposure.view e page h ((linking.owner_or he).resolve_left eb)).mono fun f l x hf => ?_
        exact ⟨linking.linked new hf.1, hf.2⟩
    · rcases mem_post.mp hz with hz | rfl
      · rcases linking.owner_or he with rfl | owner
        · exact absurd target (new.quiet z hz)
        · exact exposure.target z hz e target owner
      · rw [← Option.some.inj target]
        exact inv.tree.exposed_of_level inv.lock.single ⟨sound.info, parent.owner⟩ (.inl nonzero)
  · rw [← Option.some.inj target, parent.owner] at h
    cases h
  · rw [holding]
    exact update_none_of_ne (fun w hw => Option.some.inj (hw.symm.trans parent.holding)) hu h

theorem frame_swapRoot (inv : Invariant m cfg (s, g)) (may : ∀ c, m.only = some c → t = c)
    {old b v : GlobalAddress} {l : Nat} {x splitKey : Key} (root : s.rootPtr = old)
    (linkedOld : g.Linked old l x) (linkedV : g.Linked v l splitKey) (owed : g.owed v = some t)
    (linkDone : m.visible → ¬ LinkPending s t)
    (new : Written t s g b (.internal (InternalPage.newRoot old splitKey v (l + 1)).setConsistent))
    {g' : Ghost} (linking : Linking t g b v none g') (holding : g'.holding = g.holding) :
    Frame m cfg t (s, g) ({ s with rootPtr := b }, g') := by
  obtain ⟨l', rootLinked, top⟩ := inv.tree.root
  simp only at rootLinked
  obtain ⟨rfl, rfl⟩ := linkedOld.level_eq (root ▸ rootLinked)
  have view : ({ s with rootPtr := b } : Shared).view = s.view := view_congr rfl rfl
  have children : ∀ c y, (InternalPage.newRoot old splitKey v (l + 1)).setConsistent.Child c y →
      (c = old ∧ y = kKeyMin) ∨ (c = v ∧ y = splitKey) := fun c y h => InternalPage.newRoot_child h
  have notOwed : ∀ e d, e ≠ v → g.owed e = some d →
      ∀ y, ¬ (InternalPage.newRoot old splitKey v (l + 1)).setConsistent.Child e y := by
    intro e d other h y child
    rcases children e y child with ⟨rfl, -⟩ | ⟨rfl, -⟩
    · obtain ⟨⟨l', y, linked, pos⟩, -⟩ := inv.tree.owed e d h
      exact absurd pos ((linkedOld.level_eq linked).2 ▸ lt_irrefl _)
    · exact other rfl
  have points : ∀ reach : GlobalAddress → Nat → Key → Prop, reach old l kKeyMin → reach v l splitKey →
      (Page.internal (InternalPage.newRoot old splitKey v (l + 1)).setConsistent).Points reach := by
    refine fun reach hold hv => ⟨.inl ⟨rfl, rfl⟩, fun c y h => ?_⟩
    rcases children c y h with ⟨rfl, rfl⟩ | ⟨rfl, rfl⟩
    · exact hold
    · exact hv
  have tree : TreeInv { s with rootPtr := b } g' := by
    refine inv.tree.swapRoot rootLinked new.owner new.mem new.quiet rfl rfl linking.info linking.owner
      fun e d h => ?_
    have eb : e ≠ b := by
      rintro rfl
      rw [linking.owed, Function.update_self] at h
      cases h
    obtain ⟨other, h⟩ := linking.owed_old eb h
    refine ⟨h, fun q y hq => ?_⟩
    cases hq
    exact notOwed e d other h y
  have same : SameLeaves s { s with rootPtr := b } g g' :=
    ⟨rfl, linking.status, fun _ _ _ => linking.linked new,
      fun _ _ => linking.leaf inv new (Nat.succ_ne_zero l), fun z hz => hz, fun z hz _ _ _ _ => hz,
      fun e _ _ => congrFun view e⟩
  have lock : LockInv cfg { s with rootPtr := b } g' :=
    (linking.reowner inv new).congr rfl rfl holding linking.info linking.owner
  refine same.frame inv tree lock (fun vis => ?_) may ⟨fun _ _ => rfl, fun e u hu h =>
    ⟨linking.owner_other new hu h, by rw [linking.info], id, congrFun view e⟩,
    fun e u hu h => linking.owed_other inv new owed hu h, fun la u _ h => ⟨holding ▸ h, rfl⟩,
    fun la u b _ h => h, fun z hz _ => hz, rfl⟩
  have exposure := (inv.visible vis).exposure
  have exposedOld : Exposed s g old l kKeyMin :=
    ⟨linkedOld, inv.tree.exposed_of_level inv.lock.single linkedOld (.inr rfl)⟩
  have exposedV := inv.not_hidden_of_owed vis owed (linkDone vis)
  refine linking.exposure inv new vis (points _ exposedOld ⟨linkedV, exposedV⟩) exposedV rfl rfl
    (fun z hz e h => same.links tree lock.single hz h) (fun e page h he eb => ?_) (congrFun view b)
    fun z hz e target he => ?_
  · rw [view] at h
    refine (exposure.view e page h ((linking.owner_or he).resolve_left eb)).mono fun f l x hf => ?_
    exact ⟨linking.linked new hf.1, hf.2⟩
  · rcases linking.owner_or he with rfl | owner
    · exact absurd target (new.quiet z hz)
    · exact exposure.target z hz e target owner

end Sherman
