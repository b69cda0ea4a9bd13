import Sherman.Tree.Frame

namespace Sherman

open Shared

variable {m : Mode} {cfg : Config} {t : Client} {s s' : Shared} {g g' : Ghost}

/-- No leaf of the tree changes, none is linked, and no page is hidden. -/
structure SameLeaves (s s' : Shared) (g g' : Ghost) : Prop where
  mem : s'.mem = s.mem
  status : g'.status = g.status
  linked : ∀ a l x, g.Linked a l x → g'.Linked a l x
  leaf : ∀ a x, g'.Linked a 0 x → g.Linked a 0 x
  pending : ∀ z ∈ s.pending, z ∈ s'.pending
  target : ∀ z ∈ s'.pending, ∀ a x, z.write.target = some a → g.Linked a 0 x → z ∈ s.pending
  view : ∀ a x, g.Linked a 0 x → s'.view a = s.view a

namespace SameLeaves

theorem links (h : SameLeaves s s' g g') (tree : TreeInv s' g') (single : s'.Single) {z : Posted}
    (hz : z ∈ s'.pending) {b : GlobalAddress} (links : Links g' z b) : z ∈ s.pending ∧ Links g z b := by
  obtain ⟨a, p, write, owner, sibling⟩ := links
  have linked := h.leaf a _ (tree.linked_of_leaf_view (view_of_page single hz write) owner)
  exact ⟨h.target z hz a _ (by rw [write]; rfl) linked, a, p, write, linked.2, sibling⟩

theorem links_mono (h : SameLeaves s s' g g') (tree : TreeInv s g) (single : s.Single) {z : Posted}
    (hz : z ∈ s.pending) {b : GlobalAddress} (links : Links g z b) : Links g' z b := by
  obtain ⟨a, p, write, owner, sibling⟩ := links
  have linked := h.linked a 0 _ (tree.linked_of_leaf_view (view_of_page single hz write) owner)
  exact ⟨a, p, write, linked.2, sibling⟩

theorem hidden (h : SameLeaves s s' g g') (tree : TreeInv s g) (single : s.Single)
    (tree' : TreeInv s' g') (single' : s'.Single) : Hidden s' g' = Hidden s g := by
  funext b
  refine propext ⟨?_, ?_⟩
  · rintro ⟨z, hz, links⟩
    exact ⟨z, h.links tree' single' hz links⟩
  · rintro ⟨z, hz, links⟩
    exact ⟨z, h.pending z hz, h.links_mono tree single hz links⟩

theorem bindings (h : SameLeaves s s' g g') (tree : TreeInv s g) (tree' : TreeInv s' g') :
    Bindings s' g' = Bindings s g := by
  funext k v
  refine propext ⟨?_, ?_⟩
  · rintro ⟨a, p, owner, view, holds⟩
    have linked := h.leaf a _ (tree'.linked_of_leaf_view view owner)
    exact ⟨a, p, linked.2, (h.view a _ linked).symm.trans view, holds⟩
  · rintro ⟨a, p, owner, view, holds⟩
    have linked := tree.linked_of_leaf_view view owner
    exact ⟨a, p, (h.linked a 0 _ linked).2, (h.view a _ linked).trans view, holds⟩

theorem executed (h : SameLeaves s s' g g') (tree : TreeInv s g) (single : s.Single)
    (tree' : TreeInv s' g') (single' : s'.Single) : Executed s' g' = Executed s g := by
  funext k v
  unfold Executed
  rw [h.hidden tree single tree' single', h.mem]
  refine propext (exists_congr fun a => exists_congr fun p => ⟨?_, ?_⟩)
  · rintro ⟨owner, exposed, mem, holds⟩
    exact ⟨(h.leaf a _ (tree'.linked_of_leaf (h.mem ▸ mem) owner)).2, exposed, mem, holds⟩
  · rintro ⟨owner, exposed, mem, holds⟩
    exact ⟨(h.linked a 0 _ (tree.linked_of_leaf mem owner)).2, exposed, mem, holds⟩

theorem visible (h : SameLeaves s s' g g') (tree : TreeInv s g) (single : s.Single)
    (tree' : TreeInv s' g') (single' : s'.Single) (inv : VisibleInv s g)
    (exposure : ExposureInv s' g') : VisibleInv s' g' := by
  have hidden := h.hidden tree single tree' single'
  refine ⟨exposure, inv.disjoint.step h.mem (fun a x hl hh => ⟨h.leaf a x hl, hidden ▸ hh⟩) tree',
    fun z hz a p target owner mem => ?_, fun c op w r status => ?_⟩
  · have linked := h.leaf a _ (tree'.linked_of_leaf mem owner)
    obtain ⟨op, r, c⟩ := inv.commit.pending z (h.target z hz a _ target linked) a p target linked.2
      (h.mem ▸ mem)
    refine ⟨op, r, h.status ▸ c.status, c.low, c.high, ?_, c.shrinks⟩
    have : After s' a z.write = After s a z.write := by
      funext k v
      simp only [After, h.view a _ linked, h.mem]
    rw [this]
    exact c.effect
  · rw [h.status] at status
    obtain ⟨pending, a, p, target, owner, mem⟩ := inv.commit.status c op w r status
    exact ⟨h.pending _ pending, a, p, target, (h.linked a 0 _ (tree.linked_of_leaf mem owner)).2,
      h.mem ▸ mem⟩

end SameLeaves

structure Respects (t : Client) (s s' : Shared) (g g' : Ghost) : Prop where
  path : ∀ u, u ≠ t → s'.path u = s.path u
  owner : ∀ a u, u ≠ t → g.owner a = some u →
    g'.owner a = some u ∧ g'.info a = g.info a ∧ (s.Quiet a → s'.Quiet a) ∧ s'.view a = s.view a
  owed : ∀ a u, u ≠ t → g.owed a = some u → g'.owed a = some u
  holding : ∀ la u, u ≠ t → g.holding la = some u →
    g'.holding la = some u ∧ s'.lock la = s.lock la
  lock : ∀ la u b, u ≠ t → s'.lock la = some (u, b) → s.lock la = some (u, b)
  pending : ∀ z ∈ s'.pending, z.client ≠ t → z ∈ s.pending
  dir : s'.dir = s.dir

theorem Respects.rely (h : Respects t s s' g g')
    (linked : ∀ a l x, g.Linked a l x → g'.Linked a l x) (mem : s'.mem = s.mem)
    (reach : m.visible → ∀ a l x, g.Linked a l x → ¬ Hidden s g a → ¬ Hidden s' g' a)
    {u : Client} (other : u ≠ t) (status : g'.status u = g.status u) :
    Rely m cfg u (s, g) (s', g') where
  linked := linked
  reach := reach
  path := h.path u other
  owner a ha := ⟨(h.owner a u other ha).1, (h.owner a u other ha).2.1⟩
  private_ a ha := (h.owner a u other ha).2.2
  owed a ha := h.owed a u other ha
  holding la hl := h.holding la u other hl
  held a _ _ _ _ := congrFun mem a
  lock la b hl := h.lock la u b other hl
  pending z hz hc := h.pending z hz (hc ▸ other)
  status := .inl status
  enabled _ hn := h.dir ▸ hn
  rooted _ hn := h.dir ▸ hn

theorem SameLeaves.frame (h : SameLeaves s s' g g') (inv : Invariant m cfg (s, g))
    (tree : TreeInv s' g') (lock : LockInv cfg s' g')
    (exposure : m.visible → ExposureInv s' g')
    (may : ∀ c, m.only = some c → t = c) (respects : Respects t s s' g g') :
    Frame m cfg t (s, g) (s', g') := by
  refine ⟨⟨tree, lock, fun vis => ?_, fun c hc z hz => ?_, fun high n => respects.dir ▸ inv.high high n⟩,
    fun u hu => ?_, h.status,
    h.bindings inv.tree tree, fun _ => h.executed inv.tree inv.lock.single tree lock.single⟩
  · exact h.visible inv.tree inv.lock.single tree lock.single (inv.visible vis) (exposure vis)
  · by_cases mine : z.client = t
    · exact mine.trans (may c hc)
    · exact inv.only c hc z (respects.pending z hz mine)
  · refine respects.rely h.linked h.mem (fun _ a l x _ hh => ?_) hu (by rw [h.status])
    rw [h.hidden inv.tree inv.lock.single tree lock.single]
    exact hh

/-! ## Posting -/

theorem quiet_post {w : Write} {a : GlobalAddress} (quiet : s.Quiet a) (other : w.target ≠ some a) :
    (s.post t w).Quiet a := by
  intro z hz
  rcases mem_post.mp hz with hz | rfl
  · exact quiet z hz
  · exact other

theorem respects_post {w : Write} (target : ∀ a u, w.target = some a → g.owner a = some u → u = t)
    (owner : ∀ a u, u ≠ t → g.owner a = some u → g'.owner a = some u ∧ g'.info a = g.info a)
    (owed : ∀ a u, u ≠ t → g.owed a = some u → g'.owed a = some u)
    (holding : ∀ la u, u ≠ t → g.holding la = some u → g'.holding la = some u) :
    Respects t s (s.post t w) g g' where
  path _ _ := rfl
  owner a u hu ha := ⟨(owner a u hu ha).1, (owner a u hu ha).2,
    fun quiet => quiet_post quiet fun h => hu (target a u h ha),
    view_post_other fun h => hu (target a u h ha)⟩
  owed := owed
  holding la u hu hl := ⟨holding la u hu hl, rfl⟩
  lock _ _ _ _ hl := hl
  pending z hz hc := by
    rcases mem_post.mp hz with hz | rfl
    · exact hz
    · exact absurd rfl hc
  dir := rfl

theorem sameLeaves_post {w : Write} (status : g'.status = g.status)
    (linked : ∀ a l x, g.Linked a l x → g'.Linked a l x)
    (leaf : ∀ a x, g'.Linked a 0 x → g.Linked a 0 x)
    (target : ∀ a x, w.target = some a → ¬ g.Linked a 0 x) : SameLeaves s (s.post t w) g g' where
  mem := rfl
  status := status
  linked := linked
  leaf := leaf
  pending z hz := mem_post.mpr (.inl hz)
  target z hz a x ht hl := by
    rcases mem_post.mp hz with hz | rfl
    · exact hz
    · exact absurd hl (target a x ht)
  view a x hl := view_post_other fun ht => target a x ht hl

theorem update_some_none {α β : Type} [DecidableEq α] {f : α → Option β} {i a : α} {v : β}
    (h : Function.update f i none a = some v) : f a = some v := by
  by_cases same : a = i
  · subst same
    simp at h
  · rwa [Function.update_of_ne same] at h

theorem update_none_of_ne {α β : Type} [DecidableEq α] {f : α → Option β} {i a : α} {u t : β}
    (own : ∀ w, f i = some w → w = t) (other : u ≠ t) (h : f a = some u) :
    Function.update f i none a = some u := by
  rw [Function.update_of_ne]
  · exact h
  · rintro rfl
    exact other (own u h)

theorem frame_postUnlock (inv : Invariant m cfg (s, g)) (may : ∀ c, m.only = some c → t = c)
    {la : GlobalAddress} (lock : s.lock la = some (t, false))
    (once : ∀ z ∈ s.pending, z.write ≠ .unlock la) (free : ∀ u, g.holding la = some u → u = t) :
    Frame m cfg t (s, g) (s.post t (.unlock la), g.setHolding la none) := by
  have same : SameLeaves s (s.post t (.unlock la)) g (g.setHolding la none) :=
    sameLeaves_post rfl (fun a l x h => h) (fun a x h => h) fun a x h => by cases h
  have view : (s.post t (.unlock la)).view = s.view := by
    funext a
    exact view_post_other fun h => by cases h
  refine same.frame inv (inv.tree.congr rfl view rfl rfl rfl rfl rfl rfl rfl rfl)
    (inv.lock.postUnlock lock once rfl rfl rfl) (fun vis => ?_) may
    (respects_post (fun a u h => by cases h) (fun a u _ h => ⟨h, rfl⟩) (fun a u _ h => h)
      fun lb u hu h => update_none_of_ne free hu h)
  have exposure := (inv.visible vis).exposure
  refine exposure.step rfl (fun b l x h => h) (fun z hz b h => ?_) (fun a page _ h => .inl h) ?_
    exposure.cache (fun z hz a target owner => ?_) fun b _ => rfl
  · rcases mem_post.mp hz with hz | rfl
    · exact ⟨hz, h⟩
    · obtain ⟨a, p, write, -, -⟩ := h
      cases write
  · rw [view]
    exact exposure.view
  · rcases mem_post.mp hz with hz | rfl
    · exact exposure.target z hz a target owner
    · cases target

theorem Invariant.quiet_of_fresh (inv : Invariant m cfg (s, g)) {a : GlobalAddress}
    (fresh : g.info a = none) : s.Quiet a := by
  intro z hz target
  have := inv.lock.written z hz a target
  rw [fresh] at this
  cases this

theorem frame_alloc (inv : Invariant m cfg (s, g)) (may : ∀ c, m.only = some c → t = c)
    {a : GlobalAddress} (nonnull : a ≠ .null) (fresh : a ∉ s.allocated) :
    Frame m cfg t (s, g) ({ s with allocated := a :: s.allocated }, g.setOwner a (some t)) := by
  obtain ⟨noInfo, noOwner⟩ : g.info a = none ∧ g.owner a = none := inv.tree.allocated a fresh
  have view : ({ s with allocated := a :: s.allocated } : Shared).view = s.view := view_congr rfl rfl
  have tree : TreeInv { s with allocated := a :: s.allocated } (g.setOwner a (some t)) :=
    inv.tree.alloc nonnull fresh rfl rfl rfl
  have other : ∀ b, b ≠ a → (g.setOwner a (some t)).owner b = g.owner b :=
    fun b h => Function.update_of_ne h _ _
  have linked_iff : ∀ b l x, (g.setOwner a (some t)).Linked b l x ↔ g.Linked b l x := by
    intro b l x
    by_cases h : b = a
    · subst h
      simp [Ghost.Linked, noInfo]
    · simp [Ghost.Linked, h]
  have owner_none : ∀ b, (g.setOwner a (some t)).owner b = none → g.owner b = none := by
    intro b h
    by_cases h' : b = a
    · exact h' ▸ noOwner
    · exact other b h' ▸ h
  have same : SameLeaves s { s with allocated := a :: s.allocated } g (g.setOwner a (some t)) :=
    ⟨rfl, rfl, fun b l x h => (linked_iff b l x).mpr h, fun b x h => (linked_iff b 0 x).mp h,
      fun z hz => hz, fun z hz _ _ _ _ => hz, fun b x _ => congrFun view b⟩
  have quiet := inv.quiet_of_fresh noInfo
  refine same.frame inv tree (inv.lock.reowner rfl rfl rfl (fun b h => h) fun b busy => ?_)
    (fun vis => ?_) may ⟨fun u _ => rfl, fun b u hu h => ⟨?_, rfl, id,
      congrFun view b⟩, fun b u _ h => h, fun la u _ h => ⟨h, rfl⟩, fun la u b _ h => h,
      fun z hz _ => hz, rfl⟩
  · refine other b ?_
    rintro rfl
    exact busy quiet
  · have exposure := (inv.visible vis).exposure
    refine exposure.step rfl same.linked (fun z hz b h => ⟨hz, ?_⟩)
      (fun b page _ h => .inl (owner_none b h)) (fun b page h owner => ?_) exposure.cache
      (fun z hz b target owner => exposure.target z hz b target (owner_none b owner)) fun b _ => rfl
    · obtain ⟨c, p, write, owner, sibling⟩ := h
      exact ⟨c, p, write, owner_none c owner, sibling⟩
    · rw [view] at h
      exact exposure.view b page h (owner_none b owner)
  · refine (other b ?_).trans h
    rintro rfl
    rw [noOwner] at h
    cases h

theorem frame_postPrivate (inv : Invariant m cfg (s, g)) (may : ∀ c, m.only = some c → t = c)
    {a : GlobalAddress} {page : Page} (owner : g.owner a = some t) (fresh : g.info a = none)
    (ok : page.Ok) (points : page.Points g.Linked) :
    Frame m cfg t (s, g)
      (s.post t (.page a page), g.setInfo a (some (page.hdr.level, page.hdr.lowest))) := by
  have tree : TreeInv (s.post t (.page a page))
      (g.setInfo a (some (page.hdr.level, page.hdr.lowest))) :=
    inv.tree.postPrivate owner fresh ok points rfl rfl rfl
  have notA : ∀ b, g.owner b = none → b ≠ a := by
    rintro b h rfl
    rw [owner] at h
    cases h
  have linked_iff : ∀ b l x, (g.setInfo a (some (page.hdr.level, page.hdr.lowest))).Linked b l x ↔
      g.Linked b l x := by
    intro b l x
    by_cases h : b = a
    · subst h
      simp [Ghost.Linked, owner]
    · simp [Ghost.Linked, h]
  have same : SameLeaves s (s.post t (.page a page)) g
      (g.setInfo a (some (page.hdr.level, page.hdr.lowest))) :=
    sameLeaves_post rfl (fun b l x h => (linked_iff b l x).mpr h) (fun b x h => (linked_iff b 0 x).mp h)
      fun b x target h => notA b h.2 (Option.some.inj target).symm
  have quiet := inv.quiet_of_fresh fresh
  have lock : LockInv cfg s (g.setInfo a (some (page.hdr.level, page.hdr.lowest))) := by
    refine inv.lock.reowner rfl rfl rfl (fun b h => ?_) fun b _ => rfl
    by_cases h' : b = a
    · subst h'
      simp
    · simpa [h'] using h
  refine same.frame inv tree (lock.postPrivate owner (by simp) quiet) (fun vis => ?_) may
    (respects_post (fun b u target h => ?_) (fun b u hu h => ⟨h, ?_⟩) (fun b u _ h => h)
      fun la u _ h => h)
  · have exposure := (inv.visible vis).exposure
    refine exposure.step rfl same.linked (fun z hz b h => ?_) (fun b q _ h => .inl h)
      (fun b q h unowned => ?_) exposure.cache (fun z hz b target unowned => ?_) fun b _ => rfl
    · rcases mem_post.mp hz with hz | rfl
      · exact ⟨hz, h⟩
      · obtain ⟨b, p, write, unowned, -⟩ := h
        cases write
        exact absurd rfl (notA a unowned)
    · rw [view_post_page_other (notA b unowned)] at h
      exact exposure.view b q h unowned
    · rcases mem_post.mp hz with hz | rfl
      · exact exposure.target z hz b target unowned
      · exact absurd (Option.some.inj target).symm (notA b unowned)
  · rw [← Option.some.inj target, owner] at h
    exact (Option.some.inj h).symm
  · refine Function.update_of_ne ?_ _ _
    rintro rfl
    rw [owner] at h
    exact hu (Option.some.inj h).symm

end Sherman
