import Sherman.Tree.Growing

namespace Sherman

open Shared

variable {m : Mode} {cfg : Config} {t : Client} {s : Shared} {g g' : Ghost}

def Elsewhere (s : Shared) (g : Ghost) (a : GlobalAddress) (k : Key) (v : Value) : Prop :=
  ∃ b q, b ≠ a ∧ g.owner b = none ∧ s.view b = some (.leaf q) ∧ q.Holds k v

theorem bindings_split {a : GlobalAddress} {p : LeafPage} (view : s.view a = some (.leaf p))
    (owner : g.owner a = none) :
    Bindings s g = fun k v => p.Holds k v ∨ Elsewhere s g a k v := by
  funext k v
  refine propext ⟨?_, ?_⟩
  · rintro ⟨b, q, ownerB, viewB, holds⟩
    by_cases same : b = a
    · subst same
      rw [view, Option.some.injEq, Page.leaf.injEq] at viewB
      exact .inl (viewB ▸ holds)
    · exact .inr ⟨b, q, same, ownerB, viewB, holds⟩
  · rintro (holds | ⟨b, q, -, ownerB, viewB, holds⟩)
    · exact ⟨a, p, owner, view, holds⟩
    · exact ⟨b, q, ownerB, viewB, holds⟩

structure Target (m : Mode) (cfg : Config) (t : Client) (s : Shared) (g : Ghost)
    (a : GlobalAddress) (p : LeafPage) (op : Op) : Prop where
  owner : g.owner a = none
  mem : s.mem a = some (.leaf p)
  holding : g.holding (cfg.lockAddr a) = some t
  exposed : m.visible → ¬ Hidden s g a
  low : p.hdr.lowest ≤ op.key
  high : op.key < p.hdr.highest
  fresh : g.status t = some ⟨op, none, none, none⟩

namespace Target
variable {a : GlobalAddress} {p : LeafPage} {op : Op}

theorem quiet (h : Target m cfg t s g a p op) (inv : Invariant m cfg (s, g)) : s.Quiet a :=
  inv.lock.quiet_of_holding h.holding h.owner

theorem view (h : Target m cfg t s g a p op) (inv : Invariant m cfg (s, g)) :
    s.view a = some (.leaf p) := (h.quiet inv).view.trans h.mem

theorem sound (h : Target m cfg t s g a p op) (inv : Invariant m cfg (s, g)) :
    PageSound g a (.leaf p) := inv.tree.mem_sound a _ h.mem

theorem ok (h : Target m cfg t s g a p op) (inv : Invariant m cfg (s, g)) : p.Ok := (h.sound inv).ok

theorem unbound_elsewhere (h : Target m cfg t s g a p op) (inv : Invariant m cfg (s, g)) (v : Value) :
    ¬ Elsewhere s g a op.key v := by
  rintro ⟨b, q, other, ownerB, viewB, holds⟩
  have okB : q.Ok := (inv.tree.view_sound b _ viewB).ok
  obtain ⟨lowB, highB⟩ := okB.holds_range holds
  exact other (inv.tree.page_unique viewB ownerB (h.view inv) h.owner
    (okB.level.trans (h.ok inv).level.symm) lowB highB h.low h.high)

theorem not_client (h : Target m cfg t s g a p op) (inv : Invariant m cfg (s, g)) (vis : m.visible)
    {z : Posted} (hz : z ∈ s.pending) {b : GlobalAddress} {q : LeafPage}
    (target : z.write.target = some b) (owner : g.owner b = none) (mem : s.mem b = some (.leaf q)) :
    z.client ≠ t := by
  intro same
  obtain ⟨op', r, commits⟩ := (inv.visible vis).commit.pending z hz b q target owner mem
  have status := commits.status
  rw [same, h.fresh] at status
  simp at status

end Target

structure LeafPost (m : Mode) (cfg : Config) (t : Client) (s : Shared) (g : Ghost)
    (a : GlobalAddress) (p : LeafPage) (op : Op) (w : Write) (g' : Ghost) : Prop where
  target : w.target = some a
  tree : TreeInv (s.post t w) g'
  lock : LockInv cfg (s.post t w) g'
  exposure : m.visible → ExposureInv (s.post t w) g'
  linked : ∀ e l x, g.Linked e l x → g'.Linked e l x
  hidden : ∀ e l x, g.Linked e l x → Hidden (s.post t w) g' e → Hidden s g e
  hidden_mono : ∀ e, Hidden s g e → Hidden (s.post t w) g' e
  leaf : ∀ e x, g'.Linked e 0 x → g.Linked e 0 x ∨ Hidden (s.post t w) g' e
  status : g'.status = Function.update g.status t (some ⟨op, some w, some .done, none⟩)
  respects : Respects t s (s.post t w) g g'
  effect : op.Effect .done p.Holds (After (s.post t w) a w)
  shrinks : ∀ p', w = .page a (.leaf p') → p'.hdr.highest < p.hdr.highest
  bindings : ∀ k v, Bindings (s.post t w) g' k v ↔
    After (s.post t w) a w k v ∨ Elsewhere s g a k v

namespace LeafPost
variable {a : GlobalAddress} {p : LeafPage} {op : Op} {w : Write}

theorem commit (h : LeafPost m cfg t s g a p op w g') (held : Target m cfg t s g a p op)
    (inv : Invariant m cfg (s, g)) (vis : m.visible) : CommitInv (s.post t w) g' := by
  have commit := (inv.visible vis).commit
  have quiet := held.quiet inv
  have old : ∀ e q, s.mem e = some (.leaf q) → g'.owner e = none →
      g.Linked e 0 q.hdr.lowest ∨ Hidden (s.post t w) g' e :=
    fun e q mem owner => h.leaf e _ (h.tree.linked_of_leaf mem owner)
  refine ⟨fun z hz e q target owner mem => ?_, fun c op' w' r status => ?_⟩
  · have notHidden := (h.exposure vis).target z hz e target owner
    have linked := (old e q mem owner).resolve_right notHidden
    rcases mem_post.mp hz with hz | rfl
    · obtain ⟨op', r, commits⟩ := commit.pending z hz e q target linked.2 mem
      have other : z.client ≠ t := held.not_client inv vis hz target linked.2 mem
      refine ⟨op', r, ?_, commits.low, commits.high, ?_, commits.shrinks⟩
      · rw [h.status, Function.update_of_ne other]
        exact commits.status
      · have ne : w.target ≠ some e := by
          rw [h.target]
          intro same
          exact quiet z hz (Option.some.inj same ▸ target)
        have : After (s.post t w) e z.write = After s e z.write := by
          funext k v
          simp only [After, view_post_other ne, post_mem]
        rw [this]
        exact commits.effect
    · rw [h.target, Option.some.injEq] at target
      subst target
      rw [post_mem, held.mem, Option.some.injEq, Page.leaf.injEq] at mem
      subst mem
      refine ⟨op, .done, ?_, held.low, held.high, h.effect, h.shrinks⟩
      rw [h.status, Function.update_self]
  · rw [h.status] at status
    by_cases same : c = t
    · subst same
      rw [Function.update_self] at status
      simp only [Option.some.injEq, Running.mk.injEq] at status
      obtain ⟨-, rfl, -⟩ := status
      refine ⟨mem_post.mpr (.inr rfl), a, p, h.target, ?_, held.mem⟩
      exact (h.linked a _ _ ⟨(held.sound inv).info, held.owner⟩).2
    · rw [Function.update_of_ne same] at status
      obtain ⟨pending, b, q, target, owner, mem⟩ := commit.status c op' w' r status
      exact ⟨mem_post.mpr (.inl pending), b, q, target,
        (h.linked b 0 _ (inv.tree.linked_of_leaf mem owner)).2, mem⟩

theorem executed (h : LeafPost m cfg t s g a p op w g') (inv : Invariant m cfg (s, g)) :
    Executed (s.post t w) g' = Executed s g := by
  funext k v
  refine propext ⟨?_, ?_⟩
  · rintro ⟨e, q, owner, exposed, mem, holds⟩
    have linked := (h.leaf e _ (h.tree.linked_of_leaf mem owner)).resolve_right exposed
    exact ⟨e, q, linked.2, fun hidden => exposed (h.hidden_mono e hidden), mem, holds⟩
  · rintro ⟨e, q, owner, exposed, mem, holds⟩
    have linked := inv.tree.linked_of_leaf mem owner
    exact ⟨e, q, (h.linked e 0 _ linked).2, fun hidden => exposed (h.hidden e 0 _ linked hidden), mem,
      holds⟩

theorem invariant (h : LeafPost m cfg t s g a p op w g') (held : Target m cfg t s g a p op)
    (inv : Invariant m cfg (s, g)) (may : ∀ c, m.only = some c → t = c) :
    Invariant m cfg (s.post t w, g') := by
  refine ⟨h.tree, h.lock, fun vis => ⟨h.exposure vis, ?_, h.commit held inv vis⟩, fun c hc z hz => ?_, inv.high⟩
  · refine (inv.visible vis).disjoint.step rfl (fun e x linked exposed => ?_) h.tree
    exact ⟨(h.leaf e x linked).resolve_right exposed, fun hidden => exposed (h.hidden_mono e hidden)⟩
  · rcases mem_post.mp hz with hz | rfl
    · exact inv.only c hc z hz
    · exact may c hc

theorem guarantee (h : LeafPost m cfg t s g a p op w g') (held : Target m cfg t s g a p op)
    (inv : Invariant m cfg (s, g)) (may : ∀ c, m.only = some c → t = c) :
    Guarantee m cfg t (.post [w]) (s, g) (s.post t w, g') := by
  have effect : op.Effect .done (Bindings s g) (Bindings (s.post t w) g') := by
    have after : Bindings (s.post t w) g' = fun k v =>
        After (s.post t w) a w k v ∨ Elsewhere s g a k v := by
      funext k v
      exact propext (h.bindings k v)
    simp only [after, bindings_split (held.view inv) held.owner]
    exact h.effect.local (held.unbound_elsewhere inv)
  have before : postedTrack g t = some (op, none) := by simp [postedTrack, held.fresh]
  refine ⟨h.invariant held inv may, fun u hu => ?_, trivial, .inr ⟨op, .done, before, ?_, effect⟩, fun quiet => ?_,
    fun _ => ⟨op, before, effect⟩, fun vis => ?_, fun c => ?_⟩
  · refine h.respects.rely h.linked rfl (fun _ e l x hl hh hidden => ?_) hu ?_
    · exact hh (h.hidden e l x hl hidden)
    · rw [h.status, Function.update_of_ne hu]
  · funext c
    by_cases same : c = t
    · subst same
      simp [postedTrack, h.status]
    · simp [postedTrack, h.status, same]
  · exact absurd ⟨w, by simp, a, p, h.target, held.mem⟩ quiet
  · refine .inl ⟨?_, h.executed inv⟩
    funext c
    by_cases same : c = t
    · subst same
      simp [executedTrack, h.status, held.fresh]
    · simp [executedTrack, h.status, same]
  · by_cases same : c = t
    · subst same
      simp [h.status, held.fresh]
    · simp [h.status, same]

end LeafPost

/-! ## The two kinds of leaf writes -/

theorem leafPost_entry (inv : Invariant m cfg (s, g)) {a : GlobalAddress} {p p' : LeafPage} {op : Op}
    (held : Target m cfg t s g a p op) {i : Nat} {e : LeafEntry} (slot : p' = p.setRecord i e)
    (ok : p'.Ok) (effect : op.Effect .done p.Holds p'.Holds) :
    LeafPost m cfg t s g a p op (.entry a i e) ((g.setHolding (cfg.lockAddr a) none).setStatus t
      (some ⟨op, some (.entry a i e), some .done, none⟩)) := by
  have sound := held.sound inv
  have view := held.view inv
  have updated : (s.post t (.entry a i e)).view a = some (.leaf p') := by
    simp only [view_post, Write.target, if_true, view, Write.apply, slot]
  have other : ∀ b, b ≠ a → (s.post t (.entry a i e)).view b = s.view b :=
    fun b h => view_post_other fun same => h (Option.some.inj same).symm
  have hdr : p'.hdr = p.hdr := by rw [slot]; rfl
  have after : After (s.post t (.entry a i e)) a (.entry a i e) = p'.Holds := by
    funext k v
    refine propext ⟨?_, fun h => .inl ⟨p', updated, h⟩⟩
    rintro (⟨q, hq, h⟩ | ⟨q, r, write, -⟩)
    · rw [updated, Option.some.injEq, Page.leaf.injEq] at hq
      exact hq ▸ h
    · cases write
  have links : ∀ z ∈ (s.post t (.entry a i e)).pending, ∀ b, Links g z b → z ∈ s.pending ∧ Links g z b := by
    intro z hz b h
    rcases mem_post.mp hz with hz | rfl
    · exact ⟨hz, h⟩
    · obtain ⟨c, q, write, -, -⟩ := h
      cases write
  have tree : TreeInv (s.post t (.entry a i e)) ((g.setHolding (cfg.lockAddr a) none).setStatus t
      (some ⟨op, some (.entry a i e), some .done, none⟩)) := by
    have points : (Page.leaf p').Points g.Linked := by
      have := sound.points
      simp only [Page.Points] at this ⊢
      rw [hdr]
      exact this
    have okPage : (Page.leaf p').Ok := ok
    refine inv.tree.postLinked held.owner view rfl (by rw [Write.apply, ← slot]) ?_ ?_ ?_ okPage points rfl
      rfl fun b d h => ⟨h, fun q x hq => ?_⟩
    · simp only [Page.hdr, hdr]
    · simp only [Page.hdr, hdr]
    · simp only [Page.hdr, hdr]
    · cases hq
  refine ⟨rfl, tree, inv.lock.postLinked rfl held.owner (by rw [sound.info]; rfl)
    held.holding rfl rfl rfl, fun vis => ?_, fun _ _ _ h => h, fun b l x _ hidden => ?_,
    fun b hidden => ?_, fun b x h => .inl h, rfl, respects_post (fun b u target h => ?_)
    (fun b u _ h => ⟨h, rfl⟩) (fun b u _ h => h) fun la u hu h => update_none_of_ne
      (fun w hw => Option.some.inj (hw.symm.trans held.holding)) hu h, after ▸ effect,
    fun q write => Write.noConfusion write, fun k v => ?_⟩
  · have exposure := (inv.visible vis).exposure
    refine exposure.step rfl (fun _ _ _ h => h) links (fun b q _ h => .inl h)
      (fun b q h unowned => ?_) exposure.cache (fun z hz b target unowned => ?_) fun b _ => rfl
    · by_cases same : b = a
      · subst same
        rw [updated, Option.some.injEq] at h
        subst h
        have := exposure.view b _ view unowned
        simp only [Page.Points] at this ⊢
        rw [hdr]
        exact this
      · rw [other b same] at h
        exact exposure.view b q h unowned
    · rcases mem_post.mp hz with hz | rfl
      · exact exposure.target z hz b target unowned
      · rw [← Option.some.inj target]
        exact held.exposed vis
  · obtain ⟨z, hz, h⟩ := hidden
    exact ⟨z, links z hz b h⟩
  · obtain ⟨z, hz, h⟩ := hidden
    exact ⟨z, mem_post.mpr (.inl hz), h⟩
  · rw [← Option.some.inj target, held.owner] at h
    cases h
  · rw [after]
    constructor
    · rintro ⟨b, q, owner, hq, h⟩
      by_cases same : b = a
      · subst same
        rw [updated, Option.some.injEq, Page.leaf.injEq] at hq
        exact .inl (hq ▸ h)
      · exact .inr ⟨b, q, same, owner, other b same ▸ hq, h⟩
    · rintro (h | ⟨b, q, same, owner, hq, h⟩)
      · exact ⟨a, p', held.owner, updated, h⟩
      · exact ⟨b, q, owner, (other b same).trans hq, h⟩

structure Splitting (cfg : Config) (t : Client) (g : Ghost) (a b : GlobalAddress) (op : Op)
    (w : Write) (g' : Ghost) : Prop where
  info : g'.info = g.info
  owner : g'.owner = Function.update g.owner b none
  owed : g'.owed = Function.update g.owed b (some t)
  holding : g'.holding = Function.update g.holding (cfg.lockAddr a) none
  status : g'.status = Function.update g.status t (some ⟨op, some w, some .done, none⟩)

theorem leafPost_split (inv : Invariant m cfg (s, g)) {a b : GlobalAddress} {p p' q sib : LeafPage}
    {op : Op} {splitKey : Key} (held : Target m cfg t s g a p op) (hdr : p'.hdr = p.hdr)
    (effect : op.Effect .done p.Holds p'.Holds) (halves : p'.Halves b q sib splitKey)
    (new : Written t s g b (.leaf sib.setConsistent))
    (splitting : Splitting cfg t g a b op (.page a (.leaf q.setConsistent)) g') :
    LeafPost m cfg t s g a p op (.page a (.leaf q.setConsistent)) g' := by
  have sound := held.sound inv
  have view := held.view inv
  have quiet := held.quiet inv
  have okP := held.ok inv
  have updated : (s.post t (.page a (.leaf q.setConsistent))).view a = some (.leaf q.setConsistent) :=
    view_post_page _ _ _ _
  have other : ∀ e, e ≠ a → (s.post t (.page a (.leaf q.setConsistent))).view e = s.view e :=
    fun e h => view_post_page_other h
  obtain ⟨pageLowest, pageHighest, pageSibling⟩ := halves.page_hdr
  obtain ⟨sibLowest, sibHighest, sibSibling⟩ := halves.sibling_hdr
  rw [hdr] at pageLowest sibHighest sibSibling
  have levelP : p.hdr.level = 0 := okP.level
  have levelQ : q.setConsistent.hdr.level = 0 := LeafPage.Ok.level halves.page_ok
  have levelS : sib.setConsistent.hdr.level = 0 := LeafPage.Ok.level halves.sibling_ok
  have highestQ : q.setConsistent.hdr.highest = splitKey := pageHighest
  have lowestS : sib.setConsistent.hdr.lowest = splitKey := sibLowest
  have siblingQ : q.setConsistent.hdr.siblingPtr = b := pageSibling
  have below : splitKey < p.hdr.highest := hdr ▸ halves.below
  have holds : ∀ k v, p'.Holds k v ↔ q.setConsistent.Holds k v ∨ sib.setConsistent.Holds k v :=
    halves.holds
  have notB : ∀ e, g.owner e = none → e ≠ b := by
    rintro e h rfl
    rw [new.owner] at h
    cases h
  have infoB : g.info b = some (0, splitKey) := by
    have := (inv.tree.mem_sound b _ new.mem).info
    simp only [Page.hdr] at this
    rw [this, levelS, lowestS]
  have linkedB : g'.Linked b 0 splitKey :=
    ⟨splitting.info ▸ infoB, by rw [splitting.owner, Function.update_self]⟩
  have linked : ∀ e l x, g.Linked e l x → g'.Linked e l x := by
    intro e l x h
    refine ⟨splitting.info ▸ h.1, ?_⟩
    rw [splitting.owner, Function.update_of_ne (notB e h.2)]
    exact h.2
  have owner_or : ∀ e, g'.owner e = none → e = b ∨ g.owner e = none := by
    intro e h
    by_cases same : e = b
    · exact .inl same
    · rw [splitting.owner, Function.update_of_ne same] at h
      exact .inr h
  have newLink : Links g' ⟨t, .page a (.leaf q.setConsistent)⟩ b := by
    refine ⟨a, _, rfl, ?_, siblingQ⟩
    exact (linked a _ _ ⟨sound.info, held.owner⟩).2
  have hidden : ∀ e, Hidden (s.post t (.page a (.leaf q.setConsistent))) g' e → e = b ∨ Hidden s g e := by
    rintro e ⟨z, hz, f, r, write, owner, sibling⟩
    rcases mem_post.mp hz with hz | rfl
    · rcases owner_or f owner with rfl | owner
      · exact absurd (by rw [write]; rfl) (new.quiet z hz)
      · exact .inr ⟨z, hz, f, r, write, owner, sibling⟩
    · cases write
      exact .inl (sibling.symm.trans siblingQ)
  have after : After (s.post t (.page a (.leaf q.setConsistent))) a (.page a (.leaf q.setConsistent)) =
      p'.Holds := by
    funext k v
    rw [holds]
    refine propext (or_congr ⟨?_, fun h => ⟨_, updated, h⟩⟩ ⟨?_, fun h => ⟨_, _, rfl, ?_, h⟩⟩)
    · rintro ⟨r, hr, h⟩
      rw [updated, Option.some.injEq, Page.leaf.injEq] at hr
      exact hr ▸ h
    · rintro ⟨r, r', write, mem, h⟩
      cases write
      rw [post_mem, siblingQ, new.mem, Option.some.injEq, Page.leaf.injEq] at mem
      exact mem ▸ h
    · rw [post_mem, siblingQ]
      exact new.mem
  have siblingPoints : SiblingOk g'.Linked q.setConsistent.hdr := by
    refine .inr ⟨?_, ?_⟩
    · rw [highestQ]
      exact below.trans_le okP.highest_le
    · rw [siblingQ, levelQ, highestQ]
      exact linkedB
  have tree : TreeInv (s.post t (.page a (.leaf q.setConsistent))) g' := by
    refine inv.tree.link held.owner view new.owner new.mem new.quiet (levelQ.trans levelP.symm) pageLowest
      (levelS.trans levelP.symm) (lowestS.trans highestQ.symm) sibHighest halves.page_ok siblingPoints
      splitting.info splitting.owner fun e d h => ?_
    by_cases eb : e = b
    · exact .inl eb
    · rw [splitting.owed, Function.update_of_ne eb] at h
      exact .inr ⟨h, fun r x hr => Page.noConfusion hr, fun r x hr => Page.noConfusion hr⟩
  have lock : LockInv cfg s (g.setOwner b none) := by
    refine inv.lock.reowner rfl rfl rfl (fun e h => h) fun e busy => Function.update_of_ne ?_ _ _
    rintro rfl
    exact busy new.quiet
  have lock' : LockInv cfg (s.post t (.page a (.leaf q.setConsistent))) g' := by
    refine lock.postLinked rfl ?_ ?_ held.holding splitting.info splitting.owner splitting.holding
    · exact (Function.update_of_ne (notB a held.owner) none g.owner).trans held.owner
    · exact (congrArg Option.isSome sound.info).trans rfl
  refine ⟨rfl, tree, lock', fun vis => ?_, linked, fun e l x h h' => ?_, fun e h => ?_, fun e x h => ?_,
    splitting.status, respects_post (fun e u target h => ?_) (fun e u hu h => ⟨?_, by rw [splitting.info]⟩)
    (fun e u hu h => ?_) (fun la u hu h => ?_), after ▸ effect, fun r write => ?_, fun k v => ?_⟩
  · exact (inv.visible vis).exposure.hide inv.tree inv.lock.single held.owner quiet (held.exposed vis) view
      new.owner new.mem new.quiet siblingQ (highestQ ▸ below.trans_le okP.highest_le)
      (by rw [levelQ, highestQ]; exact linkedB)
      ⟨levelS.trans levelP.symm, sibHighest, sibSibling⟩ splitting.info splitting.owner splitting.owed
  · exact (hidden e h').resolve_left (notB e h.2)
  · obtain ⟨z, hz, f, r, write, owner, sibling⟩ := h
    refine ⟨z, mem_post.mpr (.inl hz), f, r, write, ?_, sibling⟩
    exact (linked f 0 _ (inv.tree.linked_of_leaf_view (view_of_page inv.lock.single hz write) owner)).2
  · rcases owner_or e h.2 with rfl | owner
    · exact .inr ⟨_, mem_post.mpr (.inr rfl), newLink⟩
    · exact .inl ⟨splitting.info ▸ h.1, owner⟩
  · rw [← Option.some.inj target, held.owner] at h
    cases h
  · rw [splitting.owner]
    exact update_none_of_ne (fun w hw => Option.some.inj (hw.symm.trans new.owner)) hu h
  · have eb : e ≠ b := by
      rintro rfl
      obtain ⟨⟨l, x, linkedE, -⟩, -⟩ := inv.tree.owed e u h
      exact notB e linkedE.2 rfl
    rw [splitting.owed, Function.update_of_ne eb]
    exact h
  · rw [splitting.holding]
    exact update_none_of_ne (fun w hw => Option.some.inj (hw.symm.trans held.holding)) hu h
  · cases write
    exact highestQ ▸ below
  · rw [after]
    have viewB : s.view b = some (.leaf sib.setConsistent) := new.quiet.view.trans new.mem
    constructor
    · rintro ⟨e, r, owner, hr, h⟩
      by_cases same : e = a
      · subst same
        rw [updated, Option.some.injEq, Page.leaf.injEq] at hr
        exact .inl ((holds k v).mpr (.inl (hr ▸ h)))
      · rw [other e same] at hr
        rcases owner_or e owner with rfl | owner
        · rw [viewB, Option.some.injEq, Page.leaf.injEq] at hr
          exact .inl ((holds k v).mpr (.inr (hr ▸ h)))
        · exact .inr ⟨e, r, same, owner, hr, h⟩
    · rintro (h | ⟨e, r, same, owner, hr, h⟩)
      · rcases (holds k v).mp h with h | h
        · exact ⟨a, _, (linked a _ _ ⟨sound.info, held.owner⟩).2, updated, h⟩
        · exact ⟨b, _, linkedB.2, (other b (notB a held.owner).symm).trans viewB, h⟩
      · rw [← other e same] at hr
        refine ⟨e, r, ?_, hr, h⟩
        rw [splitting.owner, Function.update_of_ne (notB e owner)]
        exact owner

end Sherman
