import Sherman.Tree.Visible

namespace Sherman

open Shared

theorem Op.Effect.local {op : Op} {r : Result} {part part' rest : Key → Value → Prop}
    (h : op.Effect r part part') (others : ∀ v, ¬ rest op.key v) :
    op.Effect r (fun k v => part k v ∨ rest k v) (fun k v => part' k v ∨ rest k v) := by
  cases op with
  | insert k v => exact ⟨h.1, h.2.local others⟩
  | del k => exact ⟨h.1, h.2.local others⟩
  | search k =>
      obtain ⟨rfl, h⟩ := h
      refine ⟨rfl, ?_⟩
      rcases h with ⟨v, value, bound⟩ | ⟨value, unbound⟩
      · exact .inl ⟨v, value, .inl bound⟩
      · exact .inr ⟨value, fun v => not_or.mpr ⟨unbound v, others v⟩⟩

namespace TreeInv
variable {s : Shared} {g : Ghost}

theorem leaf_mem (inv : TreeInv s g) {a : GlobalAddress} {x : Key} (linked : g.Linked a 0 x) :
    ∃ p, s.mem a = some (.leaf p) ∧ p.hdr.lowest = x := by
  obtain ⟨page, mem, level, lowest⟩ := inv.linked_mem linked
  cases page with
  | leaf p => exact ⟨p, mem, lowest⟩
  | internal p => exact absurd level (InternalPage.Ok.level (inv.mem_sound a _ mem).ok)

theorem linked_of_leaf (inv : TreeInv s g) {a : GlobalAddress} {p : LeafPage}
    (mem : s.mem a = some (.leaf p)) (owner : g.owner a = none) : g.Linked a 0 p.hdr.lowest := by
  have sound := inv.mem_sound a _ mem
  have level : p.hdr.level = 0 := LeafPage.Ok.level sound.ok
  exact ⟨level ▸ sound.info, owner⟩

theorem linked_of_leaf_view (inv : TreeInv s g) {a : GlobalAddress} {p : LeafPage}
    (view : s.view a = some (.leaf p)) (owner : g.owner a = none) : g.Linked a 0 p.hdr.lowest := by
  have sound := inv.view_sound a _ view
  have level : p.hdr.level = 0 := LeafPage.Ok.level sound.ok
  exact ⟨level ▸ sound.info, owner⟩

end TreeInv

theorem DisjointInv.leaf_unique {s : Shared} {g : Ghost} (inv : DisjointInv s g) (tree : TreeInv s g)
    {a b : GlobalAddress} {p q : LeafPage} {k : Key} (memA : s.mem a = some (.leaf p))
    (ownerA : g.owner a = none) (exposedA : ¬ Hidden s g a) (memB : s.mem b = some (.leaf q))
    (ownerB : g.owner b = none) (exposedB : ¬ Hidden s g b) (lowA : p.hdr.lowest ≤ k)
    (highA : k < p.hdr.highest) (lowB : q.hdr.lowest ≤ k) (highB : k < q.hdr.highest) : a = b := by
  have linkA := tree.linked_of_leaf memA ownerA
  have linkB := tree.linked_of_leaf memB ownerB
  have leB : q.hdr.lowest ≤ p.hdr.lowest := by
    rcases inv a p memA ownerA exposedA b _ ⟨linkB, exposedB⟩ with h | h
    · exact h
    · exact absurd (h.trans lowB) (not_le.mpr highA)
  have leA : p.hdr.lowest ≤ q.hdr.lowest := by
    rcases inv b q memB ownerB exposedB a _ ⟨linkA, exposedA⟩ with h | h
    · exact h
    · exact absurd (h.trans lowA) (not_le.mpr highB)
  exact tree.unique a b 0 _ linkA (le_antisymm leA leB ▸ linkB)

theorem DisjointInv.executed_iff {s : Shared} {g : Ghost} (inv : DisjointInv s g)
    (tree : TreeInv s g) {a : GlobalAddress} {p : LeafPage} {k : Key}
    (mem : s.mem a = some (.leaf p)) (owner : g.owner a = none) (exposed : ¬ Hidden s g a)
    (low : p.hdr.lowest ≤ k) (high : k < p.hdr.highest) (v : Value) :
    Executed s g k v ↔ p.Holds k v := by
  constructor
  · rintro ⟨b, q, ownerB, exposedB, memB, holds⟩
    have ok : q.Ok := (tree.mem_sound b _ memB).ok
    obtain ⟨lowB, highB⟩ := ok.holds_range holds
    have same := inv.leaf_unique tree mem owner exposed memB ownerB exposedB low high lowB highB
    subst same
    rw [mem, Option.some.injEq, Page.leaf.injEq] at memB
    exact memB ▸ holds
  · exact fun holds => ⟨a, p, owner, exposed, mem, holds⟩

theorem DisjointInv.step {s s' : Shared} {g g' : Ghost} (inv : DisjointInv s g)
    (mem : s'.mem = s.mem)
    (old : ∀ a x, g'.Linked a 0 x → ¬ Hidden s' g' a → g.Linked a 0 x ∧ ¬ Hidden s g a)
    (tree : TreeInv s' g') : DisjointInv s' g' := by
  intro a p h owner exposed b y linked
  obtain ⟨hA, hA'⟩ := old a _ (tree.linked_of_leaf h owner) exposed
  exact inv a p (mem ▸ h) hA.2 hA' b y (old b y linked.1 linked.2)

theorem leaf_before {s s' : Shared} {z : Posted} (executed : s.Executed z s') {a : GlobalAddress}
    {p' : LeafPage} (mem' : s'.mem a = some (.leaf p')) :
    (∃ p, s.mem a = some (.leaf p) ∧ p'.hdr = p.hdr) ∨ z.write = .page a (.leaf p') := by
  rw [executed.mem] at mem'
  split at mem'
  · rename_i target
    cases write : z.write with
    | unlock la => simp [write, Write.target] at target
    | page b page =>
        simp only [write, Write.target, Option.some.injEq] at target
        simp only [write, Write.apply, Option.some.injEq] at mem'
        exact .inr (by rw [target, mem'])
    | entry b i r =>
        left
        simp only [write] at mem'
        cases old : s.mem a with
        | none => simp [old, Write.apply] at mem'
        | some page =>
            cases page with
            | internal q => simp [old, Write.apply] at mem'
            | leaf q =>
                simp only [old, Write.apply, Option.some.injEq, Page.leaf.injEq] at mem'
                exact ⟨q, rfl, by rw [← mem']; rfl⟩
  · exact .inl ⟨p', mem', rfl⟩

section Execute
variable {s s' : Shared} {g : Ghost} {z : Posted}

def OffLeaves (s : Shared) (g : Ghost) (w : Write) : Prop :=
  ∀ a p, w.target = some a → g.owner a = none → s.mem a ≠ some (.leaf p)

theorem hidden_of_executed (executed : s.Executed z s') {b : GlobalAddress} (h : Hidden s' g b) :
    Hidden s g b := by
  obtain ⟨y, hy, links⟩ := h
  exact ⟨y, executed.pending_sub y hy, links⟩

theorem hidden_or_links (executed : s.Executed z s') {b : GlobalAddress} (h : Hidden s g b) :
    Hidden s' g b ∨ Links g z b := by
  obtain ⟨y, hy, links⟩ := h
  rcases executed.pending_or hy with hy | rfl
  · exact .inl ⟨y, hy, links⟩
  · exact .inr links

theorem OffLeaves.links (off : OffLeaves s g z.write) (tree : TreeInv s g) (single : s.Single)
    (hz : z ∈ s.pending) {b : GlobalAddress} : ¬ Links g z b := by
  rintro ⟨a, p, write, owner, -⟩
  have linked := tree.linked_of_leaf_view (view_of_page single hz write) owner
  obtain ⟨q, mem, -⟩ := tree.leaf_mem linked
  exact off a q (by rw [write]; rfl) owner mem

theorem OffLeaves.mem (off : OffLeaves s g z.write) (tree : TreeInv s g)
    (executed : s.Executed z s') {a : GlobalAddress} {x : Key} (linked : g.Linked a 0 x) :
    s'.mem a = s.mem a := by
  refine executed.mem_other fun target => ?_
  obtain ⟨p, mem, -⟩ := tree.leaf_mem linked
  exact off a p target linked.2 mem

theorem OffLeaves.executed_eq (off : OffLeaves s g z.write) (tree : TreeInv s g)
    (single : s.Single) (executed : s.Executed z s') : Executed s' g = Executed s g := by
  have tree' := tree.execute executed single
  funext k v
  refine propext ⟨?_, ?_⟩
  · rintro ⟨a, p, owner, exposed, mem, holds⟩
    refine ⟨a, p, owner, fun h => ?_, ?_, holds⟩
    · exact (hidden_or_links executed h).elim exposed (off.links tree single executed.mem_pending)
    · rwa [← off.mem tree executed (tree'.linked_of_leaf mem owner)]
  · rintro ⟨a, p, owner, exposed, mem, holds⟩
    refine ⟨a, p, owner, fun h => exposed (hidden_of_executed executed h), ?_, holds⟩
    rwa [off.mem tree executed (tree.linked_of_leaf mem owner)]

theorem ExposureInv.sibling_quiet (inv : ExposureInv s g) (hz : z ∈ s.pending) {b : GlobalAddress}
    (owner : g.owner b = none) (links : Links g z b) : s.Quiet b :=
  fun y hy target => inv.target y hy b target owner ⟨z, hz, links⟩

variable {c : Client} {a : GlobalAddress} {p : LeafPage} {op : Op} {r : Result}

theorem VisibleInv.executed_effect (inv : VisibleInv s g) (tree : TreeInv s g) (single : s.Single)
    (executed : s.Executed z s') (target : z.write.target = some a) (owner : g.owner a = none)
    (mem : s.mem a = some (.leaf p)) (commits : Commits s g z.client z.write a p op r) :
    op.Effect r (Executed s g) (Executed s' g) := by
  have hz := executed.mem_pending
  have exposed := inv.exposure.target z hz a target owner
  let rest : Key → Value → Prop := fun k v =>
    ∃ b q, b ≠ a ∧ g.owner b = none ∧ ¬ Hidden s g b ∧ s.mem b = some (.leaf q) ∧ q.Holds k v
  have others : ∀ v, ¬ rest op.key v := by
    rintro v ⟨b, q, other, ownerB, exposedB, memB, holds⟩
    have ok : q.Ok := (tree.mem_sound b _ memB).ok
    obtain ⟨lowB, highB⟩ := ok.holds_range holds
    exact other (inv.disjoint.leaf_unique tree memB ownerB exposedB mem owner exposed lowB highB
      commits.low commits.high)
  have before : Executed s g = fun k v => p.Holds k v ∨ rest k v := by
    funext k v
    refine propext ⟨?_, ?_⟩
    · rintro ⟨b, q, ownerB, exposedB, memB, holds⟩
      by_cases same : b = a
      · subst same
        rw [mem, Option.some.injEq, Page.leaf.injEq] at memB
        exact .inl (memB ▸ holds)
      · exact .inr ⟨b, q, same, ownerB, exposedB, memB, holds⟩
    · rintro (holds | ⟨b, q, -, ownerB, exposedB, memB, holds⟩)
      · exact ⟨a, p, owner, exposed, mem, holds⟩
      · exact ⟨b, q, ownerB, exposedB, memB, holds⟩
  have after : Executed s' g = fun k v => After s a z.write k v ∨ rest k v := by
    funext k v
    refine propext ⟨?_, ?_⟩
    · rintro ⟨b, q, ownerB, exposedB, memB, holds⟩
      by_cases same : b = a
      · subst same
        rw [executed.mem_target single target] at memB
        exact .inl (.inl ⟨q, memB, holds⟩)
      · have otherTarget : z.write.target ≠ some b := by
          rw [target]
          exact fun h => same (Option.some.inj h).symm
        rw [executed.mem_other otherTarget] at memB
        by_cases hidden : Hidden s g b
        · rcases hidden_or_links executed hidden with h | ⟨d, p', write, -, sibling⟩
          · exact absurd h exposedB
          · rw [write] at target
            cases target
            exact .inl (.inr ⟨p', q, write, sibling ▸ memB, holds⟩)
        · exact .inr ⟨b, q, same, ownerB, hidden, memB, holds⟩
    · rintro ((⟨p', view, holds⟩ | ⟨p', q, write, memB, holds⟩) | ⟨b, q, other, ownerB, exposedB, memB, holds⟩)
      · refine ⟨a, p', owner, fun h => exposed (hidden_of_executed executed h), ?_, holds⟩
        rw [executed.mem_target single target, view]
      · have links : Links g z p'.hdr.siblingPtr := ⟨a, p', write, owner, rfl⟩
        have view := view_of_page single hz write
        have linkA := tree.linked_of_leaf_view view owner
        have fence := LeafPage.Ok.fence (tree.view_sound a _ view).ok
        obtain ⟨x, -, linkB⟩ : ∃ x, kKeyMin < x ∧ g.Linked p'.hdr.siblingPtr 0 x := by
          rcases tree.links_linked single hz links with null | h
          · have := (tree.mem_sound _ _ memB).info
            rw [null, tree.null.1] at this
            cases this
          · exact h
        have other : p'.hdr.siblingPtr ≠ a := by
          intro same
          have quiet := inv.exposure.sibling_quiet hz linkB.2 links
          exact quiet z hz (same ▸ target)
        have otherTarget : z.write.target ≠ some p'.hdr.siblingPtr := by
          rw [target]
          exact fun h => other (Option.some.inj h).symm
        refine ⟨_, q, linkB.2, ?_, (executed.mem_other otherTarget).trans memB, holds⟩
        rintro ⟨y, hy, links'⟩
        exact executed.quiet single target y hy (tree.links_unique single hz
          (executed.pending_sub y hy) linkB links links' target)
      · have otherTarget : z.write.target ≠ some b := by
          rw [target]
          exact fun h => other (Option.some.inj h).symm
        exact ⟨b, q, ownerB, fun h => exposedB (hidden_of_executed executed h),
          (executed.mem_other otherTarget).trans memB, holds⟩
  rw [before, after]
  exact commits.effect.local others

theorem VisibleInv.disjoint_execute (inv : VisibleInv s g) (tree : TreeInv s g) (single : s.Single)
    (executed : s.Executed z s') : DisjointInv s' g := by
  have hz := executed.mem_pending
  have tree' := tree.execute executed single
  intro a p' mem' owner exposed b y ⟨linkB, exposedB⟩
  rcases leaf_before executed mem' with ⟨p, mem, hdr⟩ | write
  · rw [hdr]
    by_cases hiddenA : Hidden s g a
    · -- `a` is the sibling that becomes visible
      rcases hidden_or_links executed hiddenA with h | links
      · exact absurd h exposed
      · have level : p.hdr.level = 0 := LeafPage.Ok.level (tree.mem_sound a _ mem).ok
        have view := (inv.exposure.sibling_quiet hz owner links).view.trans mem
        exact tree.disjoint a _ view owner b y (by simpa only [Page.hdr, level] using linkB)
    · by_cases hiddenB : Hidden s g b
      · -- `b` becomes visible, and starts inside the leaf that was split
        rcases hidden_or_links executed hiddenB with h | links
        · exact absurd h exposedB
        · obtain ⟨c, q, write, ownerC, rfl⟩ := links
          have target : z.write.target = some c := by rw [write]; rfl
          have view := view_of_page single hz write
          obtain ⟨q₀, memC, lowest⟩ := tree.leaf_mem (tree.linked_of_leaf_view view ownerC)
          obtain ⟨op, r, commits⟩ := inv.commit.pending z hz c q₀ target ownerC memC
          have start : q.hdr.highest = y := by
            rcases (tree.view_sound c _ view).points with ⟨-, null⟩ | ⟨-, sibling⟩
            · exact absurd null (tree.ne_null linkB)
            · exact (sibling.level_eq linkB).2
          have fence : q.hdr.lowest < q.hdr.highest := LeafPage.Ok.fence (tree.view_sound c _ view).ok
          have shrinks := commits.shrinks q write
          rw [start] at fence shrinks
          by_cases same : a = c
          · subst same
            rw [executed.mem_target single target, view, Option.some.injEq, Page.leaf.injEq] at mem'
            rw [← hdr, ← mem', start]
            exact .inr le_rfl
          · by_contra inside
            rw [not_or, not_le, not_le] at inside
            exact same (inv.disjoint.leaf_unique tree mem owner hiddenA memC ownerC
              (inv.exposure.target z hz c target ownerC) inside.1.le inside.2 (lowest ▸ fence.le) shrinks)
      · exact inv.disjoint a p mem owner hiddenA b y ⟨linkB, hiddenB⟩
  · have view := view_of_page single hz write
    have level : p'.hdr.level = 0 := LeafPage.Ok.level (tree.view_sound a _ view).ok
    exact tree.disjoint a _ view owner b y (by simpa only [Page.hdr, level] using linkB)

theorem ExposureInv.commits_execute (inv : ExposureInv s g) (tree : TreeInv s g)
    (single : s.Single) (executed : s.Executed z s') {y : Posted} (hy : y ∈ s'.pending)
    (owner : g.owner a = none) (commits : Commits s g y.client y.write a p op r) :
    Commits s' g y.client y.write a p op r := by
  refine ⟨commits.status, commits.low, commits.high, ?_, commits.shrinks⟩
  have after : After s' a y.write = After s a y.write := by
    funext k v
    unfold After
    rw [executed.view single]
    refine congrArg _ (propext (exists_congr fun p' => exists_congr fun q =>
      and_congr_right fun write => and_congr_left fun _ => ?_))
    have links : Links g y p'.hdr.siblingPtr := ⟨a, p', write, owner, rfl⟩
    have old := executed.pending_sub y hy
    rcases tree.links_linked single old links with null | ⟨x, -, linked⟩
    · have none : ∀ {t : Shared}, TreeInv t g → t.mem .null = some (.leaf q) → False := by
        intro t inv mem
        have := (inv.mem_sound _ _ mem).info
        rw [inv.null.1] at this
        cases this
      rw [null]
      exact ⟨fun h => (none (tree.execute executed single) h).elim, fun h => (none tree h).elim⟩
    · rw [executed.mem_other]
      exact fun h => inv.sibling_quiet old linked.2 links z executed.mem_pending h
  rw [after]
  exact commits.effect

theorem ExposureInv.pending_execute (inv : ExposureInv s g) (commit : CommitInv s g)
    (tree : TreeInv s g) (single : s.Single) (executed : s.Executed z s') {y : Posted}
    (hy : y ∈ s'.pending) (target : y.write.target = some a) (owner : g.owner a = none)
    (mem : s'.mem a = some (.leaf p)) : ∃ op r, Commits s' g y.client y.write a p op r := by
  have other : z.write.target ≠ some a := fun h => executed.quiet single h y hy target
  rw [executed.mem_other other] at mem
  obtain ⟨op, r, commits⟩ := commit.pending y (executed.pending_sub y hy) a p target owner mem
  exact ⟨op, r, inv.commits_execute tree single executed hy owner commits⟩

theorem VisibleInv.execute_off (inv : VisibleInv s g) (tree : TreeInv s g) (single : s.Single)
    (executed : s.Executed z s') (off : OffLeaves s g z.write) : VisibleInv s' g := by
  refine ⟨inv.exposure.execute executed single rfl rfl rfl,
    inv.disjoint_execute tree single executed, fun y hy a p target owner mem =>
      inv.exposure.pending_execute inv.commit tree single executed hy target owner mem,
    fun c op w r status => ?_⟩
  obtain ⟨pending, a, p, target, owner, mem⟩ := inv.commit.status c op w r status
  refine ⟨(executed.pending_or pending).resolve_right ?_, a, p, target, owner, ?_⟩
  · rintro rfl
    exact off a p target owner mem
  · rw [off.mem tree executed (tree.linked_of_leaf mem owner)]
    exact mem

theorem VisibleInv.execute_leaf (inv : VisibleInv s g) (tree : TreeInv s g) (single : s.Single)
    (executed : s.Executed z s') (commits : Commits s g z.client z.write a p op r) :
    VisibleInv s' (g.setStatus z.client (some ⟨op, some z.write, some r, some r⟩)) := by
  have hz := executed.mem_pending
  refine ⟨inv.exposure.execute executed single rfl rfl rfl,
    inv.disjoint_execute tree single executed, fun y hy b q targetB ownerB memB => ?_,
    fun c op' w r' status => ?_⟩
  · obtain ⟨op', r', commits'⟩ := inv.exposure.pending_execute inv.commit tree single executed hy
      targetB ownerB memB
    have other : y.client ≠ z.client := by
      intro same
      have status := commits'.status
      rw [same, commits.status] at status
      simp only [Option.some.injEq, Running.mk.injEq] at status
      rw [← status.2.1] at targetB
      exact executed.quiet single targetB y hy (status.2.1 ▸ targetB)
    refine ⟨op', r', ?_, commits'.low, commits'.high, commits'.effect, commits'.shrinks⟩
    rw [Ghost.setStatus_status, Function.update_of_ne other]
    exact commits'.status
  · have other : c ≠ z.client := by
      rintro rfl
      simp at status
    rw [Ghost.setStatus_status, Function.update_of_ne other] at status
    obtain ⟨pending, b, q, targetB, ownerB, memB⟩ := inv.commit.status c op' w r' status
    have pending' := (executed.pending_or pending).resolve_right fun h => other (by rw [← h])
    refine ⟨pending', b, ?_⟩
    have otherTarget : z.write.target ≠ some b := fun h => executed.quiet single h _ pending' targetB
    exact ⟨q, targetB, ownerB, (executed.mem_other otherTarget).trans memB⟩

end Execute
end Sherman
