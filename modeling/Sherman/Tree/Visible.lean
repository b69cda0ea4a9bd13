import Sherman.Tree.AbstractMap
import Sherman.Tree.Preservation
import Sherman.Tree.Locking

/-!
# The invariant of runs in which no split overtakes its page write

The sibling of a leaf is hidden from the moment the page write of the split is posted until it is
executed: only the client that split the leaf knows its address. As long as no client publishes a
hidden page, every posted leaf write takes effect in memory at the moment it is executed.
-/

namespace Sherman

open Shared

def Links (g : Ghost) (z : Posted) (b : GlobalAddress) : Prop :=
  ∃ a p, z.write = .page a (.leaf p) ∧ g.owner a = none ∧ p.hdr.siblingPtr = b

def Hidden (s : Shared) (g : Ghost) (b : GlobalAddress) : Prop := ∃ z ∈ s.pending, Links g z b

def Exposed (s : Shared) (g : Ghost) (a : GlobalAddress) (l : Nat) (x : Key) : Prop :=
  g.Linked a l x ∧ ¬ Hidden s g a

def Follows (s : Shared) (g : Ghost) (a b : GlobalAddress) (l : Nat) (x : Key) : Prop :=
  g.Linked b l x ∧ ∀ z ∈ s.pending, Links g z b → z.write.target = some a

def After (s : Shared) (a : GlobalAddress) (w : Write) (k : Key) (v : Value) : Prop :=
  (∃ p, s.view a = some (.leaf p) ∧ p.Holds k v) ∨
    ∃ p q, w = .page a (.leaf p) ∧ s.mem p.hdr.siblingPtr = some (.leaf q) ∧ q.Holds k v

/-- No page in memory points to a hidden page. -/
structure ExposureInv (s : Shared) (g : Ghost) : Prop where
  mem : ∀ a page, s.mem a = some page → g.owner a = none → page.Points (Exposed s g)
  view : ∀ a page, s.view a = some page → g.owner a = none → page.Points (Follows s g a)
  cache : ∀ n, ∀ e ∈ s.cache n, ∀ p, e.ptr = some p → (Page.internal p).Points (Exposed s g)
  target : ∀ z ∈ s.pending, ∀ a, z.write.target = some a → g.owner a = none → ¬ Hidden s g a
  owed : ∀ z ∈ s.pending, ∀ b, Links g z b → g.owed b = some z.client

def DisjointInv (s : Shared) (g : Ghost) : Prop :=
  ∀ a p, s.mem a = some (.leaf p) → g.owner a = none → ¬ Hidden s g a →
    ∀ b y, Exposed s g b 0 y → y ≤ p.hdr.lowest ∨ p.hdr.highest ≤ y

structure Commits (s : Shared) (g : Ghost) (c : Client) (w : Write) (a : GlobalAddress)
    (p : LeafPage) (op : Op) (r : Result) : Prop where
  status : g.status c = some ⟨op, some w, some r, none⟩
  low : p.hdr.lowest ≤ op.key
  high : op.key < p.hdr.highest
  effect : op.Effect r p.Holds (After s a w)
  shrinks : ∀ p', w = .page a (.leaf p') → p'.hdr.highest < p.hdr.highest

structure CommitInv (s : Shared) (g : Ghost) : Prop where
  pending : ∀ z ∈ s.pending, ∀ a p, z.write.target = some a → g.owner a = none →
    s.mem a = some (.leaf p) → ∃ op r, Commits s g z.client z.write a p op r
  status : ∀ c op w r, g.status c = some ⟨op, some w, some r, none⟩ →
    ⟨c, w⟩ ∈ s.pending ∧ ∃ a p, w.target = some a ∧ g.owner a = none ∧ s.mem a = some (.leaf p)

structure VisibleInv (s : Shared) (g : Ghost) : Prop where
  exposure : ExposureInv s g
  disjoint : DisjointInv s g
  commit : CommitInv s g

def Executed (s : Shared) (g : Ghost) (k : Key) (v : Value) : Prop :=
  ∃ a p, g.owner a = none ∧ ¬ Hidden s g a ∧ s.mem a = some (.leaf p) ∧ p.Holds k v

/-! ## Hidden pages -/

theorem Links.target {g : Ghost} {z : Posted} {b : GlobalAddress} (h : Links g z b) :
    ∃ a, z.write.target = some a ∧ g.owner a = none := by
  obtain ⟨a, p, write, linked, -⟩ := h
  exact ⟨a, by rw [write]; rfl, linked⟩

theorem view_of_page {s : Shared} (single : s.Single) {z : Posted} (hz : z ∈ s.pending)
    {a : GlobalAddress} {page : Page} (write : z.write = .page a page) : s.view a = some page := by
  obtain ⟨before, after, all⟩ := List.append_of_mem hz
  rw [Single, all, List.pairwise_append, List.pairwise_cons] at single
  have target : z.write.target = some a := by rw [write]; rfl
  rw [Shared.view, all, List.foldl_append, List.foldl_cons, if_pos target,
    foldl_quiet fun y hy => single.2.1.1 y hy a target, write, Write.apply]

theorem TreeInv.links_linked {s : Shared} {g : Ghost} (inv : TreeInv s g) (single : s.Single)
    {z : Posted} (hz : z ∈ s.pending) {b : GlobalAddress} (links : Links g z b) :
    (b = .null ∨ ∃ x, kKeyMin < x ∧ g.Linked b 0 x) := by
  obtain ⟨a, p, write, linked, rfl⟩ := links
  have sound := inv.view_sound a _ (view_of_page single hz write)
  have ok : p.Ok := sound.ok
  rcases sound.points with ⟨-, null⟩ | ⟨-, sibling⟩
  · exact .inl null
  · rw [ok.level] at sibling
    exact .inr ⟨_, (Nat.zero_le _).trans_lt ok.fence, sibling⟩

theorem TreeInv.exposed_of_level {s : Shared} {g : Ghost} (inv : TreeInv s g) (single : s.Single)
    {a : GlobalAddress} {l : Nat} {x : Key} (linked : g.Linked a l x)
    (free : l ≠ 0 ∨ x = kKeyMin) : ¬ Hidden s g a := by
  rintro ⟨z, hz, links⟩
  rcases inv.links_linked single hz links with null | ⟨y, pos, leaf⟩
  · exact inv.ne_null linked null
  · obtain ⟨rfl, rfl⟩ := linked.level_eq leaf
    rcases free with free | free
    · exact free rfl
    · exact absurd pos (free ▸ lt_irrefl _)

theorem TreeInv.links_unique {s : Shared} {g : Ghost} (inv : TreeInv s g) (single : s.Single)
    {z z' : Posted} (hz : z ∈ s.pending) (hz' : z' ∈ s.pending) {b : GlobalAddress} {l : Nat} {x : Key}
    (linked : g.Linked b l x) (links : Links g z b) (links' : Links g z' b) {a : GlobalAddress}
    (target : z.write.target = some a) : z'.write.target = some a := by
  obtain ⟨c, p, write, ownC, sibling⟩ := links
  obtain ⟨d, q, write', ownD, sibling'⟩ := links'
  have nonnull := inv.ne_null linked
  have viewC := view_of_page single hz write
  have viewD := view_of_page single hz' write'
  have soundC := inv.view_sound c _ viewC
  have soundD := inv.view_sound d _ viewD
  have okC : p.Ok := soundC.ok
  have okD : q.Ok := soundD.ok
  have highest : p.hdr.highest = q.hdr.highest := by
    rcases soundC.points with ⟨-, null⟩ | ⟨-, hC⟩
    · exact absurd (sibling ▸ null) nonnull
    · rcases soundD.points with ⟨-, null⟩ | ⟨-, hD⟩
      · exact absurd (sibling' ▸ null) nonnull
      · rw [sibling] at hC
        rw [sibling'] at hD
        exact (hC.level_eq hD).2
  obtain ⟨k, last⟩ := Nat.exists_eq_add_one_of_ne_zero (Nat.ne_zero_of_lt okC.fence)
  have lowC : p.hdr.lowest < k + 1 := last ▸ okC.fence
  have lowD : q.hdr.lowest < k + 1 := last ▸ highest ▸ okD.fence
  have highC : k < p.hdr.highest := last ▸ Nat.lt_succ_self k
  have same : c = d := inv.page_unique viewC ownC viewD ownD (okC.level.trans okD.level.symm)
    (Nat.le_of_lt_succ lowC) highC (Nat.le_of_lt_succ lowD) (highest ▸ highC)
  subst same
  rw [write] at target
  rw [write']
  exact target

/-! ## Exposure -/

namespace ExposureInv
variable {s s' : Shared} {g g' : Ghost}

theorem execute (inv : ExposureInv s g) {z : Posted} (executed : s.Executed z s')
    (single : s.Single) (info : g'.info = g.info) (owner : g'.owner = g.owner)
    (owed : g'.owed = g.owed) : ExposureInv s' g' := by
  have linked := linked_congr info owner
  have links : Links g' = Links g := by
    funext z b
    simp only [Links, owner]
  have hidden : ∀ b, Hidden s' g' b → Hidden s g b := by
    rintro b ⟨y, hy, h⟩
    exact ⟨y, executed.pending_sub y hy, links ▸ h⟩
  have exposed : ∀ b l x, Exposed s g b l x → Exposed s' g' b l x := by
    rintro b l x ⟨h, h'⟩
    exact ⟨linked ▸ h, fun h'' => h' (hidden b h'')⟩
  have view := executed.view single
  refine ⟨fun a page h unowned => ?_, fun a page h unowned => ?_, fun n e he p hp => ?_,
    fun y hy a target unowned h => ?_, fun y hy b h => ?_⟩
  · rw [owner] at unowned
    by_cases target : z.write.target = some a
    · rw [executed.mem_target single target] at h
      refine (inv.view a page h unowned).mono fun b l x ⟨linkedB, follows⟩ => ⟨linked ▸ linkedB, ?_⟩
      rintro ⟨y, hy, hlinks⟩
      exact executed.quiet single target y hy
        (follows y (executed.pending_sub y hy) (links ▸ hlinks))
    · rw [executed.mem_other target] at h
      exact (inv.mem a page h unowned).mono exposed
  · rw [owner] at unowned
    rw [view] at h
    refine (inv.view a page h unowned).mono fun b l x ⟨linkedB, follows⟩ => ⟨linked ▸ linkedB, ?_⟩
    exact fun y hy hlinks => follows y (executed.pending_sub y hy) (links ▸ hlinks)
  · rw [executed.cache] at he
    exact (inv.cache n e he p hp).mono exposed
  · exact inv.target y (executed.pending_sub y hy) a target (owner ▸ unowned) (hidden a h)
  · rw [owed]
    exact inv.owed y (executed.pending_sub y hy) b (links ▸ h)

theorem step_linking (inv : ExposureInv s g) (mem : s'.mem = s.mem)
    (linked : ∀ b l x, g.Linked b l x → g'.Linked b l x)
    (links : ∀ z ∈ s'.pending, ∀ b, Links g' z b → z ∈ s.pending ∧ Links g z b)
    (old : ∀ a page, s.mem a = some page → g'.owner a = none →
      g.owner a = none ∨ page.Points (Exposed s g))
    (view : ∀ a page, s'.view a = some page → g'.owner a = none → page.Points fun b l x =>
      g'.Linked b l x ∧ ∀ z ∈ s.pending, Links g z b → z.write.target = some a)
    (cache : ∀ n, ∀ e ∈ s'.cache n, ∀ p, e.ptr = some p → (Page.internal p).Points (Exposed s g))
    (target : ∀ z ∈ s'.pending, ∀ a, z.write.target = some a → g'.owner a = none → ¬ Hidden s g a)
    (owed : ∀ b, Hidden s g b → g'.owed b = g.owed b) : ExposureInv s' g' := by
  have hidden : ∀ b, Hidden s' g' b → Hidden s g b := by
    rintro b ⟨y, hy, h⟩
    exact ⟨y, links y hy b h⟩
  have exposed : ∀ b l x, Exposed s g b l x → Exposed s' g' b l x :=
    fun b l x h => ⟨linked b l x h.1, fun h' => h.2 (hidden b h')⟩
  refine ⟨fun a page h unowned => ?_, fun a page h unowned => ?_,
    fun n e he p hp => (cache n e he p hp).mono exposed,
    fun z hz a h unowned h' => target z hz a h unowned (hidden a h'), fun z hz b h => ?_⟩
  · rw [mem] at h
    rcases old a page h unowned with unowned | points
    · exact (inv.mem a page h unowned).mono exposed
    · exact points.mono exposed
  · refine (view a page h unowned).mono fun b l x ⟨linkedB, follows⟩ => ⟨linkedB, ?_⟩
    intro z hz hlinks
    obtain ⟨old, oldLinks⟩ := links z hz b hlinks
    exact follows z old oldLinks
  · obtain ⟨old, oldLinks⟩ := links z hz b h
    rw [owed b ⟨z, old, oldLinks⟩]
    exact inv.owed z old b oldLinks

theorem step (inv : ExposureInv s g) (mem : s'.mem = s.mem)
    (linked : ∀ b l x, g.Linked b l x → g'.Linked b l x)
    (links : ∀ z ∈ s'.pending, ∀ b, Links g' z b → z ∈ s.pending ∧ Links g z b)
    (old : ∀ a page, s.mem a = some page → g'.owner a = none →
      g.owner a = none ∨ page.Points (Exposed s g))
    (view : ∀ a page, s'.view a = some page → g'.owner a = none → page.Points (Follows s g a))
    (cache : ∀ n, ∀ e ∈ s'.cache n, ∀ p, e.ptr = some p → (Page.internal p).Points (Exposed s g))
    (target : ∀ z ∈ s'.pending, ∀ a, z.write.target = some a → g'.owner a = none → ¬ Hidden s g a)
    (owed : ∀ b, Hidden s g b → g'.owed b = g.owed b) : ExposureInv s' g' :=
  inv.step_linking mem linked links old
    (fun a page h unowned => (view a page h unowned).mono fun b l x hb => ⟨linked b l x hb.1, hb.2⟩)
    cache target owed

theorem hide (inv : ExposureInv s g) (tree : TreeInv s g) (single : s.Single) {c d : Client}
    {a b : GlobalAddress} {p p' q : LeafPage}
    (owner : g.owner a = none) (quietA : s.Quiet a) (exposed : ¬ Hidden s g a)
    (view : s.view a = some (.leaf p)) (private_ : g.owner b = some d)
    (mem : s.mem b = some (.leaf q)) (quiet : s.Quiet b) (siblingPtr : p'.hdr.siblingPtr = b)
    (highest : p'.hdr.highest < kKeyMax)
    (linkedB : g'.Linked b p'.hdr.level p'.hdr.highest)
    (siblingHdr : q.hdr.level = p.hdr.level ∧ q.hdr.highest = p.hdr.highest ∧
      q.hdr.siblingPtr = p.hdr.siblingPtr)
    (info : g'.info = g.info) (newOwner : g'.owner = Function.update g.owner b none)
    (owed : g'.owed = Function.update g.owed b (some c)) :
    ExposureInv (s.post c (.page a (.leaf p'))) g' := by
  have owner_iff : ∀ e, g'.owner e = none ↔ e = b ∨ g.owner e = none := by
    intro e
    rw [newOwner]
    by_cases h : e = b
    · simp [h]
    · simp [h]
  have linked : ∀ e l x, g.Linked e l x → g'.Linked e l x :=
    fun e l x h => ⟨info ▸ h.1, (owner_iff e).mpr (.inr h.2)⟩
  have unlinked : ∀ e l x, g.Linked e l x → e ≠ b := by
    rintro e l x h rfl
    rw [h.2] at private_
    cases private_
  have nonnull : b ≠ .null := by
    rintro rfl
    rw [tree.null.2] at private_
    cases private_
  have neB : ∀ e, g.owner e = none → e ≠ b := by
    rintro e h rfl
    rw [h] at private_
    cases private_
  -- the links after the step are the old ones and the new one to `b`
  have oldLinks : ∀ z ∈ s.pending, ∀ e, Links g' z e → Links g z e := by
    rintro z hz e ⟨f, r, write, unowned, sib⟩
    refine ⟨f, r, write, ?_, sib⟩
    rcases (owner_iff f).mp unowned with rfl | unowned
    · exact absurd (by rw [write]; rfl) (quiet z hz)
    · exact unowned
  have noOld : ∀ z ∈ s.pending, ¬ Links g z b := by
    intro z hz h
    rcases tree.links_linked single hz h with null | ⟨x, -, leaf⟩
    · exact nonnull null
    · exact unlinked b 0 x leaf rfl
  have newLinks : ∀ e, Links g' ⟨c, .page a (.leaf p')⟩ e → e = b := by
    rintro e ⟨f, r, write, -, rfl⟩
    cases write
    exact siblingPtr
  have hidden : ∀ e, Hidden (s.post c (.page a (.leaf p'))) g' e → e = b ∨ Hidden s g e := by
    rintro e ⟨z, hz, h⟩
    rcases mem_post.mp hz with hz | rfl
    · exact .inr ⟨z, hz, oldLinks z hz e h⟩
    · exact .inl (newLinks e h)
  have stays : ∀ e l x, Exposed s g e l x → Exposed (s.post c (.page a (.leaf p'))) g' e l x := by
    rintro e l x ⟨h, h'⟩
    refine ⟨linked e l x h, fun h'' => ?_⟩
    rcases hidden e h'' with rfl | h''
    · exact unlinked e l x h rfl
    · exact h' h''
  have follows : ∀ f e l x, Follows s g f e l x →
      Follows (s.post c (.page a (.leaf p'))) g' f e l x := by
    rintro f e l x ⟨h, h'⟩
    refine ⟨linked e l x h, fun z hz hlinks => ?_⟩
    rcases mem_post.mp hz with hz | rfl
    · exact h' z hz (oldLinks z hz e hlinks)
    · exact absurd (newLinks e hlinks) (unlinked e l x h)
  have memA : s.mem a = some (.leaf p) := quietA.view ▸ view
  have siblingPoints : (Page.leaf q).Points (Exposed s g) := by
    have := inv.mem a _ memA owner
    simpa only [Page.Points, SiblingOk, siblingHdr] using this
  refine ⟨fun e page h unowned => ?_, fun e page h unowned => ?_,
    fun n e he r hr => (inv.cache n e he r hr).mono stays, fun z hz e target unowned h => ?_,
    fun z hz e h => ?_⟩
  · rcases (owner_iff e).mp unowned with rfl | unowned
    · rw [post_mem, mem, Option.some.injEq] at h
      exact h ▸ siblingPoints.mono stays
    · exact (inv.mem e page h unowned).mono stays
  · by_cases same : e = a
    · subst same
      rw [view_post_page, Option.some.injEq] at h
      subst h
      refine .inr ⟨highest, ?_, fun z hz hlinks => ?_⟩
      · simpa only [siblingPtr] using linkedB
      · rcases mem_post.mp hz with hz | rfl
        · exact absurd (siblingPtr ▸ oldLinks z hz _ hlinks) (noOld z hz)
        · rfl
    · have other : (Write.page a (.leaf p')).target ≠ some e := fun h' => same (Option.some.inj h').symm
      rw [view_post_other other] at h
      rcases (owner_iff e).mp unowned with rfl | unowned
      · rw [quiet.view, mem, Option.some.injEq] at h
        subst h
        exact siblingPoints.mono fun f l x exposedF =>
          follows e f l x ⟨exposedF.1, fun z hz hlinks => absurd ⟨z, hz, hlinks⟩ exposedF.2⟩
      · exact (inv.view e page h unowned).mono (follows e)
  · rcases mem_post.mp hz with hz | rfl
    · rcases (owner_iff e).mp unowned with rfl | unowned
      · exact quiet z hz target
      · rcases hidden e h with rfl | h
        · exact quiet z hz target
        · exact inv.target z hz e target unowned h
    · cases target
      rcases hidden a h with rfl | h
      · exact neB a owner rfl
      · exact exposed h
  · rw [owed]
    rcases mem_post.mp hz with hz | rfl
    · have h' := oldLinks z hz e h
      have other : e ≠ b := by
        rintro rfl
        exact noOld z hz h'
      rw [Function.update_of_ne other]
      exact inv.owed z hz e h'
    · rw [newLinks e h, Function.update_self]

end ExposureInv
end Sherman
