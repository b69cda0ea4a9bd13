import Sherman.Tree.Invariant

namespace Sherman

open Shared

namespace PageSound
variable {g g' : Ghost} {a : GlobalAddress} {page : Page}

theorem mono (h : PageSound g a page) (info : ∀ i, g.info a = some i → g'.info a = some i)
    (linked : ∀ b l x, g.Linked b l x → g'.Linked b l x) : PageSound g' a page :=
  ⟨info _ h.info, h.ok, h.points.mono linked⟩

end PageSound

theorem EntrySound.mono {g g' : Ghost} {e : CacheEntry} {p : InternalPage} (h : EntrySound g e p)
    (linked : ∀ b l x, g.Linked b l x → g'.Linked b l x) : EntrySound g' e p :=
  ⟨h.fromKey, h.toKey, h.level, h.ok, h.points.mono linked⟩

theorem DirectorySound.mono {g g' : Ghost} {d : Directory} (h : DirectorySound g d)
    (linked : ∀ b l x, g.Linked b l x → g'.Linked b l x) : DirectorySound g' d := by
  rcases h with ⟨null, unknown, enabled⟩ | ⟨l, level, high, root⟩
  · exact .inl ⟨null, unknown, fun on => (enabled on).imp fun a => linked a 1 _⟩
  · exact .inr ⟨l, level, high, linked _ _ _ root⟩

theorem linked_congr {g g' : Ghost} (info : g'.info = g.info) (owner : g'.owner = g.owner) :
    g'.Linked = g.Linked := by
  funext a l x
  simp only [Ghost.Linked, info, owner]

namespace TreeInv
variable {s s' : Shared} {g g' : Ghost}

theorem congr (inv : TreeInv s g) (mem : s'.mem = s.mem) (view : s'.view = s.view)
    (rootPtr : s'.rootPtr = s.rootPtr) (sent : s'.sent = s.sent) (dir : s'.dir = s.dir)
    (cache : s'.cache = s.cache) (allocated : s'.allocated = s.allocated)
    (info : g'.info = g.info) (owner : g'.owner = g.owner) (owed : g'.owed = g.owed) :
    TreeInv s' g' := by
  have linked := linked_congr info owner
  have same : ∀ b l x, g.Linked b l x → g'.Linked b l x := fun b l x h => by rw [linked]; exact h
  have keep : ∀ a i, g.info a = some i → g'.info a = some i := fun a i h => by rw [info]; exact h
  refine ⟨?_, ?_, ?_, ?_, ?_, ?_, ?_, ?_, ?_, ?_, ?_, ?_, ?_⟩
  · rw [info, owner]
    exact inv.null
  · intro a page h
    rw [mem] at h
    exact (inv.mem_sound a page h).mono (keep a) same
  · intro a page h
    rw [view] at h
    exact (inv.view_sound a page h).mono (keep a) same
  · rw [linked, mem]
    exact inv.mem_some
  · rw [linked, view]
    exact inv.view_some
  · rw [linked]
    exact inv.unique
  · rw [view, linked, owner]
    exact inv.disjoint
  · rw [linked, rootPtr]
    exact inv.root
  · rw [linked, sent]
    exact inv.sent
  · intro n
    rw [dir]
    exact (inv.dir n).mono same
  · intro n e he p hp
    rw [cache] at he
    exact (inv.cache n e he p hp).mono same
  · rw [allocated, info, owner]
    exact inv.allocated
  · intro a c h
    rw [owed] at h
    obtain ⟨start, orphan⟩ := inv.owed a c h
    rw [linked]
    refine ⟨start, fun b q => ?_⟩
    rw [view, owner]
    exact orphan b q

theorem execute (inv : TreeInv s g) {z : Posted} (executed : s.Executed z s') (single : s.Single) :
    TreeInv s' g := by
  have view := executed.view single
  have memory : ∀ a, s'.mem a = s.mem a ∨ s'.mem a = s.view a := by
    intro a
    by_cases target : z.write.target = some a
    · exact .inr (executed.mem_target single target)
    · exact .inl (executed.mem_other target)
  refine ⟨inv.null, fun a page h => ?_, view ▸ inv.view_sound, fun a l x h => ?_, view ▸ inv.view_some,
    inv.unique, view ▸ inv.disjoint, executed.rootPtr ▸ inv.root, executed.sent ▸ inv.sent,
    executed.dir ▸ inv.dir, executed.cache ▸ inv.cache, executed.allocated ▸ inv.allocated,
    fun a c h => ⟨(inv.owed a c h).1, fun b q => ?_⟩⟩
  · rcases memory a with same | same
    · exact inv.mem_sound a page (same ▸ h)
    · exact inv.view_sound a page (same ▸ h)
  · rcases memory a with same | same
    · exact same ▸ inv.mem_some a l x h
    · exact same ▸ inv.view_some a l x h
  · rw [view]
    exact (inv.owed a c h).2 b q

theorem postPrivate (inv : TreeInv s g) {c d : Client} {a : GlobalAddress} {page : Page}
    (owner : g.owner a = some d) (fresh : g.info a = none) (ok : page.Ok)
    (points : page.Points g.Linked)
    (info : g'.info = Function.update g.info a (some (page.hdr.level, page.hdr.lowest)))
    (sameOwner : g'.owner = g.owner) (owed : g'.owed = g.owed) :
    TreeInv (s.post c (.page a page)) g' := by
  have keep : ∀ b i, g.info b = some i → g'.info b = some i := by
    intro b i h
    rw [info, Function.update_of_ne]
    · exact h
    · rintro rfl
      rw [fresh] at h
      cases h
  have linked : g'.Linked = g.Linked := by
    funext b l x
    simp only [Ghost.Linked, sameOwner, eq_iff_iff]
    refine ⟨fun h => ⟨?_, h.2⟩, fun h => ⟨keep b _ h.1, h.2⟩⟩
    have other : b ≠ a := by
      rintro rfl
      rw [owner] at h
      cases h.2
    rw [← Function.update_of_ne other (some (page.hdr.level, page.hdr.lowest)) g.info, ← info]
    exact h.1
  have same : ∀ b l x, g.Linked b l x → g'.Linked b l x := fun b l x h => by rw [linked]; exact h
  have other : ∀ b, g.owner b = none → b ≠ a := by
    rintro b h rfl
    rw [owner] at h
    cases h
  have view : ∀ b, b ≠ a → (s.post c (.page a page)).view b = s.view b :=
    fun b h => view_post_other fun h' => h (Option.some.inj h').symm
  refine ⟨?_, fun b q h => (inv.mem_sound b q h).mono (keep b) same, fun b q h => ?_, ?_, ?_, ?_, ?_,
    ?_, ?_, fun n => (inv.dir n).mono same, fun n e he p hp => (inv.cache n e he p hp).mono same,
    fun b h => ?_, fun b d' h => ?_⟩
  · have : GlobalAddress.null ≠ a := by
      rintro rfl
      rw [inv.null.2] at owner
      cases owner
    rw [info, Function.update_of_ne this, sameOwner]
    exact inv.null
  · by_cases h' : b = a
    · subst h'
      rw [view_post_page, Option.some.injEq] at h
      subst h
      refine ⟨?_, ok, points.mono same⟩
      rw [info, Function.update_self]
    · rw [view b h'] at h
      exact (inv.view_sound b q h).mono (keep b) same
  · rw [linked]
    exact inv.mem_some
  · rw [linked]
    intro b l x h
    rw [view b (other b h.2)]
    exact inv.view_some b l x h
  · rw [linked]
    exact inv.unique
  · rw [linked, sameOwner]
    intro b q h none
    rw [view b (other b none)] at h
    exact inv.disjoint b q h none
  · rw [linked]
    exact inv.root
  · rw [linked]
    exact inv.sent
  · have := inv.allocated b h
    rw [sameOwner, info, Function.update_of_ne]
    · exact this
    · rintro rfl
      rw [owner] at this
      cases this.2
  · rw [owed] at h
    rw [linked]
    refine ⟨(inv.owed b d' h).1, fun e q => ?_⟩
    rw [sameOwner]
    intro hq none
    rw [view e (other e none)] at hq
    exact (inv.owed b d' h).2 e q hq none

theorem postLinked (inv : TreeInv s g) {c : Client} {w : Write} {a : GlobalAddress}
    {page page' : Page} (owner : g.owner a = none) (view : s.view a = some page)
    (target : w.target = some a) (applied : w.apply (some page) = some page')
    (level : page'.hdr.level = page.hdr.level) (lowest : page'.hdr.lowest = page.hdr.lowest)
    (highest : page'.hdr.highest = page.hdr.highest) (ok : page'.Ok)
    (points : page'.Points g.Linked) (info : g'.info = g.info) (sameOwner : g'.owner = g.owner)
    (owed : ∀ b d, g'.owed b = some d →
      g.owed b = some d ∧ ∀ q x, page' = .internal q → ¬ q.Child b x) :
    TreeInv (s.post c w) g' := by
  have linked := linked_congr info sameOwner
  have same : ∀ b l x, g.Linked b l x → g'.Linked b l x := fun b l x h => by rw [linked]; exact h
  have keep : ∀ a i, g.info a = some i → g'.info a = some i := fun a i h => by rw [info]; exact h
  have updated : (s.post c w).view a = some page' := by rw [view_post, if_pos target, view, applied]
  have other : ∀ b, b ≠ a → (s.post c w).view b = s.view b :=
    fun b h => view_post_other fun h' => h (Option.some.inj (h'.symm.trans target))
  refine ⟨by rw [info, sameOwner]; exact inv.null,
    fun b q h => (inv.mem_sound b q h).mono (keep b) same, fun b q h => ?_, ?_, ?_, ?_, ?_, ?_, ?_,
    fun n => (inv.dir n).mono same, fun n e he p hp => (inv.cache n e he p hp).mono same, ?_,
    fun b d h => ?_⟩
  · by_cases h' : b = a
    · subst h'
      rw [updated, Option.some.injEq] at h
      subst h
      refine ⟨?_, ok, points.mono same⟩
      rw [info, level, lowest]
      exact (inv.view_sound b page view).info
    · rw [other b h'] at h
      exact (inv.view_sound b q h).mono (keep b) same
  · rw [linked]
    exact inv.mem_some
  · rw [linked]
    intro b l x h
    by_cases h' : b = a
    · exact ⟨page', h' ▸ updated⟩
    · rw [other b h']
      exact inv.view_some b l x h
  · rw [linked]
    exact inv.unique
  · rw [linked, sameOwner]
    intro b q h none
    by_cases h' : b = a
    · subst h'
      rw [updated, Option.some.injEq] at h
      subst h
      rw [level, lowest, highest]
      exact inv.disjoint b page view none
    · rw [other b h'] at h
      exact inv.disjoint b q h none
  · rw [linked]
    exact inv.root
  · rw [linked]
    exact inv.sent
  · rw [info, sameOwner]
    exact inv.allocated
  · obtain ⟨old, notChild⟩ := owed b d h
    rw [linked]
    refine ⟨(inv.owed b d old).1, fun e q => ?_⟩
    rw [sameOwner]
    intro hq none
    by_cases h' : e = a
    · subst h'
      rw [updated, Option.some.injEq] at hq
      exact fun x => notChild q x hq
    · rw [other e h'] at hq
      exact (inv.owed b d old).2 e q hq none

theorem link (inv : TreeInv s g) {c d : Client} {a b : GlobalAddress} {page page' sibling : Page}
    (owner : g.owner a = none) (view : s.view a = some page) (private_ : g.owner b = some d)
    (mem : s.mem b = some sibling) (quiet : s.Quiet b)
    (level : page'.hdr.level = page.hdr.level) (lowest : page'.hdr.lowest = page.hdr.lowest)
    (siblingLevel : sibling.hdr.level = page.hdr.level)
    (siblingLowest : sibling.hdr.lowest = page'.hdr.highest)
    (siblingHighest : sibling.hdr.highest = page.hdr.highest)
    (ok : page'.Ok) (points : page'.Points g'.Linked)
    (info : g'.info = g.info) (newOwner : g'.owner = Function.update g.owner b none)
    (owed : ∀ e d', g'.owed e = some d' → e = b ∨ (g.owed e = some d' ∧
      (∀ q x, page' = .internal q → ¬ q.Child e x) ∧
      (∀ q x, sibling = .internal q → ¬ q.Child e x))) :
    TreeInv (s.post c (.page a page')) g' := by
  have distinct : a ≠ b := by
    rintro rfl
    rw [owner] at private_
    cases private_
  have siblingView : s.view b = some sibling := quiet.view.trans mem
  have siblingSound := inv.mem_sound b sibling mem
  have above : page.hdr.lowest < page'.hdr.highest := lowest ▸ ok.fence
  have below : page'.hdr.highest < page.hdr.highest := by
    rw [← siblingLowest, ← siblingHighest]
    exact siblingSound.ok.fence
  have pageLinked : g.Linked a page.hdr.level page.hdr.lowest := ⟨(inv.view_sound a page view).info, owner⟩
  have keep : ∀ a i, g.info a = some i → g'.info a = some i := fun a i h => by rw [info]; exact h
  have owner_iff : ∀ e, g'.owner e = none ↔ e = b ∨ g.owner e = none := by
    intro e
    rw [newOwner]
    by_cases h : e = b
    · simp [h]
    · simp [h]
  have linked_iff : ∀ e l x, g'.Linked e l x ↔
      (e = b ∧ l = page.hdr.level ∧ x = page'.hdr.highest) ∨ g.Linked e l x := by
    intro e l x
    simp only [Ghost.Linked, info, owner_iff]
    constructor
    · rintro ⟨h, rfl | h'⟩
      · rw [siblingSound.info, siblingLevel, siblingLowest] at h
        simp only [Option.some.injEq, Prod.mk.injEq] at h
        exact .inl ⟨rfl, h.1.symm, h.2.symm⟩
      · exact .inr ⟨h, h'⟩
    · rintro (⟨rfl, rfl, rfl⟩ | ⟨h, h'⟩)
      · rw [siblingSound.info, siblingLevel, siblingLowest]
        exact ⟨rfl, .inl rfl⟩
      · exact ⟨h, .inr h'⟩
  have same : ∀ e l x, g.Linked e l x → g'.Linked e l x := fun e l x h => (linked_iff e l x).mpr (.inr h)
  have updated : (s.post c (.page a page')).view a = some page' := view_post_page s c a page'
  have other : ∀ e, e ≠ a → (s.post c (.page a page')).view e = s.view e :=
    fun e h => view_post_other fun h' => h (Option.some.inj h').symm
  have unlinked : ∀ e, g.owner e = none → e ≠ b := by
    rintro e h rfl
    rw [private_] at h
    cases h
  have notChild : ∀ q l, Page.Points (fun e m x => g'.Linked e m x) (.internal q) →
      q.hdr.level = l → l = page.hdr.level → q.Ok → ∀ x, ¬ q.Child b x := by
    rintro q l hq rfl hl okq x child
    have h := (linked_iff _ _ _).mp (hq.2 b x child)
    rcases h with ⟨-, h, -⟩ | h
    · have := okq.level
      omega
    · exact unlinked b h.2 rfl
  refine ⟨?_, fun e q h => (inv.mem_sound e q h).mono (keep e) same, fun e q h => ?_, fun e l x h => ?_,
    fun e l x h => ?_, fun e f l x he hf => ?_, fun e q h unowned f y hf => ?_, ?_,
    fun m hm => (inv.sent m hm).imp id (same _ _ _), fun n => (inv.dir n).mono same,
    fun n e he p hp => (inv.cache n e he p hp).mono same, fun e h => ?_, fun e d' h => ?_⟩
  · rw [info, newOwner, Function.update_of_ne]
    · exact inv.null
    · rintro rfl
      rw [inv.null.2] at private_
      cases private_
  · by_cases h' : e = a
    · subst h'
      rw [updated, Option.some.injEq] at h
      subst h
      refine ⟨?_, ok, points⟩
      rw [info, level, lowest]
      exact (inv.view_sound e page view).info
    · rw [other e h'] at h
      exact (inv.view_sound e q h).mono (keep e) same
  · rcases (linked_iff e l x).mp h with ⟨rfl, -, -⟩ | h
    · exact ⟨sibling, mem⟩
    · exact inv.mem_some e l x h
  · by_cases h' : e = a
    · exact ⟨page', h' ▸ updated⟩
    · rw [other e h']
      rcases (linked_iff e l x).mp h with ⟨rfl, -, -⟩ | h
      · exact ⟨sibling, siblingView⟩
      · exact inv.view_some e l x h
  · -- a page starting at the split key would start inside the page
    have outside : ∀ e, ¬ g.Linked e page.hdr.level page'.hdr.highest := by
      intro e h
      rcases inv.disjoint a page view owner e _ h with h | h
      · exact absurd h (not_le.mpr above)
      · exact absurd h (not_le.mpr below)
    rcases (linked_iff e l x).mp he with ⟨rfl, rfl, rfl⟩ | he
    · rcases (linked_iff f _ _).mp hf with ⟨rfl, -, -⟩ | hf
      · rfl
      · exact absurd hf (outside f)
    · rcases (linked_iff f _ _).mp hf with ⟨rfl, rfl, rfl⟩ | hf
      · exact absurd he (outside e)
      · exact inv.unique e f l x he hf
  · rcases (owner_iff e).mp unowned with rfl | unowned
    · rw [other e distinct.symm, siblingView, Option.some.injEq] at h
      subst h
      rw [siblingLevel] at hf
      rcases (linked_iff f _ _).mp hf with ⟨-, -, rfl⟩ | hf
      · exact .inl siblingLowest.ge
      · rcases inv.disjoint a page view owner f y hf with h | h
        · exact .inl (h.trans (siblingLowest ▸ above.le))
        · exact .inr (siblingHighest ▸ h)
    · by_cases h' : e = a
      · subst h'
        rw [updated, Option.some.injEq] at h
        subst h
        rw [level] at hf
        rcases (linked_iff f _ _).mp hf with ⟨-, -, rfl⟩ | hf
        · exact .inr le_rfl
        · rcases inv.disjoint e page view owner f y hf with h | h
          · exact .inl (lowest.symm ▸ h)
          · exact .inr (below.le.trans h)
      · rw [other e h'] at h
        rcases (linked_iff f _ _).mp hf with ⟨-, sameLevel, rfl⟩ | hf
        · by_contra inside
          rw [not_or, not_le, not_le] at inside
          exact h' (inv.page_unique h unowned view owner sameLevel inside.1.le inside.2 above.le below)
        · exact inv.disjoint e q h unowned f y hf
  · obtain ⟨l, hl, top⟩ := inv.root
    refine ⟨l, same _ _ _ hl, fun e m x h => ?_⟩
    rcases (linked_iff e m x).mp h with ⟨-, rfl, -⟩ | h
    · exact top a _ _ pageLinked
    · exact top e m x h
  · have := inv.allocated e h
    rw [info, newOwner, Function.update_of_ne]
    · exact this
    · rintro rfl
      rw [private_] at this
      cases this.2
  · rcases owed e d' h with rfl | ⟨old, notPage, notSibling⟩
    · refine ⟨⟨_, _, (linked_iff e _ _).mpr (.inl ⟨rfl, rfl, rfl⟩), ?_⟩, fun f q hq unowned => ?_⟩
      · exact (Nat.zero_le _).trans_lt above
      · rcases (owner_iff f).mp unowned with rfl | unowned
        · rw [other f distinct.symm, siblingView, Option.some.injEq] at hq
          subst hq
          exact notChild q _ (siblingSound.points.mono same) rfl siblingLevel siblingSound.ok
        · by_cases h' : f = a
          · subst h'
            rw [updated, Option.some.injEq] at hq
            subst hq
            exact notChild q _ points rfl level ok
          · rw [other f h'] at hq
            exact fun x child => unlinked e ((inv.view_sound f _ hq).points.2 e x child).2 rfl
    · obtain ⟨⟨l, x, start, pos⟩, orphan⟩ := inv.owed e d' old
      refine ⟨⟨l, x, same _ _ _ start, pos⟩, fun f q hq unowned => ?_⟩
      rcases (owner_iff f).mp unowned with rfl | unowned
      · rw [other f distinct.symm, siblingView, Option.some.injEq] at hq
        exact fun x => notSibling q x hq
      · by_cases h' : f = a
        · subst h'
          rw [updated, Option.some.injEq] at hq
          exact fun x => notPage q x hq
        · rw [other f h'] at hq
          exact orphan f q hq unowned

theorem swapRoot (inv : TreeInv s g) {d : Client} {a : GlobalAddress} {page : Page} {l : Nat}
    (root : g.Linked s.rootPtr l kKeyMin) (private_ : g.owner a = some d)
    (mem : s.mem a = some page) (quiet : s.Quiet a) (level : page.hdr.level = l + 1)
    (lowest : page.hdr.lowest = kKeyMin)
    (info : g'.info = g.info) (newOwner : g'.owner = Function.update g.owner a none)
    (owed : ∀ e d', g'.owed e = some d' →
      g.owed e = some d' ∧ ∀ q x, page = .internal q → ¬ q.Child e x) :
    TreeInv { s with rootPtr := a } g' := by
  have view : ∀ e, ({ s with rootPtr := a } : Shared).view e = s.view e := fun e =>
    congrFun (view_congr rfl rfl) e
  have pageView : s.view a = some page := quiet.view.trans mem
  have sound := inv.mem_sound a page mem
  have top : ∀ e m x, g.Linked e m x → m ≤ l := by
    obtain ⟨l', root', top⟩ := inv.root
    rw [(root.level_eq root').1]
    exact top
  have keep : ∀ e i, g.info e = some i → g'.info e = some i := fun e i h => by rw [info]; exact h
  have owner_iff : ∀ e, g'.owner e = none ↔ e = a ∨ g.owner e = none := by
    intro e
    rw [newOwner]
    by_cases h : e = a
    · simp [h]
    · simp [h]
  have linked_iff : ∀ e m x, g'.Linked e m x ↔
      (e = a ∧ m = l + 1 ∧ x = kKeyMin) ∨ g.Linked e m x := by
    intro e m x
    simp only [Ghost.Linked, info, owner_iff]
    constructor
    · rintro ⟨h, rfl | h'⟩
      · rw [sound.info, level, lowest] at h
        simp only [Option.some.injEq, Prod.mk.injEq] at h
        exact .inl ⟨rfl, h.1.symm, h.2.symm⟩
      · exact .inr ⟨h, h'⟩
    · rintro (⟨rfl, rfl, rfl⟩ | ⟨h, h'⟩)
      · rw [sound.info, level, lowest]
        exact ⟨rfl, .inl rfl⟩
      · exact ⟨h, .inr h'⟩
  have same : ∀ e m x, g.Linked e m x → g'.Linked e m x := fun e m x h => (linked_iff e m x).mpr (.inr h)
  refine ⟨?_, fun e q h => (inv.mem_sound e q h).mono (keep e) same, fun e q h => ?_, fun e m x h => ?_,
    fun e m x h => ?_, fun e f m x he hf => ?_, fun e q h unowned f y hf => ?_,
    ⟨l + 1, (linked_iff _ _ _).mpr (.inl ⟨rfl, rfl, rfl⟩), fun e m x h => ?_⟩,
    fun m hm => (inv.sent m hm).imp id (same _ _ _), fun n => (inv.dir n).mono same,
    fun n e he p hp => (inv.cache n e he p hp).mono same, fun e h => ?_, fun e d' h => ?_⟩
  · rw [info, newOwner, Function.update_of_ne]
    · exact inv.null
    · rintro rfl
      rw [inv.null.2] at private_
      cases private_
  · rw [view] at h
    exact (inv.view_sound e q h).mono (keep e) same
  · rcases (linked_iff e m x).mp h with ⟨rfl, -, -⟩ | h
    · exact ⟨page, mem⟩
    · exact inv.mem_some e m x h
  · rw [view]
    rcases (linked_iff e m x).mp h with ⟨rfl, -, -⟩ | h
    · exact ⟨page, pageView⟩
    · exact inv.view_some e m x h
  · rcases (linked_iff e m x).mp he with ⟨rfl, rfl, rfl⟩ | he
    · rcases (linked_iff f _ _).mp hf with ⟨rfl, -, -⟩ | hf
      · rfl
      · exact absurd (top f _ _ hf) (by omega)
    · rcases (linked_iff f _ _).mp hf with ⟨rfl, rfl, rfl⟩ | hf
      · exact absurd (top e _ _ he) (by omega)
      · exact inv.unique e f m x he hf
  · rw [view] at h
    rcases (linked_iff f _ _).mp hf with ⟨-, -, rfl⟩ | hf
    · exact .inl (Nat.zero_le _)
    · rcases (owner_iff e).mp unowned with rfl | unowned
      · rw [pageView, Option.some.injEq] at h
        subst h
        rw [level] at hf
        exact absurd (top f _ _ hf) (by omega)
      · exact inv.disjoint e q h unowned f y hf
  · rcases (linked_iff e m x).mp h with ⟨-, rfl, -⟩ | h
    · exact le_rfl
    · exact (top e m x h).trans (Nat.le_succ l)
  · have := inv.allocated e h
    rw [info, newOwner, Function.update_of_ne]
    · exact this
    · rintro rfl
      rw [private_] at this
      cases this.2
  · obtain ⟨old, notChild⟩ := owed e d' h
    obtain ⟨⟨m, x, start, pos⟩, orphan⟩ := inv.owed e d' old
    refine ⟨⟨m, x, same _ _ _ start, pos⟩, fun f q hq unowned => ?_⟩
    rw [view] at hq
    rcases (owner_iff f).mp unowned with rfl | unowned
    · rw [pageView, Option.some.injEq] at hq
      exact fun x => notChild q x hq
    · exact orphan f q hq unowned

theorem alloc (inv : TreeInv s g) {d : Client} {a : GlobalAddress} (nonnull : a ≠ .null)
    (fresh : a ∉ s.allocated) (info : g'.info = g.info)
    (newOwner : g'.owner = Function.update g.owner a (some d)) (owed : g'.owed = g.owed) :
    TreeInv { s with allocated := a :: s.allocated } g' := by
  obtain ⟨noInfo, noOwner⟩ := inv.allocated a fresh
  have view : ∀ e, ({ s with allocated := a :: s.allocated } : Shared).view e = s.view e := fun e =>
    congrFun (view_congr rfl rfl) e
  have linked : g'.Linked = g.Linked := by
    funext e l x
    simp only [Ghost.Linked, info, newOwner, eq_iff_iff]
    by_cases h : e = a
    · simp [h, noInfo]
    · simp [h]
  have same : ∀ e m x, g.Linked e m x → g'.Linked e m x := fun e m x h => by rw [linked]; exact h
  have keep : ∀ e i, g.info e = some i → g'.info e = some i := fun e i h => by rw [info]; exact h
  have unowned : ∀ e, g'.owner e = none → g.owner e = none := by
    intro e h
    rw [newOwner] at h
    by_cases h' : e = a
    · subst h'
      exact noOwner
    · rwa [Function.update_of_ne h'] at h
  refine ⟨?_, fun e q h => (inv.mem_sound e q h).mono (keep e) same, fun e q h => ?_, ?_, ?_, ?_,
    fun e q h none => ?_, ?_, ?_, fun n => (inv.dir n).mono same,
    fun n e he p hp => (inv.cache n e he p hp).mono same, fun e h => ?_, fun e d' h => ?_⟩
  · rw [info, newOwner, Function.update_of_ne nonnull.symm]
    exact inv.null
  · rw [view] at h
    exact (inv.view_sound e q h).mono (keep e) same
  · rw [linked]
    exact inv.mem_some
  · rw [linked]
    intro e
    rw [view]
    exact inv.view_some e
  · rw [linked]
    exact inv.unique
  · rw [view] at h
    rw [linked]
    exact inv.disjoint e q h (unowned e none)
  · rw [linked]
    exact inv.root
  · rw [linked]
    exact inv.sent
  · rw [List.mem_cons, not_or] at h
    rw [info, newOwner, Function.update_of_ne h.1]
    exact inv.allocated e h.2
  · rw [owed] at h
    rw [linked]
    refine ⟨(inv.owed e d' h).1, fun f q hq none => ?_⟩
    rw [view] at hq
    exact (inv.owed e d' h).2 f q hq (unowned f none)

theorem locate (inv : TreeInv s g) {sent : List (GlobalAddress × Nat)} {dir : NodeID → Directory}
    {cache : NodeID → IndexCache} (sent_ok : ∀ m ∈ sent, 1 ≤ m.2 ∧ g.Linked m.1 m.2 kKeyMin)
    (dir_ok : ∀ n, DirectorySound g (dir n))
    (cache_ok : ∀ n, ∀ e ∈ cache n, ∀ p, e.ptr = some p → EntrySound g e p) :
    TreeInv { s with sent := sent, dir := dir, cache := cache } g := by
  have view : ({ s with sent := sent, dir := dir, cache := cache } : Shared).view = s.view :=
    view_congr rfl rfl
  refine ⟨inv.null, inv.mem_sound, ?_, inv.mem_some, ?_, inv.unique, ?_, inv.root, sent_ok, dir_ok,
    cache_ok, inv.allocated, fun e d h => ⟨(inv.owed e d h).1, ?_⟩⟩
  · rw [view]
    exact inv.view_sound
  · rw [view]
    exact inv.view_some
  · rw [view]
    exact inv.disjoint
  · intro b q
    rw [view]
    exact (inv.owed e d h).2 b q

end TreeInv

theorem DirectorySound.processNewRoot {g : Ghost} {d : Directory} (sound : DirectorySound g d)
    {a : GlobalAddress} {level : Nat} (high : 1 ≤ level) (linked : g.Linked a level kKeyMin) :
    DirectorySound g (d.processNewRoot a level) := by
  unfold Directory.processNewRoot
  split
  · exact .inr ⟨level, rfl, high, linked⟩
  · exact sound

end Sherman
