import Sherman.Tree.Rules

namespace Sherman

open Shared Concurrency

variable {m : Mode} {cfg : Config} {t : Client} {s : Shared} {g : Ghost}

/-! ## Taking effect without writing -/

theorem guarantee_setStatus (inv : Invariant m cfg (s, g)) {op : Op} {r : Result} {posted : Option Result}
    {v : Verb} (silent : Silent t v (s, g)) (fresh : g.status t = some ⟨op, none, none, none⟩)
    (bindings : posted = none ∨ posted = some r ∧ op.Effect r (Bindings s g) (Bindings s g))
    (executed : m.visible → op.Effect r (Executed s g) (Executed s g)) :
    Guarantee m cfg t v (s, g) (s, g.setStatus t (some ⟨op, none, posted, some r⟩)) := by
  refine ⟨setStatus_invariant inv (by simp) fun _ => by simp [fresh], fun u hu => setStatus_rely hu _, silent.2,
    ?_, fun _ => rfl, fun writes => absurd writes silent.1, fun vis => .inr ⟨op, r, ?_, ?_, executed vis⟩, fun c => ?_⟩
  · rcases bindings with rfl | ⟨rfl, effect⟩
    · refine .inl ⟨?_, rfl⟩
      funext c
      by_cases same : c = t
      · subst same
        simp [postedTrack, fresh]
      · simp [postedTrack, same]
    · refine .inr ⟨op, r, ?_, ?_, effect⟩
      · simp [postedTrack, fresh]
      · funext c
        by_cases same : c = t
        · subst same
          simp [postedTrack]
        · simp [postedTrack, same]
  · simp [executedTrack, fresh]
  · funext c
    by_cases same : c = t
    · subst same
      simp [executedTrack]
    · simp [executedTrack, same]
  · by_cases same : c = t
    · subst same
      simp [fresh]
    · simp [same]

theorem search_effect {bindings : Key → Value → Prop} {p : LeafPage} {k : Key} (ok : p.Ok)
    (local_ : ∀ v, bindings k v ↔ p.Holds k v) :
    (Op.search k).Effect (found (p.search k)) bindings bindings := by
  refine ⟨rfl, ?_⟩
  unfold found
  by_cases null : p.search k = kValueNull
  · rw [if_pos null]
    exact .inr ⟨rfl, fun v hv => LeafPage.Ok.search_eq_null null ok v ((local_ v).mp hv)⟩
  · rw [if_neg null]
    exact .inl ⟨p.search k, rfl, (local_ _).mpr (LeafPage.holds_of_search rfl null)⟩

/-! ## Reading a page of the tree -/

theorem Invariant.points_reach (inv : Invariant m cfg (s, g)) {a : GlobalAddress} {page : Page}
    (mem : s.mem a = some page) (owner : g.owner a = none) : page.Points (Reach m (s, g)) := by
  by_cases vis : m.visible
  · exact ((inv.visible vis).exposure.mem a page mem owner).mono fun _ _ _ h => ⟨h.1, fun _ => h.2⟩
  · exact (inv.tree.mem_sound a page mem).points.mono fun _ _ _ h => ⟨h, fun h' => absurd h' vis⟩

def InLeaf (k : Key) (page : Page) (p : LeafPage) : Prop :=
  page = .leaf p ∧ p.hdr.lowest ≤ k ∧ k < p.hdr.highest

structure Noted (m : Mode) (t : Client) (k : Key) (page : Page) (w w' : World) : Prop where
  extend : Extends m w w'
  path : w'.1.path t = w.1.path t
  owed : w'.2.owed = w.2.owed
  hit : ∀ p, InLeaf k page p → Fresh t (.search k) w → Searched m t k (found (p.search k)) w'
  miss : (∀ p, InLeaf k page p → ¬ Fresh t (.search k) w) → StatusLe t w w'

theorem Invariant.quiet_of_only (inv : Invariant m cfg (s, g)) (only : m.only = some t)
    {a : GlobalAddress} (drained : s.drained t a.nodeID) : s.Quiet a :=
  quiet_of_drained drained fun z hz _ => inv.only t only z hz

theorem note (inv : Invariant m cfg (s, g)) {a : GlobalAddress} {page : Page}
    (mem : s.mem a = some page) (owner : g.owner a = none) (exposed : m.visible → ¬ Hidden s g a)
    (drained : s.drained t a.nodeID) (k : Key) :
    ∃ g', Guarantee m cfg t (.readPage a) (s, g) (s, g') ∧ Noted m t k page (s, g) (s, g') := by
  by_cases hit : ∃ p, InLeaf k page p ∧ Fresh t (.search k) (s, g)
  · obtain ⟨p, ⟨rfl, low, high⟩, fresh⟩ := hit
    have ok : p.Ok := (inv.tree.mem_sound a _ mem).ok
    let r := found (p.search k)
    let posted := if m.only = some t then some r else none
    have guarantee : Guarantee m cfg t (.readPage a) (s, g)
        (s, g.setStatus t (some ⟨.search k, none, posted, some r⟩)) := by
      refine guarantee_setStatus inv ⟨id, _, mem⟩ fresh ?_ fun vis => search_effect ok
        ((inv.visible vis).disjoint.executed_iff inv.tree mem owner (exposed vis) low high)
      by_cases only : m.only = some t
      · have view := (inv.quiet_of_only only drained).view.trans mem
        exact .inr ⟨if_pos only, search_effect ok (inv.tree.bindings_iff view owner low high)⟩
      · exact .inl (if_neg only)
    refine ⟨_, guarantee, guarantee.extends, rfl, rfl, fun q inLeaf _ => ?_, fun miss => ?_⟩
    · cases inLeaf.1
      exact ⟨_, _, Function.update_self .., fun only => if_pos only, fun _ => rfl⟩
    · exact absurd fresh (miss p ⟨rfl, low, high⟩)
  · refine ⟨g, .refl inv ⟨id, _, mem⟩, .refl m _, rfl, rfl, fun p inLeaf fresh => ?_, fun _ => .refl t _⟩
    exact absurd ⟨p, inLeaf, fresh⟩ hit

/-! ## `page_search` -/

theorem Page.Points.extend {page : Page} {w w' : World} (points : page.Points (Reach m w))
    (h : Extends m w w') : page.Points (Reach m w') :=
  points.mono fun _ _ _ => h.reach_mono

theorem sibling_reach {w : World} {hdr : Header} {k : Key} (ok : SiblingOk (Reach m w) hdr)
    (past : hdr.highest ≤ k) (bound : k < kKeyMax) : Reach m w hdr.siblingPtr hdr.level hdr.highest := by
  rcases ok with ⟨last, -⟩ | ⟨-, reach⟩
  · exact absurd (last ▸ past) (not_le.mpr bound)
  · exact reach

section Search
variable {w w' : World} {k : Key} {a : GlobalAddress} {l : Nat} {Q : Option SearchResult → World → Prop}

theorem runs_cacheLevelOne {p : InternalPage} {Q : Unit → World → Prop} (ok : p.Ok)
    (points : (Page.internal p).Points (Reach m w))
    (h : ∀ w', Keeps m t w w' → Q () w') :
    Runs m cfg t (cacheLevelOne p) Q w := by
  unfold cacheLevelOne
  split
  · rename_i level
    refine runs_load (fun s => (s.dir (cfg.nodeOf t)).enableCache) (fun _ _ => rfl) (fun _ => ⟨id, trivial⟩) fun w₁ rely₁ _ => ?_
    split
    · refine runs_last (runs_addToCache (fun w₂ rely₂ _ => ?_) fun w₂ keeps₂ => runs_ret fun w₃ rely₃ _ => ?_)
      · have points₂ := points.extend (rely₁.trans rely₂).extends
        exact ⟨level, ok, points₂.mono fun _ _ _ h => h.1, fun vis => points₂.mono fun _ _ _ h => ⟨h.1, h.2 vis⟩⟩
      · exact h w₃ (rely₁.keeps.trans (keeps₂.trans rely₃.keeps))
    · exact runs_ret fun w₂ rely₂ _ => h w₂ (rely₁.trans rely₂).keeps
  · exact runs_ret fun w₁ rely₁ _ => h w₁ rely₁.keeps

theorem runs_searchLeaf {p : LeafPage} {fromCache : Bool} (ok : p.Ok) (low : p.hdr.lowest ≤ k)
    (bound : k < kKeyMax) (points : (Page.leaf p).Points (Reach m w))
    (outside : ∀ w', Keeps m t w w' → p.hdr.highest ≤ k → fromCache = true → Q none w')
    (past : ∀ w', Keeps m t w w' → Invariant m cfg w' → p.hdr.highest ≤ k → fromCache = false →
      Reach m w' p.hdr.siblingPtr 0 p.hdr.highest →
      Q (some ⟨true, 0, p.hdr.siblingPtr, .null, kValueNull⟩) w')
    (inside : ∀ w', Keeps m t w w' → k < p.hdr.highest → Q (some ⟨true, 0, .null, .null, p.search k⟩) w') :
    Runs m cfg t (searchLeaf p a k fromCache) Q w := by
  have consistent : p.checkConsistent := by
    simp [LeafPage.checkConsistent, ok.consistent]
  unfold searchLeaf
  rw [if_neg (not_not.mpr consistent), ok.level]
  split
  · rename_i stale
    exact runs_ret fun w' rely _ => outside w' rely.keeps (stale.2.resolve_left (not_lt.mpr low)) stale.1
  · rename_i fits
    refine runs_assert rfl ?_
    split
    · rename_i high
      refine runs_ret fun w' rely inv => past w' rely.keeps inv high ?_ ?_
      · exact Bool.eq_false_iff.mpr fun cached => fits ⟨cached, .inr high⟩
      · have := sibling_reach points.sibling high bound
        rw [Page.hdr, ok.level] at this
        exact rely.extends.reach_mono this
    · rename_i high
      rw [if_neg (not_lt.mpr low)]
      exact runs_ret fun w' rely _ => inside w' rely.keeps (not_le.mp high)

theorem runs_searchInternal {p : InternalPage} (ok : p.Ok) (low : p.hdr.lowest ≤ k)
    (bound : k < kKeyMax) (points : (Page.internal p).Points (Reach m w))
    (past : ∀ w', Keeps m t w w' → Invariant m cfg w' → p.hdr.highest ≤ k →
      Reach m w' p.hdr.siblingPtr p.hdr.level p.hdr.highest →
      Q (some ⟨false, p.hdr.level, p.hdr.siblingPtr, .null, kValueNull⟩) w')
    (inside : ∀ w' c x, Keeps m t w w' → Reach m w' c (p.hdr.level - 1) x → x ≤ k →
      Q (some ⟨false, p.hdr.level, .null, c, kValueNull⟩) w') :
    Runs m cfg t (searchInternal p a k false) Q w := by
  have consistent : p.checkConsistent := by
    simp [InternalPage.checkConsistent, ok.consistent]
  unfold searchInternal
  refine runs_assert ok.level (runs_assert rfl ?_)
  rw [if_neg (not_not.mpr consistent)]
  refine runs_bind (runs_cacheLevelOne ok points fun w₁ keeps₁ => ?_)
  split
  · rename_i high
    refine runs_ret fun w' rely inv => past w' (keeps₁.trans rely.keeps) inv high ?_
    exact (keeps₁.trans rely.keeps).reach_mono (sibling_reach points.sibling high bound)
  · rename_i high
    rw [if_neg (not_lt.mpr low), InternalPage.search_ok low (not_le.mp high)]
    obtain ⟨x, le, child⟩ := ok.child_spec low
    refine runs_ret fun w' rely _ => inside w' _ x (keeps₁.trans rely.keeps) ?_ le
    exact (keeps₁.trans rely.keeps).reach_mono (points.2 _ _ child)

theorem runs_storePath {level : Nat} {next : Unit → Code (Option SearchResult)}
    (h : ∀ w', Extends m w w' → StatusLe t w w' → (∀ b, w.2.owed b = some t → w'.2.owed b = some t) →
      w'.1.path t = Function.update (w.1.path t) level a → Runs m cfg t (next ()) Q w') :
    Runs m cfg t (storePath level a >>= next) Q w := by
  unfold storePath
  split
  · refine runs_path (fun s => Function.update (s.path t) level a) (fun _ _ => rfl) (fun _ => ⟨id, trivial⟩) ?_
    intro w₁ w₂ rely₁ extend status owed path
    exact h w₂ extend status owed (rely₁.path ▸ path)
  · exact runs_bind (runs_stop fun _ _ _ => .inl rfl)

theorem runs_pageSearch {fromCache : Bool} (pre : Pre m cfg t (.pageSearch a k fromCache) w) :
    Runs m cfg t (pageSearch a k fromCache) (Post m t (.pageSearch a k fromCache) w) w := by
  obtain ⟨bound, l, x, reach, le, cached⟩ := pre
  refine runs_verb fun w₁ rely₁ inv₁ _ choice r s step => ?_
  simp only [perform] at step
  split at step
  swap
  · cases step
  rename_i drained
  cases step
  have reach₁ := rely₁.extends.reach_mono reach
  obtain ⟨page, mem, level, lowest⟩ := inv₁.tree.linked_mem reach₁.1
  obtain ⟨g, guarantee, noted⟩ := note inv₁ mem reach₁.1.2 reach₁.2 drained k
  have sound := inv₁.tree.mem_sound a page mem
  refine ⟨g, guarantee, ?_⟩
  rw [mem]
  refine runs_storePath fun w₂ extend₂ status₂ owed₂ path₂ => ?_
  have points := ((inv₁.points_reach mem reach₁.1.2).extend noted.extend).extend extend₂
  have low : page.hdr.lowest ≤ k := lowest ▸ le
  have path : ∀ w', Keeps m t w₂ w' → ∀ i, w'.1.path t i = if i = l then a else w.1.path t i := by
    intro w' keeps i
    rw [keeps.path, path₂, noted.path, rely₁.path, ← level, Function.update_apply]
  have status : ∀ w', Keeps m t w₂ w' → (∀ p, InLeaf k page p → ¬ Fresh t (.search k) w₁) →
      StatusLe t w w' := fun w' keeps miss =>
    ((rely₁.status.trans (noted.miss miss)).trans status₂).trans keeps.status
  have extend : ∀ w', Keeps m t w₂ w' → Extends m w w' := fun w' keeps =>
    ((rely₁.extends.trans noted.extend).trans extend₂).trans keeps.toExtends
  have owed : ∀ w', Keeps m t w₂ w' → ∀ b, w.2.owed b = some t → w'.2.owed b = some t :=
    fun w' keeps b hb => keeps.owed b (owed₂ b (noted.owed ▸ rely₁.owed b hb))
  have linked := reach.1
  cases page with
  | leaf p =>
      have ok : p.Ok := sound.ok
      have leaf : l = 0 := level.symm.trans ok.level
      subst leaf
      simp only [Page.hdr, ok.leftmost, decide_true]
      have outside : p.hdr.highest ≤ k → ∀ q, InLeaf k (.leaf p) q → ¬ Fresh t (.search k) w₁ := by
        rintro high q ⟨h, -, high'⟩
        cases h
        exact absurd high (not_le.mpr high')
      refine runs_searchLeaf ok low bound points (fun w' keeps high stale => ?_)
        (fun w' keeps inv high direct next => ?_) fun w' keeps high => ?_
      · exact ⟨extend w' keeps, owed w' keeps, stale, status w' keeps (outside high)⟩
      · refine ⟨extend w' keeps, owed w' keeps, 0, x, linked, ⟨rfl, by simp, ?_⟩, path w' keeps, fun stale => ?_⟩
        · rw [if_pos (inv.tree.ne_null next.1)]
          exact ⟨status w' keeps (outside high), rfl, _, next, high⟩
        · rw [direct] at stale
          cases stale
      · refine ⟨extend w' keeps, owed w' keeps, 0, x, linked, ⟨rfl, by simp, ?_⟩, path w' keeps, fun _ => rfl⟩
        rw [if_neg (by simp), if_pos rfl]
        refine ⟨fun fresh => ?_, fun other => status w' keeps fun q _ fresh => ?_⟩
        · have searched := noted.hit p ⟨rfl, low, high⟩ (rely₁.status.fresh fresh)
          exact keeps.status.searched (status₂.searched searched)
        · refine other k ?_
          rw [← rely₁.status.op, fresh]
          rfl
  | internal p =>
      have ok : p.Ok := sound.ok
      have inner : l ≠ 0 := by
        rw [← level]
        exact ok.level
      have direct : fromCache = false := Bool.eq_false_iff.mpr fun h => inner (cached h)
      subst direct
      have leftmost : p.hdr.leftmostPtr ≠ .null :=
        inv₁.tree.ne_null (sound.points.2 _ _ (.inl ⟨rfl, rfl⟩))
      have outside : ∀ q, InLeaf k (.internal p) q → ¬ Fresh t (.search k) w₁ := by
        rintro q ⟨h, -, -⟩
        cases h
      simp only [Page.hdr, leftmost, decide_false]
      refine runs_searchInternal ok low bound points (fun w' keeps inv high next => ?_)
        fun w' c y keeps next le => ?_
      · refine ⟨extend w' keeps, owed w' keeps, l, x, linked, ⟨level, by simp [inner], ?_⟩, path w' keeps, fun h => by cases h⟩
        rw [if_pos (inv.tree.ne_null next.1)]
        exact ⟨status w' keeps outside, rfl, _, level ▸ next, high⟩
      · refine ⟨extend w' keeps, owed w' keeps, l, x, linked, ⟨level, by simp [inner], ?_⟩, path w' keeps, fun h => by cases h⟩
        rw [if_neg (by simp), if_neg inner]
        exact ⟨status w' keeps outside, y, level ▸ next, le⟩

end Search

end Sherman
