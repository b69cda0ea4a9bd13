import Sherman.Tree.Protocol

namespace Sherman

open Shared

variable {m : Mode} {cfg : Config} {t : Client}

theorem not_writesLeaf {s : Shared} {w : Write} (h : ∀ a p, w.target = some a → s.mem a ≠ some (.leaf p)) :
    ¬ WritesLeaf s (.post [w]) := by
  rintro ⟨w', hw, a, p, target, mem⟩
  cases List.mem_singleton.mp hw
  exact h a p target mem

structure Frame (m : Mode) (cfg : Config) (t : Client) (w w' : World) : Prop where
  inv : Invariant m cfg w'
  rely : ∀ u, u ≠ t → Rely m cfg u w w'
  status : w'.2.status = w.2.status
  bindings : Bindings w'.1 w'.2 = Bindings w.1 w.2
  executed : m.visible → Executed w'.1 w'.2 = Executed w.1 w.2

theorem Frame.refl {w : World} (inv : Invariant m cfg w) : Frame m cfg t w w :=
  ⟨inv, fun u _ => .refl m cfg u w, rfl, rfl, fun _ => rfl⟩

theorem Frame.guarantee {w w' : World} (h : Frame m cfg t w w') {v : Verb} (silent : Silent t v w) :
    Guarantee m cfg t v w w' := by
  refine ⟨h.inv, h.rely, silent.2, .inl ⟨?_, h.bindings⟩, fun _ => h.bindings,
    fun writes => absurd writes silent.1,
    fun vis => .inl ⟨?_, h.executed vis⟩, fun c => by rw [h.status]⟩
  · funext c
    simp only [postedTrack, h.status]
  · funext c
    simp only [executedTrack, h.status]

theorem Guarantee.frame {w w' w'' : World} {v v' : Verb} (h : Guarantee m cfg t v w w')
    (h' : Frame m cfg t w' w'') (writes : WritesLeaf w.1 v ↔ WritesLeaf w.1 v')
    (sanctioned : Sanctioned t v' w) :
    Guarantee m cfg t v' w w'' := by
  have posted : postedTrack w''.2 = postedTrack w'.2 := by
    funext c
    simp only [postedTrack, h'.status]
  have executed : executedTrack w''.2 = executedTrack w'.2 := by
    funext c
    simp only [executedTrack, h'.status]
  refine ⟨h'.inv, fun u hu => (h.rely u hu).trans (h'.rely u hu), sanctioned, ?_, fun quiet => ?_, fun leaf => ?_,
    fun vis => ?_, fun c => ?_⟩
  · rw [posted, h'.bindings]
    exact h.posted
  · rw [h'.bindings]
    exact h.quiet fun leaf => quiet (writes.mp leaf)
  · rw [h'.bindings]
    exact h.writes (writes.mpr leaf)
  · rw [executed, h'.executed vis]
    exact h.executed vis
  · rw [h'.status]
    exact h.op c

theorem Frame.trans {w w' w'' : World} (h : Frame m cfg t w w') (h' : Frame m cfg t w' w'') :
    Frame m cfg t w w'' :=
  ⟨h'.inv, fun u hu => (h.rely u hu).trans (h'.rely u hu), h'.status.trans h.status,
    h'.bindings.trans h.bindings, fun vis => (h'.executed vis).trans (h.executed vis)⟩

/-! ## Pages and posted writes unchanged -/

section Local
variable {s s' : Shared} {g g' : Ghost}

structure SamePages (s s' : Shared) (g g' : Ghost) : Prop where
  mem : s'.mem = s.mem
  pending : s'.pending = s.pending
  info : g'.info = g.info
  owner : g'.owner = g.owner
  owed : g'.owed = g.owed
  status : g'.status = g.status

namespace SamePages

theorem view (h : SamePages s s' g g') : s'.view = s.view := view_congr h.mem h.pending

theorem linked (h : SamePages s s' g g') : g'.Linked = g.Linked := linked_congr h.info h.owner

theorem links (h : SamePages s s' g g') : Links g' = Links g := by
  funext z b
  simp only [Links, h.owner]

theorem hidden (h : SamePages s s' g g') : Hidden s' g' = Hidden s g := by
  funext b
  simp only [Hidden, h.pending, h.links]

theorem exposed (h : SamePages s s' g g') : Exposed s' g' = Exposed s g := by
  funext b l x
  simp only [Exposed, h.linked, h.hidden]

theorem bindings (h : SamePages s s' g g') : Bindings s' g' = Bindings s g := by
  funext k v
  simp only [Bindings, h.view, h.owner]

theorem executed (h : SamePages s s' g g') : Executed s' g' = Executed s g := by
  funext k v
  simp only [Executed, h.mem, h.owner, h.hidden]

theorem visible (h : SamePages s s' g g') (tree : TreeInv s' g') (inv : VisibleInv s g)
    (cache : ∀ n, ∀ e ∈ s'.cache n, ∀ p, e.ptr = some p → (Page.internal p).Points (Exposed s g)) :
    VisibleInv s' g' := by
  refine ⟨inv.exposure.step h.mem (fun b l x hl => by rw [h.linked]; exact hl) ?_ ?_ ?_ cache ?_ ?_,
    inv.disjoint.step h.mem ?_ tree, ?_, ?_⟩
  · intro z hz b hb
    exact ⟨h.pending ▸ hz, h.links ▸ hb⟩
  · exact fun a page _ ha => .inl (h.owner ▸ ha)
  · rw [h.view, h.owner]
    exact inv.exposure.view
  · rw [h.pending, h.owner]
    exact inv.exposure.target
  · exact fun b _ => by rw [h.owed]
  · intro a x hl hh
    exact ⟨h.linked ▸ hl, h.hidden ▸ hh⟩
  · rw [h.pending, h.owner, h.mem]
    intro z hz a p target owner mem
    obtain ⟨op, r, c⟩ := inv.commit.pending z hz a p target owner mem
    refine ⟨op, r, h.status ▸ c.status, c.low, c.high, ?_, c.shrinks⟩
    have : After s' a z.write = After s a z.write := by
      funext k v
      simp only [After, h.view, h.mem]
    rw [this]
    exact c.effect
  · rw [h.status, h.pending, h.owner, h.mem]
    exact inv.commit.status

theorem invariant (h : SamePages s s' g g') (inv : Invariant m cfg (s, g)) (tree : TreeInv s' g')
    (lock : LockInv cfg s' g') (cache : m.visible → ∀ n, ∀ e ∈ s'.cache n, ∀ p, e.ptr = some p →
      (Page.internal p).Points (Exposed s g)) (high : m.high → ∀ n, (s'.dir n).High) :
    Invariant m cfg (s', g') := by
  refine ⟨tree, lock, fun vis => h.visible tree (inv.visible vis) (cache vis), fun c hc z hz => ?_, high⟩
  exact inv.only c hc z (h.pending ▸ hz)

theorem rely (h : SamePages s s' g g') {u : Client} (path : s'.path u = s.path u)
    (holding : ∀ la, g.holding la = some u → g'.holding la = some u ∧ s'.lock la = s.lock la)
    (locks : ∀ la b, s'.lock la = some (u, b) → s.lock la = some (u, b))
    (enabled : ∀ n, (s.dir n).enableCache = true → (s'.dir n).enableCache = true)
    (rooted : ∀ n, (s.dir n).gRootPtr ≠ .null → (s'.dir n).gRootPtr ≠ .null) :
    Rely m cfg u (s, g) (s', g') := by
  refine ⟨fun a l x hl => ?_, fun _ a l x _ hh => ?_, path, fun a ha => ?_, fun a _ => ?_,
    fun a ha => ?_, holding, fun a l x _ _ => by rw [h.mem], locks, fun z hz _ => ?_, .inl ?_, enabled,
    rooted⟩
  · exact h.linked ▸ hl
  · exact h.hidden ▸ hh
  · exact ⟨h.owner ▸ ha, by rw [h.info]⟩
  · exact ⟨fun hq z hz => hq z (h.pending ▸ hz), by rw [h.view]⟩
  · exact h.owed ▸ ha
  · exact h.pending ▸ hz
  · rw [h.status]

theorem frame (h : SamePages s s' g g') (inv : Invariant m cfg (s, g)) (dir : s'.dir = s.dir) (tree : TreeInv s' g')
    (lock : LockInv cfg s' g') (cache : m.visible → ∀ n, ∀ e ∈ s'.cache n, ∀ p, e.ptr = some p →
      (Page.internal p).Points (Exposed s g))
    (rely : ∀ u, u ≠ t → Rely m cfg u (s, g) (s', g')) : Frame m cfg t (s, g) (s', g') :=
  ⟨h.invariant inv tree lock cache (fun high n => dir ▸ inv.high high n), rely, h.status, h.bindings, fun _ => h.executed⟩

end SamePages

theorem frame_path (inv : Invariant m cfg (s, g)) (path : Nat → GlobalAddress) :
    Frame m cfg t (s, g) ({ s with path := Function.update s.path t path }, g) := by
  have same : SamePages s { s with path := Function.update s.path t path } g g :=
    ⟨rfl, rfl, rfl, rfl, rfl, rfl⟩
  refine same.frame inv rfl (inv.tree.congr rfl same.view rfl rfl rfl rfl rfl rfl rfl rfl)
    (inv.lock.congr rfl rfl rfl rfl rfl) (fun vis => (inv.visible vis).exposure.cache) fun u hu => ?_
  exact same.rely (Function.update_of_ne hu _ _) (fun la hl => ⟨hl, rfl⟩) (fun la b hl => hl)
    (fun n hn => hn) fun n hn => hn

theorem SamePages.of_cache (cache : NodeID → IndexCache) :
    SamePages s { s with cache := cache } g g := ⟨rfl, rfl, rfl, rfl, rfl, rfl⟩

theorem frame_cache (inv : Invariant m cfg (s, g)) {cache : NodeID → IndexCache}
    (sound : ∀ n, ∀ e ∈ cache n, ∀ p, e.ptr = some p → EntrySound g e p ∧
      (m.visible → (Page.internal p).Points (Exposed s g))) :
    Frame m cfg t (s, g) ({ s with cache := cache }, g) := by
  refine (SamePages.of_cache cache).frame inv rfl
    (inv.tree.locate inv.tree.sent inv.tree.dir fun n e he p hp => (sound n e he p hp).1)
    (inv.lock.congr rfl rfl rfl rfl rfl) (fun vis n e he p hp => (sound n e he p hp).2 vis) fun u hu => ?_
  exact (SamePages.of_cache cache).rely rfl (fun la hl => ⟨hl, rfl⟩) (fun la b hl => hl) (fun n hn => hn)
        fun n hn => hn

theorem Invariant.cache_sound (inv : Invariant m cfg (s, g)) {n : NodeID} {e : CacheEntry}
    (he : e ∈ s.cache n) {p : InternalPage} (hp : e.ptr = some p) : EntrySound g e p ∧
      (m.visible → (Page.internal p).Points (Exposed s g)) :=
  ⟨inv.tree.cache n e he p hp, fun vis => (inv.visible vis).exposure.cache n e he p hp⟩

theorem frame_invalidate (inv : Invariant m cfg (s, g)) (n : NodeID) (e : CacheEntry) :
    Frame m cfg t (s, g)
      ({ s with cache := Function.update s.cache n ((s.cache n).invalidate e) }, g) := by
  refine frame_cache inv fun i x hx p hp => ?_
  by_cases same : i = n
  · subst same
    rw [Function.update_self] at hx
    exact inv.cache_sound (IndexCache.mem_invalidate hx hp) hp
  · rw [Function.update_of_ne same] at hx
    exact inv.cache_sound hx hp

theorem frame_addToCache (inv : Invariant m cfg (s, g)) (n : NodeID) {p : InternalPage}
    (level : p.hdr.level = 1) (ok : p.Ok) (points : (Page.internal p).Points g.Linked)
    (exposed : m.visible → (Page.internal p).Points (Exposed s g)) :
    Frame m cfg t (s, g)
      ({ s with cache := Function.update s.cache n ((s.cache n).addToCache p) }, g) := by
  refine frame_cache inv fun i x hx q hq => ?_
  by_cases same : i = n
  · subst same
    rw [Function.update_self] at hx
    rcases IndexCache.mem_addToCache hx with hx | rfl
    · exact inv.cache_sound hx hq
    · cases hq
      exact ⟨⟨rfl, rfl, level, ok, points⟩, exposed⟩
  · rw [Function.update_of_ne same] at hx
    exact inv.cache_sound hx hq

theorem frame_broadcast (inv : Invariant m cfg (s, g)) {a : GlobalAddress} {level : Nat}
    (high : 1 ≤ level) (linked : g.Linked a level kKeyMin) :
    Frame m cfg t (s, g) ({ s with sent := (a, level) :: s.sent }, g) := by
  have same : SamePages s { s with sent := (a, level) :: s.sent } g g :=
    ⟨rfl, rfl, rfl, rfl, rfl, rfl⟩
  refine same.frame inv rfl (inv.tree.locate (fun x hx => ?_) inv.tree.dir inv.tree.cache)
    (inv.lock.congr rfl rfl rfl rfl rfl) (fun vis => (inv.visible vis).exposure.cache) fun u hu =>
      same.rely rfl (fun la hl => ⟨hl, rfl⟩) (fun la b hl => hl) (fun n hn => hn)
        fun n hn => hn
  rcases List.mem_cons.mp hx with rfl | hx
  · exact ⟨high, linked⟩
  · exact inv.tree.sent x hx

theorem frame_lock (inv : Invariant m cfg (s, g)) {la : GlobalAddress}
    {owner : Option (Client × Bool)} {holder : Option Client}
    (idle : ∀ z ∈ s.pending, z.write ≠ .unlock la ∧
      ∀ a, z.write.target = some a → g.owner a = none → cfg.lockAddr a ≠ la)
    (holds : ∀ c, holder = some c → ∃ b, owner = some (c, b))
    (mine : ∀ u b, owner = some (u, b) → u = t) (free : ∀ u, g.holding la = some u → u = t) :
    Frame m cfg t (s, g)
      ({ s with lock := Function.update s.lock la owner }, g.setHolding la holder) := by
  have same : SamePages s { s with lock := Function.update s.lock la owner } g
      (g.setHolding la holder) := ⟨rfl, rfl, rfl, rfl, rfl, rfl⟩
  refine same.frame inv rfl (inv.tree.congr rfl same.view rfl rfl rfl rfl rfl rfl rfl rfl)
    (inv.lock.relock idle holds rfl rfl rfl) (fun vis => (inv.visible vis).exposure.cache) fun u hu =>
      same.rely rfl (fun lb hl => ?_) (fun lb b hl => ?_) (fun n hn => hn) fun n hn => hn
  · have other : lb ≠ la := by
      rintro rfl
      exact hu (free u hl)
    simp [other, hl]
  · by_cases h : lb = la
    · subst h
      simp only [Function.update_self] at hl
      exact absurd (mine u b hl) hu
    · simpa [h] using hl

end Local
end Sherman
