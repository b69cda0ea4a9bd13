import Sherman.Cache.Custody

namespace Sherman.CacheThreads

open Concurrency CachePages

variable {allPageCnt : Nat} {t u : Tid} {s : Shared} {g : Ghost} {a b : Address} {p : InternalPage}

/-! ## Accesses that move nothing -/

theorem guarantee_lock (inv : Inv allPageCnt (s, g)) (lock : Option Tid) :
    Guarantee allPageCnt t (s, g) ({ s with freeLock := lock }, g) := by
  refine ⟨⟨inv.custody, inv.counted, ⟨inv.timed.loaded, inv.timed.stamps, inv.timed.since, fun u b q held window => ?_⟩,
    inv.content⟩, fun u _ => ⟨rfl, rfl, rfl, le_rfl, fun _ _ => rfl, fun _ _ => id, fun _ => id⟩, rfl⟩
  obtain ⟨page, same, published, stamped, awaiting⟩ := inv.timed.held u b q held window
  exact ⟨page, same, published, stamped, awaiting⟩

theorem guarantee_nodeCnt (inv : Inv allPageCnt (s, g)) (n : Int) :
    Guarantee allPageCnt t (s, g) ({ s with cache.skiplistNodeCnt := n }, g) := by
  refine ⟨⟨⟨inv.custody.located, inv.custody.allocated, inv.custody.live, inv.custody.delayed⟩,
    ⟨inv.counted.freed, inv.counted.countless, inv.counted.retires, inv.counted.total⟩,
    ⟨inv.timed.loaded, inv.timed.stamps, inv.timed.since, fun u b q held window => ?_⟩, inv.content⟩,
    fun u _ => ⟨rfl, rfl, rfl, le_rfl, fun _ _ => rfl, fun _ _ => id, fun _ => id⟩, rfl⟩
  obtain ⟨page, same, published, stamped, awaiting⟩ := inv.timed.held u b q held window
  exact ⟨page, same, published, stamped, awaiting⟩

theorem inv_tick (inv : Inv allPageCnt (s, g)) (cycles : Nat) :
    Inv allPageCnt ({ s with clock := s.clock + cycles }, g) := by
  have clock : s.clock ≤ s.clock + cycles := Nat.le_add_right ..
  refine ⟨inv.custody, inv.counted, ⟨fun u => (inv.timed.loaded u).trans clock,
    fun u c now stage => (inv.timed.stamps u c now stage).trans clock, fun x member => (inv.timed.since x member).trans clock,
    fun u b q held window => ?_⟩, inv.content⟩
  obtain ⟨page, same, published, stamped, awaiting⟩ := inv.timed.held u b q held (clock.trans window)
  exact ⟨page, same, published, stamped, awaiting⟩

theorem Inv.loaded {w : World} (inv : Inv allPageCnt w) {e : EntryPtr} (ptr : w.1.ptr e = some a) :
    ∃ c, w.1.cache.heap a = some c ∧ Fits w.2 e c.page := by
  obtain ⟨x, found, holds⟩ := Option.bind_eq_some_iff.mp ptr
  have range := List.find?_some found
  simp only [Slot.isFor, decide_eq_true_eq] at range
  obtain ⟨c, heap, fits⟩ := inv.content x (List.mem_of_find?_eq_some found) a holds
  exact ⟨c, heap, ⟨fits.added, fits.lowest.trans range.1, fits.highest.trans range.2⟩⟩

theorem Inv.ptr_owner {w : World} (inv : Inv allPageCnt w) {e : EntryPtr} (ptr : w.1.ptr e = some a) :
    w.2.owner a = some .entries := by
  obtain ⟨x, found, holds⟩ := Option.bind_eq_some_iff.mp ptr
  exact (inv.custody.located .entries a).mp (List.mem_filterMap.mpr ⟨x, List.mem_of_find?_eq_some found, holds⟩)

theorem guarantee_loadPtr (inv : Inv allPageCnt (s, g)) (e : EntryPtr) (held : Option (Address × InternalPage))
    (page : ∀ b q, held = some (b, q) → s.ptr e = some b ∧ (s.cache.heap b).map CachedPage.page = some q) :
    Guarantee allPageCnt t (s, g) ({ s with
        loadedAt := Function.update s.loadedAt t s.clock
        loadedBorn := Function.update s.loadedBorn t ((s.ptr e).elim 0 s.born) },
      { g with held := Function.update g.held t held }) := by
  refine ⟨⟨inv.custody, inv.counted, ⟨fun u => ?_, inv.timed.stamps, inv.timed.since, fun u b q isHeld window => ?_⟩,
    fun x member c ptr => ?_⟩, fun u ne => ⟨rfl, Function.update_of_ne ne _ _, Function.update_of_ne ne _ _, le_rfl,
      fun _ _ => rfl, fun _ _ => id, fun _ => id⟩, rfl⟩
  · by_cases same : u = t
    · subst same
      simp
    · simpa [same] using inv.timed.loaded u
  · by_cases same : u = t
    · subst same
      simp only [Function.update_self] at isHeld
      obtain ⟨ptr, content⟩ := page b q isHeld
      have owner := inv.ptr_owner (w := (s, g)) ptr
      refine ⟨content, by simp [ptr], fun v adding => ?_, fun v now stage => ?_, fun since member => ?_⟩
      · cases owner.symm.trans adding
      · have stage : g.stage v = .stamped b now := stage
        have retiring := (inv.custody.located (.retiring v) b).mp (by simp [At, stage, Stage.retires])
        rw [owner] at retiring
        cases retiring
      · have delayed := (inv.custody.located .delayed b).mp (List.mem_map_of_mem (f := Prod.fst) member)
        rw [owner] at delayed
        cases delayed
    · simp only [Function.update_of_ne same] at isHeld window
      have h := inv.timed.held u b q isHeld window
      exact ⟨h.page, by simpa [same] using h.same, h.published, fun v now stage => by simpa [same] using h.stamped v now stage,
        fun since member => by simpa [same] using h.awaiting since member⟩
  · obtain ⟨d, heap, fits⟩ := inv.content x member c ptr
    exact ⟨d, heap, fits.added, fits.lowest, fits.highest⟩

theorem guarantee_writeFreq (inv : Inv allPageCnt (s, g)) {c : CachedPage} (heap : s.cache.heap a = some c)
    (published : ∀ u, g.owner a ≠ some (.adding u)) (freq : Nat) :
    Guarantee allPageCnt t (s, g) (s.setHeap a (some { c with indexCacheFreq := freq }), g) := by
  have allocated : ∀ b, ((s.setHeap a (some { c with indexCacheFreq := freq })).cache.heap b).isSome = (s.cache.heap b).isSome := by
    intro b
    by_cases same : b = a
    · subst same
      simp [Shared.setHeap, heap]
    · simp [Shared.setHeap, same]
  have pages : ∀ b, ((s.setHeap a (some { c with indexCacheFreq := freq })).cache.heap b).map CachedPage.page =
      (s.cache.heap b).map CachedPage.page := by
    intro b
    by_cases same : b = a
    · subst same
      simp [Shared.setHeap, heap]
    · simp [Shared.setHeap, same]
  refine ⟨⟨⟨inv.custody.located, fun b => (allocated b).trans (inv.custody.allocated b), inv.custody.live, inv.custody.delayed⟩,
    ⟨inv.counted.freed, inv.counted.countless, inv.counted.retires, inv.counted.total⟩,
    ⟨inv.timed.loaded, inv.timed.stamps, inv.timed.since, fun u b q held window => ?_⟩, fun x member b ptr => ?_⟩,
    fun u _ => ⟨rfl, rfl, rfl, le_rfl, fun b fresh => ?_, fun _ _ => id, fun _ => id⟩, rfl⟩
  · have h := inv.timed.held u b q held window
    exact ⟨(pages b).trans h.page, h.same, h.published, h.stamped, h.awaiting⟩
  · obtain ⟨d, found, fits⟩ := inv.content x member b ptr
    by_cases same : b = a
    · subst same
      rw [show (s, g).1.cache.heap b = some c from heap] at found
      cases found
      exact ⟨{ c with indexCacheFreq := freq }, Function.update_self .., fits⟩
    · exact ⟨d, (Function.update_of_ne same _ _).trans found, fits⟩
  · have other : b ≠ a := by
      rintro rfl
      have adds : At s.cache g.stage (.adding u) b := by simp [At, show g.stage u = .fresh b from fresh, Stage.adds]
      exact published u (inv.custody.at_owner adds)
    exact Function.update_of_ne other _ _

/-! ## Accesses that move a page -/

def Ghost.move (g : Ghost) (t : Tid) (x : Stage) (owner : Address → Option Owner) : Ghost :=
  { g with
    stage := Function.update g.stage t x
    owner := owner
    uncounted := mark x.isUncounted t g.uncounted
    retiring := mark x.retires.isSome t g.retiring }

@[simp] theorem Ghost.move_stage (g : Ghost) (t : Tid) (x : Stage) (owner : Address → Option Owner) :
    (g.move t x owner).stage t = x := Function.update_self ..

section
variable {c : CachePages.State} {x : Stage} {owner : Address → Option Owner}

theorem guarantee_move (inv : Inv allPageCnt (s, g))
    (custody : Custody c (Function.update g.stage t x) owner)
    (counted : Counted allPageCnt c (Function.update g.stage t x) (mark x.isUncounted t g.uncounted)
      (mark x.retires.isSome t g.retiring))
    (stamp : ∀ b now, x = .stamped b now → now = s.clock)
    (since : ∀ y ∈ c.delayFreeList, y ∈ s.cache.delayFreeList ∨ y.2 ≤ s.clock)
    (waits : ∀ b since, (b, since) ∈ waiting c (Function.update g.stage t x) →
      (b, since) ∈ waiting s.cache g.stage ∨ g.stage t = .stamped b since)
    (kept : ∀ u b q, g.held u = some (b, q) → s.clock ≤ s.loadedAt u + delayCycles → Holds (s, g) u b q →
      (c.heap b).map CachedPage.page = (s.cache.heap b).map CachedPage.page ∧ ∀ v, owner b ≠ some (.adding v))
    (content : ∀ y ∈ c.entries, ∀ b, y.ptr = some b → ∃ d, c.heap b = some d ∧ Fits g ⟨y.fromKey, y.toKey⟩ d.page)
    (heap : ∀ u b, u ≠ t → g.owner b = some (.adding u) → c.heap b = s.cache.heap b)
    (front : t ≠ 0 → ∀ y, s.cache.delayFreeList.head? = some y → c.delayFreeList.head? = some y) :
    Guarantee allPageCnt t (s, g) ({ s with cache := c }, g.move t x owner) := by
  refine ⟨⟨custody, counted, ⟨inv.timed.loaded, fun u b now stage => ?_, fun y member => ?_, fun u b q held window => ?_⟩, ?_⟩,
    fun u ne => ⟨Function.update_of_ne ne _ _, rfl, rfl, le_rfl, fun b fresh => ?_, fun leader => front fun mine =>
      ne (leader.trans mine.symm), fun _ => id⟩, rfl⟩
  · by_cases same : u = t
    · subst same
      simp only [Ghost.move, Function.update_self] at stage
      exact (stamp b now stage).le
    · simp only [Ghost.move, Function.update_of_ne same] at stage
      exact inv.timed.stamps u b now stage
  · exact (since y member).elim (inv.timed.since y) id
  · have h := inv.timed.held u b q held window
    obtain ⟨page, published⟩ := kept u b q held window h
    refine ⟨page.trans h.page, h.same, published, fun v now stage => ?_, fun since member => ?_⟩
    · by_cases same : v = t
      · subst same
        simp only [Ghost.move, Function.update_self] at stage
        rw [stamp b now stage]
        exact inv.timed.loaded u
      · simp only [Ghost.move, Function.update_of_ne same] at stage
        exact h.stamped v now stage
    · exact (waits b since member).elim (h.awaiting since) (h.stamped t since)
  · intro y member b ptr
    obtain ⟨d, found, fits⟩ := content y member b ptr
    exact ⟨d, found, fits.added, fits.lowest, fits.highest⟩
  · have adds : At s.cache g.stage (.adding u) b := by simp [At, show g.stage u = .fresh b from fresh, Stage.adds]
    exact heap u b ne (inv.custody.at_owner adds)

theorem heap_other {o : Option Owner} (owner : g.owner a = o) (apart : Apart t o)
    (heap : ∀ b, b ≠ a → c.heap b = s.cache.heap b) (u : Tid) (b : Address) (ne : u ≠ t)
    (adding : g.owner b = some (.adding u)) : c.heap b = s.cache.heap b := by
  refine heap b ?_
  rintro rfl
  exact (apart u ne).1 (owner.symm.trans adding)

theorem Guarantee.reborn {w : World} (h : Guarantee allPageCnt t w (s, g)) (adding : g.owner a = some (.adding t)) (n : Nat) :
    Guarantee allPageCnt t w ({ s with born := Function.update s.born a n }, g) := by
  refine ⟨⟨h.inv.custody, h.inv.counted, ⟨h.inv.timed.loaded, h.inv.timed.stamps, h.inv.timed.since,
    fun u b q held window => ?_⟩, h.inv.content⟩, fun u ne => ?_, h.added⟩
  · obtain ⟨page, same, published, stamped, awaiting⟩ := h.inv.timed.held u b q held window
    have other : b ≠ a := by
      rintro rfl
      exact published t adding
    exact ⟨page, (Function.update_of_ne other _ _).trans same, published, stamped, awaiting⟩
  · obtain ⟨stage, held, loadedAt, clock, fresh, front, added⟩ := h.others u ne
    exact ⟨stage, held, loadedAt, clock, fresh, front, added⟩

theorem guarantee_malloc (inv : Inv allPageCnt (s, g)) (quiet : g.stage t = .quiet) (free : s.cache.heap a = none)
    (d : CachedPage) : Guarantee allPageCnt t (s, g)
      ({ s.setHeap a (some d) with born := Function.update s.born a (s.born a + 1) },
      g.move t (.fresh a) (Function.update g.owner a (some (.adding t)))) := by
  have unowned : g.owner a = none := inv.custody.unowned free
  have notAt : ∀ o, ¬ At s.cache g.stage o a := fun o at_ => by
    rw [inv.custody.at_owner at_] at unowned
    cases unowned
  have same : (Stage.fresh a).isFreed = (g.stage t).isFreed := by rw [quiet]; rfl
  have delayed : waiting (s.setHeap a (some d)).cache _ = waiting s.cache g.stage := waiting_update same rfl
  have heap : ∀ b, b ≠ a → (s.setHeap a (some d)).cache.heap b = s.cache.heap b := fun b ne => Function.update_of_ne ne _ _
  have adding : (g.move t (.fresh a) (Function.update g.owner a (some (.adding t)))).owner a = some (.adding t) :=
    Function.update_self ..
  refine Guarantee.reborn (s := s.setHeap a (some d)) ?_ adding _
  refine guarantee_move (c := (s.setHeap a (some d)).cache) inv ?_
    (inv.counted.move (by simp [Stage.isFreed]) (fun _ => id) ?_) (by simp) (fun y => .inl) (fun b since member => ?_)
    (fun u b q held window h => ?_) (fun y member b ptr => ?_) (heap_other unowned (by simp) heap) fun _ _ => id
  · refine inv.custody.move _ (fun b => ?_) (fun b => ?_) (fun b => ?_) (fun b => ?_) ?_ (by simp)
      (fun b => ?_) inv.custody.live ?_
    · exact stays (p := fun b => b ∈ s.cache.live) (notAt .entries) (by simp) b
    · rw [delayed]
      exact stays (p := At s.cache g.stage .delayed) (notAt .delayed) (by simp) b
    · by_cases here : b = a
      · simp [Stage.adds, here]
      · simp [Stage.adds, quiet, here, Ne.symm here]
    · by_cases here : b = a
      · simp [Stage.retires, here]
      · simp [Stage.retires, quiet, here]
    · simp [unowned]
    · by_cases here : b = a
      · simp [Shared.setHeap, here]
      · simp [Shared.setHeap, here]
    · rw [delayed]
      exact inv.custody.delayed
  · simp [quiet, Stage.retires, Stage.isUncounted, Shared.setHeap, State.live]
  · rw [delayed] at member
    exact .inl member
  · have other : b ≠ a := by
      rintro rfl
      have page := h.page
      rw [show (s, g).1.cache.heap b = none from free] at page
      cases page
    exact ⟨congrArg _ (heap b other), fun v => by rw [Function.update_of_ne other]; exact h.published v⟩
  · obtain ⟨e, found, fits⟩ := inv.content y member b ptr
    have other : b ≠ a := by
      rintro rfl
      rw [free] at found
      cases found
    exact ⟨e, (heap b other).trans found, fits⟩

theorem guarantee_publish (inv : Inv allPageCnt (s, g)) (fresh : g.stage t = .fresh a)
    (live : c.live.Perm (a :: s.cache.live)) (heap : c.heap = s.cache.heap) (list : c.delayFreeList = s.cache.delayFreeList)
    (count : c.freePageCnt = s.cache.freePageCnt)
    (content : ∀ y ∈ c.entries, ∀ b, y.ptr = some b → ∃ d, c.heap b = some d ∧ Fits g ⟨y.fromKey, y.toKey⟩ d.page) :
    Guarantee allPageCnt t (s, g) ({ s with cache := c }, g.move t .uncounted (Function.update g.owner a (some .entries))) := by
  have owner : g.owner a = some (.adding t) := inv.custody.at_owner (by simp [At, fresh, Stage.adds])
  have notLive : a ∉ s.cache.live := inv.custody.not_live owner (by simp)
  have notDelayed : ¬ At s.cache g.stage .delayed a := inv.custody.not_at owner (by simp)
  have delayed : waiting c (Function.update g.stage t .uncounted) = waiting s.cache g.stage :=
    waiting_update (by rw [fresh]; rfl) list
  refine guarantee_move inv ?_ (inv.counted.move (by simp [Stage.isFreed]) (fun _ h => list ▸ h) ?_) (by simp) (fun y h => .inl (list ▸ h))
    (fun b since member => ?_) (fun u b q held window h => ?_) content (fun u b _ _ => by rw [heap])
    fun _ y h => list ▸ h
  · refine inv.custody.move _ (fun b => ?_) (fun b => ?_) (fun b => ?_) (fun b => ?_) ?_ (by simp)
      (fun b => ?_) (live.nodup_iff.mpr (List.nodup_cons.mpr ⟨notLive, inv.custody.live⟩)) ?_
    · rw [live.mem_iff, List.mem_cons]
      by_cases here : b = a <;> simp [here]
    · rw [delayed]
      exact stays (p := At s.cache g.stage .delayed) notDelayed (by simp) b
    · by_cases here : b = a
      · simp [Stage.adds, here]
      · simp [Stage.adds, fresh, here, Ne.symm here]
    · by_cases here : b = a
      · simp [Stage.retires, here]
      · simp [Stage.retires, fresh, here]
    · simp [owner]
    · rw [heap, inv.custody.allocated]
      by_cases here : b = a
      · simp [here, owner]
      · simp [here]
    · rw [delayed]
      exact inv.custody.delayed
  · have length := live.length_eq
    rw [List.length_cons] at length
    simp only [fresh, Stage.retires, Stage.isUncounted, list, count, length]
    simp
    omega
  · rw [delayed] at member
    exact .inl member
  · refine ⟨by rw [heap], fun v => ?_⟩
    by_cases here : b = a
    · subst here
      exact absurd owner (h.published t)
    · rw [Function.update_of_ne here]
      exact h.published v

theorem guarantee_take (inv : Inv allPageCnt (s, g)) (quiet : g.stage t = .quiet)
    (live : s.cache.live.Perm (a :: c.live)) (heap : c.heap = s.cache.heap) (list : c.delayFreeList = s.cache.delayFreeList)
    (count : c.freePageCnt = s.cache.freePageCnt)
    (content : ∀ y ∈ c.entries, ∀ b, y.ptr = some b → ∃ d, c.heap b = some d ∧ Fits g ⟨y.fromKey, y.toKey⟩ d.page) :
    Guarantee allPageCnt t (s, g) ({ s with cache := c },
      g.move t (.retiring a) (Function.update g.owner a (some (.retiring t)))) := by
  have owner : g.owner a = some .entries := inv.custody.at_owner (o := .entries) (live.mem_iff.mpr List.mem_cons_self)
  have once := List.nodup_cons.mp (live.nodup_iff.mp inv.custody.live)
  have notDelayed : ¬ At s.cache g.stage .delayed a := inv.custody.not_at owner (by simp)
  have delayed : waiting c (Function.update g.stage t (.retiring a)) = waiting s.cache g.stage :=
    waiting_update (by rw [quiet]; rfl) list
  refine guarantee_move inv ?_ (inv.counted.move (by simp [Stage.isFreed]) (fun _ h => list ▸ h) ?_) (by simp) (fun y h => .inl (list ▸ h))
    (fun b since member => ?_) (fun u b q held window h => ?_) content (fun u b _ _ => by rw [heap])
    fun _ y h => list ▸ h
  · refine inv.custody.move _ (fun b => ?_) (fun b => ?_) (fun b => ?_) (fun b => ?_) ?_ (by simp)
      (fun b => ?_) once.2 ?_
    · rw [live.mem_iff, List.mem_cons]
      by_cases here : b = a
      · simp [here, once.1]
      · simp [here]
    · rw [delayed]
      exact stays (p := At s.cache g.stage .delayed) notDelayed (by simp) b
    · by_cases here : b = a
      · simp [Stage.adds, here]
      · simp [Stage.adds, quiet, here]
    · by_cases here : b = a
      · simp [Stage.retires, here]
      · simp [Stage.retires, quiet, here, Ne.symm here]
    · simp [owner]
    · rw [heap, inv.custody.allocated]
      by_cases here : b = a
      · simp [here, owner]
      · simp [here]
    · rw [delayed]
      exact inv.custody.delayed
  · have length := live.length_eq
    rw [List.length_cons] at length
    simp only [quiet, Stage.retires, Stage.isUncounted, list, count, length]
    simp
    omega
  · rw [delayed] at member
    exact .inl member
  · refine ⟨by rw [heap], fun v => ?_⟩
    by_cases here : b = a
    · subst here
      simp
    · rw [Function.update_of_ne here]
      exact h.published v

theorem guarantee_stamp (inv : Inv allPageCnt (s, g)) (retiring : g.stage t = .retiring a) :
    Guarantee allPageCnt t (s, g) (s, g.move t (.stamped a s.clock) g.owner) := by
  have delayed : waiting s.cache (Function.update g.stage t (.stamped a s.clock)) = waiting s.cache g.stage :=
    waiting_update (by rw [retiring]; rfl) rfl
  refine guarantee_move (c := s.cache) inv (inv.custody.goOn (by rw [retiring]; rfl) (by rw [retiring]; rfl) rfl rfl delayed)
    (inv.counted.move (by simp [Stage.isFreed]) (fun _ h => h) ?_) (fun b now h => by cases h; rfl) (fun y h => .inl h)
    (fun b since member => .inl (delayed ▸ member)) (fun u b q held window h => ⟨rfl, h.published⟩) inv.content (fun _ _ _ _ => rfl)
    fun _ y h => h
  simp [retiring, Stage.retires, Stage.isUncounted]

theorem guarantee_push (inv : Inv allPageCnt (s, g)) {now : Nat} (stamped : g.stage t = .stamped a now) :
    Guarantee allPageCnt t (s, g) ({ s with cache.delayFreeList := s.cache.delayFreeList ++ [(a, now)] },
      g.move t .quiet (Function.update g.owner a (some .delayed))) := by
  have owner : g.owner a = some (.retiring t) := inv.custody.at_owner (by simp [At, stamped, Stage.retires])
  have notLive : a ∉ s.cache.live := inv.custody.not_live owner (by simp)
  have notDelayed : ¬ At s.cache g.stage .delayed a := inv.custody.not_at owner (by simp)
  have delayed : waiting { s.cache with delayFreeList := s.cache.delayFreeList ++ [(a, now)] }
      (Function.update g.stage t .quiet) = waiting s.cache g.stage ++ [(a, now)] := by
    rw [waiting, waiting, isFreed_update (by rw [stamped]; rfl)]
    split
    · rename_i isFreed
      exact List.tail_append_of_ne_nil (inv.counted.freed 0 isFreed).2
    · rfl
  refine guarantee_move inv ?_ (inv.counted.move (by simp [Stage.isFreed]) (fun _ h => by simp) ?_) (by simp) (fun y h => ?_)
    (fun b since member => ?_) (fun u b q held window h => ⟨rfl, fun v => ?_⟩) inv.content (fun _ _ _ _ => rfl)
    fun _ y h => ?_
  · refine inv.custody.move _ (fun b => ?_) (fun b => ?_) (fun b => ?_) (fun b => ?_) ?_ (by simp)
      (fun b => ?_) inv.custody.live ?_
    · exact stays (p := fun b => b ∈ s.cache.live) notLive (by simp) b
    · rw [delayed, List.map_append, List.mem_append]
      by_cases here : b = a
      · simp [here]
      · simp [here]
    · by_cases here : b = a
      · simp [Stage.adds, here]
      · simp [Stage.adds, stamped, here]
    · by_cases here : b = a
      · simp [Stage.retires, here]
      · simp [Stage.retires, stamped, here, Ne.symm here]
    · simp [owner]
    · rw [inv.custody.allocated]
      by_cases here : b = a
      · simp [here, owner]
      · simp [here]
    · rw [delayed, List.map_append]
      exact List.Nodup.append inv.custody.delayed (List.nodup_singleton _) (by simpa [At] using notDelayed)
  · simp only [stamped, Stage.retires, Stage.isUncounted, List.length_append, State.live]
    simp
    omega
  · rcases List.mem_append.mp h with old | new
    · exact .inl old
    · rw [List.mem_singleton.mp new]
      exact .inr (inv.timed.stamps t a now stamped)
  · rw [delayed] at member
    rcases List.mem_append.mp member with old | new
    · exact .inl old
    · cases List.mem_singleton.mp new
      exact .inr stamped
  · by_cases here : b = a
    · subst here
      simp
    · rw [Function.update_of_ne here]
      exact h.published v
  · simp only [List.head?_append, h, Option.some_or]

theorem guarantee_freeFront (inv : Inv allPageCnt (s, g)) (quiet : g.stage 0 = .quiet) {since : Nat}
    (front : s.cache.delayFreeList.head? = some (a, since)) (late : since + delayCycles < s.clock) :
    Guarantee allPageCnt 0 (s, g) (s.setHeap a none, g.move 0 (.freed false) (Function.update g.owner a none)) := by
  obtain ⟨rest, list⟩ := List.head?_eq_some_iff.mp front
  have whole : waiting s.cache g.stage = (a, since) :: rest := by
    rw [waiting, quiet, ← list]
    rfl
  have delayed : waiting (s.setHeap a none).cache (Function.update g.stage 0 (.freed false)) = rest := by
    rw [waiting, Function.update_self]
    simp [Stage.isFreed, Shared.setHeap, list]
  have once := inv.custody.delayed
  rw [whole, List.map_cons, List.nodup_cons] at once
  have owner : g.owner a = some .delayed := inv.custody.at_owner (o := .delayed) (by simp [At, whole])
  have notLive : a ∉ s.cache.live := inv.custody.not_live owner (by simp)
  have heap : ∀ b, b ≠ a → (s.setHeap a none).cache.heap b = s.cache.heap b := fun b ne => Function.update_of_ne ne _ _
  refine guarantee_move (c := (s.setHeap a none).cache) inv ?_
    (inv.counted.move (fun _ => ⟨rfl, by simp [Shared.setHeap, list]⟩) (fun _ => id) ?_) (by simp)
    (fun y => .inl) (fun b since' member => ?_) (fun u b q held window h => ?_) (fun y member b ptr => ?_)
    (heap_other owner (by simp) heap) fun other => absurd rfl other
  · refine inv.custody.move _ (fun b => ?_) (fun b => ?_) (fun b => ?_) (fun b => ?_) ?_ (by simp)
      (fun b => ?_) inv.custody.live ?_
    · exact stays (p := fun b => b ∈ s.cache.live) notLive (by simp) b
    · rw [delayed, whole, List.map_cons, List.mem_cons]
      by_cases here : b = a
      · simp [here, once.1]
      · simp [here]
    · by_cases here : b = a
      · simp [Stage.adds, here]
      · simp [Stage.adds, quiet, here]
    · by_cases here : b = a
      · simp [Stage.retires, here]
      · simp [Stage.retires, quiet, here]
    · simp [owner]
    · by_cases here : b = a
      · simp [Shared.setHeap, here]
      · simp [Shared.setHeap, here, inv.custody.allocated]
    · rw [delayed]
      exact once.2
  · simp [quiet, Stage.retires, Stage.isUncounted, Shared.setHeap, State.live]
  · rw [delayed] at member
    rw [whole]
    exact .inl (List.mem_cons_of_mem _ member)
  · have other : b ≠ a := by
      rintro rfl
      have loaded := h.awaiting since (by rw [whole]; exact List.mem_cons_self)
      have loaded : s.loadedAt u ≤ since := loaded
      omega
    exact ⟨congrArg _ (heap b other), fun v => by rw [Function.update_of_ne other]; exact h.published v⟩
  · obtain ⟨e, found, fits⟩ := inv.content y member b ptr
    have other : b ≠ a := by
      rintro rfl
      exact notLive (List.mem_filterMap.mpr ⟨y, member, ptr⟩)
    exact ⟨e, (heap b other).trans found, fits⟩

theorem guarantee_discard (inv : Inv allPageCnt (s, g)) (fresh : g.stage t = .fresh a) :
    Guarantee allPageCnt t (s, g) (s.setHeap a none, g.move t .quiet (Function.update g.owner a none)) := by
  have owner : g.owner a = some (.adding t) := inv.custody.at_owner (by simp [At, fresh, Stage.adds])
  have notLive : a ∉ s.cache.live := inv.custody.not_live owner (by simp)
  have notDelayed : ¬ At s.cache g.stage .delayed a := inv.custody.not_at owner (by simp)
  have delayed : waiting (s.setHeap a none).cache (Function.update g.stage t .quiet) = waiting s.cache g.stage :=
    waiting_update (by rw [fresh]; rfl) rfl
  have heap : ∀ b, b ≠ a → (s.setHeap a none).cache.heap b = s.cache.heap b := fun b ne => Function.update_of_ne ne _ _
  refine guarantee_move (c := (s.setHeap a none).cache) inv ?_
    (inv.counted.move (by simp [Stage.isFreed]) (fun _ => id) ?_) (by simp) (fun y => .inl)
    (fun b since member => ?_) (fun u b q held window h => ?_) (fun y member b ptr => ?_)
    (heap_other owner (by simp) heap) fun _ _ => id
  · refine inv.custody.move _ (fun b => ?_) (fun b => ?_) (fun b => ?_) (fun b => ?_) ?_ (by simp)
      (fun b => ?_) inv.custody.live ?_
    · exact stays (p := fun b => b ∈ s.cache.live) notLive (by simp) b
    · rw [delayed]
      exact stays (p := At s.cache g.stage .delayed) notDelayed (by simp) b
    · by_cases here : b = a
      · simp [Stage.adds, here]
      · simp [Stage.adds, fresh, here, Ne.symm here]
    · by_cases here : b = a
      · simp [Stage.retires, here]
      · simp [Stage.retires, fresh, here]
    · simp [owner]
    · by_cases here : b = a
      · simp [Shared.setHeap, here]
      · simp [Shared.setHeap, here, inv.custody.allocated]
    · rw [delayed]
      exact inv.custody.delayed
  · simp [fresh, Stage.retires, Stage.isUncounted, Shared.setHeap, State.live]
  · rw [delayed] at member
    exact .inl member
  · have other : b ≠ a := by
      rintro rfl
      exact h.published t owner
    exact ⟨congrArg _ (heap b other), fun v => by rw [Function.update_of_ne other]; exact h.published v⟩
  · obtain ⟨e, found, fits⟩ := inv.content y member b ptr
    have other : b ≠ a := by
      rintro rfl
      exact notLive (List.mem_filterMap.mpr ⟨y, member, ptr⟩)
    exact ⟨e, (heap b other).trans found, fits⟩

theorem guarantee_count (inv : Inv allPageCnt (s, g)) (adds : x.adds = (g.stage t).adds) (retires : (g.stage t).retires = none)
    (retires' : x.retires = none) (entries : c.entries = s.cache.entries) (heap : c.heap = s.cache.heap)
    (freed : x.isFreed → t = 0 ∧ c.delayFreeList ≠ []) (keeps : t ≠ 0 → c.delayFreeList = s.cache.delayFreeList)
    (same : waiting c (Function.update g.stage t x) = waiting s.cache g.stage)
    (sub : ∀ y ∈ c.delayFreeList, y ∈ s.cache.delayFreeList)
    (total : c.freePageCnt + c.delayFreeList.length - (if x.isUncounted then 1 else 0) +
        (if (g.stage t).isUncounted then 1 else 0) - (if x = .freed true then 1 else 0) =
      s.cache.freePageCnt + s.cache.delayFreeList.length - if g.stage t = .freed true then (1 : Int) else 0) :
    Guarantee allPageCnt t (s, g) ({ s with cache := c }, g.move t x g.owner) := by
  have live : c.live = s.cache.live := by rw [State.live, entries, State.live]
  refine guarantee_move inv (inv.custody.goOn adds (retires'.trans retires.symm) live heap same)
    (inv.counted.move freed (fun other h => keeps other ▸ h) ?_) (fun b now h => ?_) (fun y h => .inl (sub y h))
    (fun b since member => .inl (same ▸ member)) (fun u b q held window h => ⟨by rw [heap], h.published⟩) ?_
    (fun _ _ _ _ => by rw [heap]) fun other y h => keeps other ▸ h
  · rw [retires, retires', live]
    simp only [Option.isSome_none, Bool.false_eq_true, if_false]
    omega
  · rw [h] at retires'
    cases retires'
  · rw [entries, heap]
    exact inv.content

theorem guarantee_countPage (inv : Inv allPageCnt (s, g)) (uncounted : g.stage t = .uncounted) :
    Guarantee allPageCnt t (s, g) ({ s with cache.freePageCnt := s.cache.freePageCnt + -1 }, g.move t .quiet g.owner) := by
  refine guarantee_count inv (by rw [uncounted]; rfl) (by rw [uncounted]; rfl) rfl rfl rfl (by simp [Stage.isFreed]) (fun _ => rfl)
    (waiting_update (by rw [uncounted]; rfl) rfl) (fun _ h => h) ?_
  simp [uncounted, Stage.isUncounted]
  omega

theorem guarantee_countFreed (inv : Inv allPageCnt (s, g)) (freed : g.stage t = .freed false) :
    Guarantee allPageCnt t (s, g) ({ s with cache.freePageCnt := s.cache.freePageCnt + 1 }, g.move t (.freed true) g.owner) := by
  refine guarantee_count inv (by rw [freed]; rfl) (by rw [freed]; rfl) rfl rfl rfl
    (fun _ => inv.counted.freed t (by simp [freed, Stage.isFreed])) (fun _ => rfl)
    (waiting_update (by rw [freed]; rfl) rfl) (fun _ h => h) ?_
  simp [freed, Stage.isUncounted]
  omega

theorem guarantee_pop (inv : Inv allPageCnt (s, g)) (freed : g.stage t = .freed true) :
    Guarantee allPageCnt t (s, g) ({ s with cache.delayFreeList := s.cache.delayFreeList.tail }, g.move t .quiet g.owner) := by
  obtain ⟨rfl, nonempty⟩ := inv.counted.freed t (by simp [freed, Stage.isFreed])
  refine guarantee_count inv (by rw [freed]; rfl) (by rw [freed]; rfl) rfl rfl rfl (by simp [Stage.isFreed]) (fun other => absurd rfl other) ?_
    (fun y h => List.mem_of_mem_tail h) ?_
  · rw [waiting, waiting, Function.update_self, freed]
    rfl
  · have pos : 0 < s.cache.delayFreeList.length := List.length_pos_iff.mpr nonempty
    simp [freed, Stage.isUncounted]
    omega

end

end Sherman.CacheThreads
