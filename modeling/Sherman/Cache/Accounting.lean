import Mathlib.Logic.Function.Basic
import Mathlib.Data.List.Count
import Sherman.Concurrency.Transition
import Sherman.Cache.Lookup

namespace Sherman.CachePages

open Concurrency

abbrev Address := Nat

structure CachedPage where
  page : InternalPage
  indexCacheFreq : Nat

structure Slot where
  fromKey : Key
  toKey : Key
  ptr : Option Address
  deriving DecidableEq

def Slot.key (x : Slot) : CacheEntry := ⟨x.fromKey, x.toKey, none⟩

def Slot.isFor (fromKey toKey : Key) (x : Slot) : Bool := x.fromKey = fromKey ∧ x.toKey = toKey

structure State where
  entries : List Slot
  heap : Address → Option CachedPage
  freePageCnt : Int
  skiplistNodeCnt : Int
  /-- The pages to free, with the clock readings of their invalidation. -/
  delayFreeList : List (Address × Nat)

def State.init (allPageCnt : Nat) : State := ⟨[], fun _ => none, allPageCnt, 0, []⟩

namespace State

def view (s : State) : IndexCache :=
  s.entries.map fun x => ⟨x.fromKey, x.toKey, x.ptr.bind fun a => (s.heap a).map CachedPage.page⟩

def slot (s : State) (fromKey toKey : Key) : Option Slot := s.entries.find? (Slot.isFor fromKey toKey)

def setPtr (fromKey toKey : Key) (ptr : Option Address) : List Slot → List Slot
  | [] => []
  | x :: rest =>
      if x.isFor fromKey toKey then { x with ptr := ptr } :: rest else x :: setPtr fromKey toKey ptr rest

def lookup (s : State) (k : Key) : Option (Slot × Address) :=
  (s.view.searchFromCache k).bind fun (e, _) =>
    (s.slot e.fromKey e.toKey).bind fun x => x.ptr.map fun a => (x, a)

def hit (s : State) (a : Address) : State :=
  let counted := (s.heap a).map fun c => { c with indexCacheFreq := c.indexCacheFreq + 1 }
  { s with heap := Function.update s.heap a counted }

def freq (s : State) (a : Address) : Nat := ((s.heap a).map CachedPage.indexCacheFreq).getD 0

/-- The part of `search_from_cache` for the leader: `asm_rdtsc() - p.second` is unsigned. -/
def freeDelayed (s : State) (now : Nat) : State :=
  match s.delayFreeList with
  | [] => s
  | (a, since) :: rest =>
      if 3000 * 10 < (now + (2 ^ 64 - since % 2 ^ 64)) % 2 ^ 64 then
        { s with
          heap := Function.update s.heap a none
          freePageCnt := s.freePageCnt + 1
          delayFreeList := rest }
      else s

def searchFromCache (s : State) (k : Key) (isLeader : Bool) (now : Nat) : State :=
  let s := if isLeader then s.freeDelayed now else s
  match s.lookup k with
  | none => s
  | some (_, a) => s.hit a

def invalidate (s : State) (fromKey toKey : Key) (now : Nat) : State :=
  match (s.slot fromKey toKey).bind Slot.ptr with
  | none => s
  | some a =>
      { s with
        entries := setPtr fromKey toKey none s.entries
        delayFreeList := s.delayFreeList ++ [(a, now)] }

def getARandomEntry (s : State) (random : List Nat) : Option (Slot × Nat × State) :=
  (random.findSome? fun r => s.lookup (r % IndexCache.sampleSpace)).map fun (x, a) =>
    (x, (s.hit a).freq a, s.hit a)

def evictOne (s : State) (random₁ random₂ : List Nat) (now : Nat) : Option State :=
  (s.getARandomEntry random₁).bind fun (e₁, freq₁, s) =>
    (s.getARandomEntry random₂).map fun (e₂, freq₂, s) =>
      if freq₁ < freq₂ then s.invalidate e₁.fromKey e₁.toKey now
      else s.invalidate e₂.fromKey e₂.toKey now

def takePage (s : State) (random₁ random₂ : List Nat) (now : Nat) : Option State :=
  let v := s.freePageCnt
  let s := { s with freePageCnt := v - 1 }
  if v ≤ 0 then s.evictOne random₁ random₂ now else some s

def insertSlot (x : Slot) (entries : List Slot) : List Slot :=
  entries.takeWhile (·.key.less x.key) ++ x :: entries.dropWhile (·.key.less x.key)

def addToCache (s : State) (p : InternalPage) (a : Address) (random₁ random₂ : List Nat) (now : Nat) :
    Option State :=
  if (s.heap a).isSome then none
  else
    let lowest := p.hdr.lowest
    let highest := p.hdr.highest - 1
    let new := { s with heap := Function.update s.heap a (some ⟨p, 0⟩) }
    if s.entries.any (Slot.isFor lowest highest) then
      -- conflicted
      match s.entries.find? fun x => ¬ x.key.less ⟨lowest, highest, none⟩ with
      | none => some s
      | some e =>
          if e.isFor lowest highest ∧ e.ptr = none then
            { new with entries := setPtr lowest highest (some a) s.entries }.takePage random₁ random₂ now
          else some s
    else
      { new with
        entries := insertSlot ⟨lowest, highest, some a⟩ s.entries
        skiplistNodeCnt := s.skiplistNodeCnt + 1 }.takePage random₁ random₂ now

end State

inductive Call where
  | addToCache (p : InternalPage) (a : Address) (random₁ random₂ : List Nat) (now : Nat)
  | searchFromCache (k : Key) (isLeader : Bool) (now : Nat)
  | invalidate (fromKey toKey : Key) (now : Nat)

def machine : Machine State Call where
  step s
    | .addToCache p a random₁ random₂ now => s.addToCache p a random₁ random₂ now
    | .searchFromCache k isLeader now => some (s.searchFromCache k isLeader now)
    | .invalidate fromKey toKey now => some (s.invalidate fromKey toKey now)

/-! ## Where the pages are -/

namespace State

def live (s : State) : List Address := s.entries.filterMap Slot.ptr

def references (s : State) : List Address := s.live ++ s.delayFreeList.map Prod.fst

structure Owned (s : State) : Prop where
  once : s.references.Nodup
  allocated : ∀ a, (s.heap a).isSome ↔ a ∈ s.references

structure Accounted (allPageCnt : Nat) (s : State) : Prop where
  owned : s.Owned
  counter : s.freePageCnt + s.live.length + s.delayFreeList.length = allPageCnt
  budget : s.live.length ≤ allPageCnt

variable {s : State} {fromKey toKey : Key}

theorem setPtr_cut {x : Slot} {entries : List Slot} (ptr : Option Address)
    (found : entries.find? (Slot.isFor fromKey toKey) = some x) :
    ∃ front back, entries = front ++ x :: back ∧
      setPtr fromKey toKey ptr entries = front ++ { x with ptr := ptr } :: back := by
  induction entries with
  | nil => cases found
  | cons y rest ih =>
      rw [List.find?_cons] at found
      cases same : y.isFor fromKey toKey with
      | true =>
          simp only [same, Option.some.injEq] at found
          subst found
          exact ⟨[], rest, rfl, by simp [setPtr, same]⟩
      | false =>
          simp only [same] at found
          obtain ⟨front, back, rfl, changed⟩ := ih found
          exact ⟨y :: front, back, rfl, by simp [setPtr, same, changed]⟩

theorem perm_clear {x : Slot} {a : Address} {entries : List Slot}
    (found : entries.find? (Slot.isFor fromKey toKey) = some x) (holds : x.ptr = some a) :
    (entries.filterMap Slot.ptr).Perm (a :: (setPtr fromKey toKey none entries).filterMap Slot.ptr) := by
  obtain ⟨front, back, rfl, changed⟩ := setPtr_cut none found
  rw [changed]
  simp [List.filterMap_append, holds, List.perm_middle]

theorem perm_refill {x : Slot} {a : Address} {entries : List Slot}
    (found : entries.find? (Slot.isFor fromKey toKey) = some x) (null : x.ptr = none) :
    ((setPtr fromKey toKey (some a) entries).filterMap Slot.ptr).Perm (a :: entries.filterMap Slot.ptr) := by
  obtain ⟨front, back, rfl, changed⟩ := setPtr_cut (some a) found
  rw [changed]
  simp [List.filterMap_append, null, List.perm_middle]

theorem perm_insert {x : Slot} {a : Address} (entries : List Slot) (holds : x.ptr = some a) :
    ((insertSlot x entries).filterMap Slot.ptr).Perm (a :: entries.filterMap Slot.ptr) := by
  have whole : (entries.takeWhile (·.key.less x.key)).filterMap Slot.ptr ++
      (entries.dropWhile (·.key.less x.key)).filterMap Slot.ptr = entries.filterMap Slot.ptr := by
    rw [← List.filterMap_append, List.takeWhile_append_dropWhile]
  rw [insertSlot, List.filterMap_append, List.filterMap_cons, holds, ← whole]
  exact List.perm_middle

/-! ## Moving pages -/

structure Moves (s t : State) : Prop where
  heap : ∀ a, (t.heap a).isSome = (s.heap a).isSome
  references : t.references.Perm s.references
  free : t.freePageCnt = s.freePageCnt
  live : t.live.length ≤ s.live.length

theorem Moves.refl (s : State) : Moves s s := ⟨fun _ => rfl, .rfl, rfl, le_rfl⟩

theorem Moves.trans {s t u : State} (h : Moves s t) (h' : Moves t u) : Moves s u where
  heap a := (h'.heap a).trans (h.heap a)
  references := h'.references.trans h.references
  free := h'.free.trans h.free
  live := h'.live.trans h.live

theorem Moves.owned {t : State} (h : Moves s t) (owned : s.Owned) : t.Owned where
  once := h.references.nodup_iff.mpr owned.once
  allocated a := by rw [h.heap, owned.allocated, h.references.mem_iff]

theorem Moves.total {t : State} (h : Moves s t) :
    t.live.length + t.delayFreeList.length = s.live.length + s.delayFreeList.length := by
  simpa only [State.references, List.length_append, List.length_map] using h.references.length_eq

theorem Moves.accounted {t : State} {allPageCnt : Nat} (h : Moves s t) (ok : s.Accounted allPageCnt) :
    t.Accounted allPageCnt := by
  have total := h.total
  have counter := ok.counter
  have free := h.free
  exact ⟨h.owned ok.owned, by omega, h.live.trans ok.budget⟩

theorem hit_moves (s : State) (a : Address) : Moves s (s.hit a) where
  heap b := by
    by_cases same : b = a
    · subst same
      simp [hit]
    · simp [hit, Function.update_of_ne same]
  references := .rfl
  free := rfl
  live := le_rfl

theorem invalidate_live {x : Slot} {a : Address} (found : s.slot fromKey toKey = some x)
    (holds : x.ptr = some a) (now : Nat) :
    Moves s (s.invalidate fromKey toKey now) ∧
      (s.invalidate fromKey toKey now).live.length + 1 = s.live.length := by
  have cleared := perm_clear found holds
  have length := cleared.length_eq
  simp only [invalidate, found, Option.bind_some, holds]
  refine ⟨⟨fun _ => rfl, ?_, rfl, ?_⟩, ?_⟩
  · rw [references, references, List.map_append]
    refine .trans ?_ ((cleared.append_right _).symm)
    rw [← List.append_assoc]
    exact List.perm_append_singleton a _
  all_goals
    simp only [List.length_cons] at length
    simp only [live]
    omega

theorem invalidate_moves (s : State) (fromKey toKey : Key) (now : Nat) :
    Moves s (s.invalidate fromKey toKey now) := by
  cases target : (s.slot fromKey toKey).bind Slot.ptr with
  | none =>
      simp only [invalidate, target]
      exact .refl s
  | some a =>
      obtain ⟨x, found, holds⟩ := Option.bind_eq_some_iff.mp target
      exact (invalidate_live found holds now).1

theorem lookup_spec {k : Key} {x : Slot} {a : Address} (h : s.lookup k = some (x, a)) :
    s.slot x.fromKey x.toKey = some x ∧ x.ptr = some a := by
  obtain ⟨⟨e, b⟩, -, h⟩ := Option.bind_eq_some_iff.mp h
  obtain ⟨y, found, h⟩ := Option.bind_eq_some_iff.mp h
  obtain ⟨c, holds, h⟩ := Option.map_eq_some_iff.mp h
  cases h
  have range := List.find?_some found
  simp only [Slot.isFor, decide_eq_true_eq] at range
  rw [range.1, range.2]
  exact ⟨found, holds⟩

theorem getARandomEntry_spec {random : List Nat} {x : Slot} {f : Nat} {t : State}
    (h : s.getARandomEntry random = some (x, f, t)) :
    Moves s t ∧ t.entries = s.entries ∧ ∃ a, s.slot x.fromKey x.toKey = some x ∧ x.ptr = some a := by
  obtain ⟨⟨y, a⟩, found, h⟩ := Option.map_eq_some_iff.mp h
  cases h
  obtain ⟨r, -, hit⟩ := List.exists_of_findSome?_eq_some found
  exact ⟨hit_moves s a, rfl, a, lookup_spec hit⟩

theorem evictOne_spec {random₁ random₂ : List Nat} {now : Nat} {t : State}
    (h : s.evictOne random₁ random₂ now = some t) : Moves s t ∧ t.live.length + 1 = s.live.length := by
  obtain ⟨⟨e₁, freq₁, s₁⟩, first, h⟩ := Option.bind_eq_some_iff.mp h
  obtain ⟨⟨e₂, freq₂, s₂⟩, second, h⟩ := Option.map_eq_some_iff.mp h
  obtain ⟨moves₁, same₁, a₁, found₁, holds₁⟩ := getARandomEntry_spec first
  obtain ⟨moves₂, same₂, a₂, found₂, holds₂⟩ := getARandomEntry_spec second
  have moves := moves₁.trans moves₂
  have same : s₂.entries = s.entries := same₂.trans same₁
  have live : s₂.live = s.live := by rw [State.live, same, State.live]
  subst h
  dsimp only
  split
  · rw [slot, ← same] at found₁
    obtain ⟨moved, fewer⟩ := invalidate_live found₁ holds₁ now
    exact ⟨moves.trans moved, live ▸ fewer⟩
  · rw [slot, ← same₂] at found₂
    obtain ⟨moved, fewer⟩ := invalidate_live found₂ holds₂ now
    exact ⟨moves.trans moved, live ▸ fewer⟩

/-! ## The calls -/

theorem takePage_spec {allPageCnt : Nat} {random₁ random₂ : List Nat} {now : Nat} {t : State}
    (owned : s.Owned) (counter : s.freePageCnt + s.live.length + s.delayFreeList.length = allPageCnt + 1)
    (budget : s.live.length ≤ allPageCnt + 1) (h : s.takePage random₁ random₂ now = some t) :
    t.Accounted allPageCnt := by
  simp only [takePage] at h
  split at h
  · obtain ⟨moves, fewer⟩ := evictOne_spec h
    have total : t.live.length + t.delayFreeList.length = s.live.length + s.delayFreeList.length := moves.total
    have free : t.freePageCnt = s.freePageCnt - 1 := moves.free
    have fewer : t.live.length + 1 = s.live.length := fewer
    exact ⟨moves.owned ⟨owned.once, owned.allocated⟩, by omega, by omega⟩
  · cases h
    have counter' : s.freePageCnt - 1 + s.live.length + s.delayFreeList.length = allPageCnt := by omega
    have budget' : s.live.length ≤ allPageCnt := by omega
    exact ⟨⟨owned.once, owned.allocated⟩, counter', budget'⟩

theorem freeDelayed_accounted {allPageCnt : Nat} (ok : s.Accounted allPageCnt) (now : Nat) :
    (s.freeDelayed now).Accounted allPageCnt := by
  unfold freeDelayed
  split
  · exact ok
  · rename_i a since rest delayed
    split
    · have once := ok.owned.once
      have counter := ok.counter
      have middle : s.references.Perm (a :: (s.live ++ rest.map Prod.fst)) := by
        rw [references, delayed, List.map_cons]
        exact List.perm_middle
      have distinct := List.nodup_cons.mp (middle.nodup_iff.mp once)
      rw [delayed, List.length_cons] at counter
      refine ⟨⟨distinct.2, fun b => ?_⟩, ?_, ok.budget⟩
      · by_cases same : b = a
        · subst same
          have unused : b ∉ s.live ++ rest.map Prod.fst := distinct.1
          simp only [Function.update_self, Option.isSome_none, Bool.false_eq_true, false_iff]
          exact unused
        · have allocated := (ok.owned.allocated b).trans middle.mem_iff
          rw [List.mem_cons] at allocated
          simp only [Function.update_of_ne same]
          rw [allocated]
          simp [same, references, State.live]
      · have counter' : s.freePageCnt + 1 + s.live.length + rest.length = allPageCnt := by omega
        exact counter'
    · exact ok

theorem Owned.add {t : State} {a : Address} {c : CachedPage} (owned : s.Owned) (fresh : ¬ (s.heap a).isSome)
    (heap : t.heap = Function.update s.heap a (some c)) (delayed : t.delayFreeList = s.delayFreeList)
    (live : t.live.Perm (a :: s.live)) : t.Owned := by
  have perm : t.references.Perm (a :: s.references) := by
    rw [references, delayed]
    exact live.append_right _
  have unused : a ∉ s.references := mt (owned.allocated a).mpr fresh
  refine ⟨perm.nodup_iff.mpr (List.nodup_cons.mpr ⟨unused, owned.once⟩), fun b => ?_⟩
  rw [perm.mem_iff, List.mem_cons, heap]
  by_cases same : b = a
  · subst same
    simp
  · rw [Function.update_of_ne same, owned.allocated]
    simp [same]

theorem slot_of_seek {x : Slot}
    (found : s.entries.find? (fun x => ¬ x.key.less ⟨fromKey, toKey, none⟩) = some x)
    (same : x.isFor fromKey toKey = true) : s.slot fromKey toKey = some x := by
  obtain ⟨-, front, back, cut, passed⟩ := List.find?_eq_some_iff_append.mp found
  refine List.find?_eq_some_iff_append.mpr ⟨same, front, back, cut, fun y hy => ?_⟩
  have less := passed y hy
  simp only [decide_not, Bool.not_not, decide_eq_true_eq, CacheEntry.less_iff, Slot.key] at less
  simp only [Slot.isFor, Bool.not_eq_true', decide_eq_false_iff_not]
  lia

theorem addToCache_accounted {allPageCnt : Nat} {p : InternalPage} {a : Address}
    {random₁ random₂ : List Nat} {now : Nat} {t : State} (ok : s.Accounted allPageCnt)
    (h : s.addToCache p a random₁ random₂ now = some t) : t.Accounted allPageCnt := by
  have counter := ok.counter
  have budget := ok.budget
  unfold addToCache at h
  split at h
  · cases h
  · rename_i fresh
    simp only at h
    -- one more live entry, one page not yet counted
    have paid : ∀ u : State, u.heap = Function.update s.heap a (some ⟨p, 0⟩) →
        u.delayFreeList = s.delayFreeList → u.freePageCnt = s.freePageCnt → u.live.Perm (a :: s.live) →
        u.takePage random₁ random₂ now = some t → t.Accounted allPageCnt := by
      intro u heap delayed free live taken
      have length := live.length_eq
      rw [List.length_cons] at length
      exact takePage_spec (ok.owned.add fresh heap delayed live) (by rw [delayed]; omega) (by omega) taken
    split at h
    · split at h
      · cases h
        exact ok
      · rename_i e found
        split at h
        · rename_i refill
          refine paid _ ?_ ?_ ?_ ?_ h
          · rfl
          · rfl
          · rfl
          · exact perm_refill (slot_of_seek found refill.1) refill.2
        · cases h
          exact ok
    · refine paid _ ?_ ?_ ?_ ?_ h
      · rfl
      · rfl
      · rfl
      · exact perm_insert s.entries rfl

end State

theorem step_accounted {allPageCnt : Nat} {s t : State} {c : Call} (ok : s.Accounted allPageCnt)
    (h : machine.step s c = some t) : t.Accounted allPageCnt := by
  cases c with
  | addToCache p a random₁ random₂ now => exact State.addToCache_accounted ok h
  | searchFromCache k isLeader now =>
      cases h
      have freed : (if isLeader then s.freeDelayed now else s).Accounted allPageCnt := by
        split
        · exact State.freeDelayed_accounted ok now
        · exact ok
      unfold State.searchFromCache
      simp only
      split
      · exact freed
      · exact (State.hit_moves _ _).accounted freed
  | invalidate fromKey toKey now =>
      cases h
      exact (State.invalidate_moves s fromKey toKey now).accounted ok

theorem init_accounted (allPageCnt : Nat) : (State.init allPageCnt).Accounted allPageCnt :=
  ⟨⟨List.nodup_nil, fun a => by simp [State.init, State.references, State.live]⟩,
    by simp [State.init, State.live], by simp [State.init, State.live]⟩

/-- After every sequence of calls that return: the counter and the pages in use add up, every allocated
page has one reference, and the live entries stay within the budget. -/
theorem pages_accounted (allPageCnt : Nat) (calls : List Call) (s : State)
    (run : machine.run (.init allPageCnt) calls = some s) :
    s.freePageCnt + s.live.length + s.delayFreeList.length = allPageCnt ∧
    (∀ a, (s.heap a).isSome → s.references.count a = 1) ∧
    (∀ a ∈ s.references, (s.heap a).isSome) ∧
    s.live.length ≤ allPageCnt := by
  have ok : s.Accounted allPageCnt :=
    Machine.run_always (fun _ _ _ => step_accounted) (init_accounted allPageCnt) run
  refine ⟨ok.counter, fun a allocated => ?_, fun a referenced => (ok.owned.allocated a).mpr referenced, ok.budget⟩
  exact List.count_eq_one_of_mem ok.owned.once ((ok.owned.allocated a).mp allocated)

/-- A cache of one page: the second page evicts the first, the leader frees it. -/
def evicting : List Call :=
  [.addToCache (IndexCache.fenced 0 30 100) 64 [] [] 0, .searchFromCache 10 false 1,
    .addToCache (IndexCache.fenced 200 250 300) 128 [7] [7] 10, .searchFromCache 220 true 50000]

theorem pages_accounted_evicting : ∃ s, machine.run (.init 1) evicting = some s ∧
    s.live = [128] ∧ s.freePageCnt + s.live.length + s.delayFreeList.length = 1 :=
  ⟨_, rfl, rfl, (pages_accounted 1 evicting _ rfl).1⟩

/-! ## The cache the pages belong to -/

open IndexCache (CacheStep)

namespace State
variable {s : State} {fromKey toKey : Key}

def Ordered (s : State) : Prop := s.entries.Pairwise fun x y => x.key.less y.key = true

theorem ordered_view : (s.view.Pairwise fun a b => a.less b = true) ↔ s.Ordered := List.pairwise_map

theorem view_congr {t : State} (entries : t.entries = s.entries)
    (pages : ∀ a ∈ s.live, (t.heap a).map CachedPage.page = (s.heap a).map CachedPage.page) : t.view = s.view := by
  rw [view, view, entries]
  refine List.map_congr_left fun x hx => ?_
  cases holds : x.ptr with
  | none => rfl
  | some a =>
      have live : a ∈ s.live := List.mem_filterMap.mpr ⟨x, hx, holds⟩
      simp [pages a live]

theorem hit_view (s : State) (a : Address) : (s.hit a).view = s.view := by
  refine view_congr rfl fun b _ => ?_
  by_cases same : b = a
  · subst same
    simp [hit, Function.comp_def]
  · simp [hit, same]

theorem freeDelayed_view (owned : s.Owned) (now : Nat) : (s.freeDelayed now).view = s.view := by
  unfold freeDelayed
  split
  · rfl
  · rename_i a since rest delayed
    split
    · refine view_congr rfl fun b live => ?_
      have other : b ≠ a := by
        rintro rfl
        have apart := (List.nodup_append.mp owned.once).2.2
        exact apart b live b (by simp [delayed]) rfl
      simp [other]
    · rfl

theorem apart_of_less {x y : Slot} (less : x.key.less y.key = true) (forX : x.isFor fromKey toKey = true) :
    ¬ y.isFor fromKey toKey = true := by
  simp only [Slot.isFor, decide_eq_true_eq] at forX ⊢
  simp only [CacheEntry.less_iff, Slot.key] at less
  lia

theorem Ordered.unique (ordered : s.Ordered) {x y : Slot} (hx : x ∈ s.entries) (hy : y ∈ s.entries)
    (forX : x.isFor fromKey toKey = true) (forY : y.isFor fromKey toKey = true) : x = y := by
  have apart : s.entries.Pairwise fun x y =>
      ¬ (x.isFor fromKey toKey = true ∧ y.isFor fromKey toKey = true) :=
    ordered.imp fun less ⟨forX, forY⟩ => apart_of_less less forX forY
  refine List.Pairwise.forall_of_forall_of_flip (R := fun x y =>
    x.isFor fromKey toKey = true ∧ y.isFor fromKey toKey = true → x = y) (fun _ _ _ => rfl)
    (apart.imp fun no both => absurd both no) (apart.imp fun no both => absurd both.symm no) hx hy ⟨forX, forY⟩

theorem Ordered.slot (ordered : s.Ordered) {x : Slot} (hx : x ∈ s.entries)
    (same : x.isFor fromKey toKey = true) : s.slot fromKey toKey = some x := by
  obtain ⟨y, found⟩ := Option.isSome_iff_exists.mp (List.find?_isSome.mpr ⟨x, hx, same⟩)
  rw [State.slot, found]
  exact congrArg some (ordered.unique (List.mem_of_find?_eq_some found) hx (List.find?_some found) same)

theorem setPtr_eq {entries : List Slot} (ordered : entries.Pairwise fun x y => x.key.less y.key = true)
    (ptr : Option Address) : setPtr fromKey toKey ptr entries =
      entries.map fun x => if x.isFor fromKey toKey then { x with ptr := ptr } else x := by
  induction entries with
  | nil => rfl
  | cons x rest ih =>
      obtain ⟨first, later⟩ := List.pairwise_cons.mp ordered
      rw [setPtr, List.map_cons]
      split
      · rename_i same
        have others : rest.map (fun y => if y.isFor fromKey toKey then { y with ptr := ptr } else y) = rest := by
          conv_rhs => rw [← List.map_id rest]
          exact List.map_congr_left fun y hy => if_neg (apart_of_less (first y hy) same)
        rw [others]
      · rw [ih later]

theorem sameRange_show {e : CacheEntry} {x : Slot} {page : Option InternalPage} :
    e.sameRange ⟨x.fromKey, x.toKey, page⟩ = x.isFor e.fromKey e.toKey := by
  simp only [CacheEntry.sameRange, Slot.isFor, eq_comm]

theorem invalidate_view (ordered : s.Ordered) (fromKey toKey : Key) (now : Nat) :
    (s.invalidate fromKey toKey now).view = s.view.invalidate ⟨fromKey, toKey, none⟩ := by
  simp only [IndexCache.invalidate, State.view, List.map_map]
  cases target : (s.slot fromKey toKey).bind Slot.ptr with
  | none =>
      simp only [invalidate, target]
      refine List.map_congr_left fun x hx => ?_
      simp only [Function.comp_apply, sameRange_show]
      split
      · rename_i same
        rw [ordered.slot hx same, Option.bind_some] at target
        simp [target]
      · rfl
  | some a =>
      simp only [invalidate, target, setPtr_eq ordered, List.map_map]
      refine List.map_congr_left fun x hx => ?_
      simp only [Function.comp_apply, sameRange_show]
      split
      · rfl
      · rfl

theorem getARandomEntry_view {random : List Nat} {x : Slot} {f : Nat} {t : State}
    (h : s.getARandomEntry random = some (x, f, t)) : t.view = s.view := by
  obtain ⟨⟨y, a⟩, -, h⟩ := Option.map_eq_some_iff.mp h
  cases h
  exact hit_view s a

theorem evictOne_view {random₁ random₂ : List Nat} {now : Nat} {t : State} (ordered : s.Ordered)
    (h : s.evictOne random₁ random₂ now = some t) : ∃ e, t.view = s.view.invalidate e := by
  obtain ⟨⟨e₁, freq₁, s₁⟩, first, h⟩ := Option.bind_eq_some_iff.mp h
  obtain ⟨⟨e₂, freq₂, s₂⟩, second, h⟩ := Option.map_eq_some_iff.mp h
  have view : s₂.view = s.view := (getARandomEntry_view second).trans (getARandomEntry_view first)
  have ordered₂ : s₂.Ordered := ordered_view.mp (view ▸ ordered_view.mpr ordered)
  subst h
  dsimp only
  split
  · exact ⟨_, view ▸ invalidate_view ordered₂ _ _ now⟩
  · exact ⟨_, view ▸ invalidate_view ordered₂ _ _ now⟩

theorem takePage_view {random₁ random₂ : List Nat} {now : Nat} {t : State} (ordered : s.Ordered)
    (h : s.takePage random₁ random₂ now = some t) : CacheStep s.view t.view := by
  simp only [takePage] at h
  split at h
  · have ordered' : State.Ordered { s with freePageCnt := s.freePageCnt - 1 } := ordered
    obtain ⟨e, view⟩ := evictOne_view ordered' h
    exact view ▸ .invalidated e
  · cases h
    exact .same

def shows (s : State) (x : Slot) : CacheEntry :=
  ⟨x.fromKey, x.toKey, x.ptr.bind fun a => (s.heap a).map CachedPage.page⟩

theorem shows_fresh (owned : s.Owned) {a : Address} (fresh : ¬ (s.heap a).isSome) {c : CachedPage} {t : State}
    (heap : t.heap = Function.update s.heap a (some c)) {x : Slot} (hx : x ∈ s.entries) : t.shows x = s.shows x := by
  cases holds : x.ptr with
  | none => simp [shows, holds]
  | some b =>
      have live : b ∈ s.live := List.mem_filterMap.mpr ⟨x, hx, holds⟩
      have other : b ≠ a := by
        rintro rfl
        exact fresh ((owned.allocated b).mpr (List.mem_append_left _ live))
      simp [shows, holds, heap, other]

theorem insert_view (owned : s.Owned) {p : InternalPage} {a : Address} (fresh : ¬ (s.heap a).isSome) {t : State}
    (new : s.entries.any (Slot.isFor p.hdr.lowest (p.hdr.highest - 1)) = false)
    (heap : t.heap = Function.update s.heap a (some ⟨p, 0⟩))
    (entries : t.entries = insertSlot ⟨p.hdr.lowest, p.hdr.highest - 1, some a⟩ s.entries) :
    t.view = s.view.addToCache p := by
  have same : s.view = s.entries.map t.shows :=
    List.map_congr_left fun x hx => (shows_fresh owned fresh heap hx).symm
  have unknown : s.view.any (CacheEntry.sameRange ⟨p.hdr.lowest, p.hdr.highest - 1, some p⟩) = false := by
    rw [State.view, List.any_map, ← new]
    exact congrArg (List.any s.entries) (funext fun x => sameRange_show)
  have shown : t.shows ⟨p.hdr.lowest, p.hdr.highest - 1, some a⟩ = ⟨p.hdr.lowest, p.hdr.highest - 1, some p⟩ := by
    simp [shows, heap]
  simp only [IndexCache.addToCache, IndexCache.addEntry, unknown, Bool.false_eq_true, if_false]
  rw [State.view, entries, insertSlot, List.map_append, List.map_cons, same, List.takeWhile_map, List.dropWhile_map]
  exact congrArg (fun e => _ ++ e :: _) shown

theorem refill_view (owned : s.Owned) (ordered : s.Ordered) {p : InternalPage} {a : Address} {e : Slot}
    (fresh : ¬ (s.heap a).isSome) {t : State} (he : e ∈ s.entries)
    (same : e.isFor p.hdr.lowest (p.hdr.highest - 1) = true) (null : e.ptr = none)
    (heap : t.heap = Function.update s.heap a (some ⟨p, 0⟩))
    (entries : t.entries = setPtr p.hdr.lowest (p.hdr.highest - 1) (some a) s.entries) :
    t.view = s.view.addToCache p := by
  have known : s.view.any (CacheEntry.sameRange ⟨p.hdr.lowest, p.hdr.highest - 1, some p⟩) = true := by
    rw [State.view, List.any_map, List.any_eq_true]
    exact ⟨e, he, sameRange_show.trans same⟩
  simp only [IndexCache.addToCache, IndexCache.addEntry, known, if_true]
  rw [State.view, entries, setPtr_eq ordered, State.view, List.map_map, List.map_map]
  refine List.map_congr_left fun x hx => ?_
  simp only [Function.comp_apply, sameRange_show]
  by_cases forX : x.isFor p.hdr.lowest (p.hdr.highest - 1) = true
  · obtain rfl := ordered.unique hx he forX same
    have interval : x.fromKey = p.hdr.lowest ∧ x.toKey = p.hdr.highest - 1 := by
      simpa [Slot.isFor] using forX
    simp [forX, null, heap, interval]
  · rw [if_neg forX, if_neg (fun both => forX both.1)]
    exact shows_fresh owned fresh heap hx

theorem addToCache_view {p : InternalPage} {a : Address} {random₁ random₂ : List Nat} {now : Nat} {t : State}
    (owned : s.Owned) (ordered : s.Ordered) (h : s.addToCache p a random₁ random₂ now = some t) :
    ∃ cache, CacheStep s.view cache ∧ CacheStep cache t.view := by
  have paid : ∀ u : State, u.view = s.view.addToCache p → u.takePage random₁ random₂ now = some t →
      ∃ cache, CacheStep s.view cache ∧ CacheStep cache t.view := by
    intro u view taken
    have added : CacheStep s.view u.view := view ▸ .added p
    exact ⟨u.view, added, takePage_view (ordered_view.mp (added.ordered (ordered_view.mpr ordered))) taken⟩
  unfold addToCache at h
  split at h
  · cases h
  · rename_i fresh
    simp only at h
    split at h
    · split at h
      · cases h
        exact ⟨_, .same, .same⟩
      · rename_i e found
        split at h
        · rename_i refill
          exact paid _ (refill_view owned ordered fresh (List.mem_of_find?_eq_some found) refill.1 refill.2 rfl rfl) h
        · cases h
          exact ⟨_, .same, .same⟩
    · rename_i new
      exact paid _ (insert_view owned fresh (Bool.eq_false_iff.mpr new) rfl rfl) h

end State

theorem step_view {allPageCnt : Nat} {s t : State} {c : Call} (ok : s.Accounted allPageCnt)
    (ordered : s.Ordered) (h : machine.step s c = some t) :
    ∃ cache, CacheStep s.view cache ∧ CacheStep cache t.view := by
  cases c with
  | addToCache p a random₁ random₂ now => exact State.addToCache_view ok.owned ordered h
  | searchFromCache k isLeader now =>
      cases h
      have freed : (if isLeader then s.freeDelayed now else s).view = s.view := by
        split
        · exact State.freeDelayed_view ok.owned now
        · rfl
      unfold State.searchFromCache
      simp only
      split
      · exact ⟨_, .same, freed ▸ .same⟩
      · rw [State.hit_view, freed]
        exact ⟨_, .same, .same⟩
  | invalidate fromKey toKey now =>
      cases h
      rw [State.invalidate_view ordered]
      exact ⟨_, .same, .invalidated _⟩

theorem run_view {allPageCnt : Nat} {calls : List Call} {s : State}
    (run : machine.run (.init allPageCnt) calls = some s) : Relation.ReflTransGen CacheStep [] s.view := by
  refine (Machine.run_always (I := fun s => s.Accounted allPageCnt ∧ Relation.ReflTransGen CacheStep [] s.view)
    (fun s c t ⟨ok, steps⟩ h => ⟨step_accounted ok h, ?_⟩) ⟨init_accounted allPageCnt, .refl⟩ run).2
  obtain ⟨cache, first, second⟩ := step_view ok (State.ordered_view.mp (IndexCache.ordered_steps steps)) h
  exact (steps.tail first).tail second

end Sherman.CachePages
