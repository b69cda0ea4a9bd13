import Mathlib.Data.Finset.Card
import Mathlib.Data.List.Nodup
import Sherman.Cache.Threads

namespace Sherman.CacheThreads

open Concurrency CachePages

inductive Stage where
  | quiet
  | fresh (a : Address)
  | uncounted
  | retiring (a : Address)
  | stamped (a : Address) (now : Nat)
  /-- The front of `delay_free_list` is freed, and perhaps counted, but not yet removed. -/
  | freed (counted : Bool)
  deriving DecidableEq

def Stage.adds : Stage → Option Address
  | .fresh a => some a
  | _ => none

def Stage.retires : Stage → Option Address
  | .retiring a | .stamped a _ => some a
  | _ => none

def Stage.isFreed : Stage → Bool
  | .freed _ => true
  | _ => false

inductive Owner where
  | entries
  | delayed
  | adding (t : Tid)
  | retiring (t : Tid)
  deriving DecidableEq

structure Ghost where
  stage : Tid → Stage
  owner : Address → Option Owner
  held : Tid → Option (Address × InternalPage)
  uncounted : Finset Tid
  retiring : Finset Tid
  added : InternalPage → Prop

abbrev World := Shared × Ghost

def waiting (c : CachePages.State) (stage : Tid → Stage) : List (Address × Nat) :=
  if (stage 0).isFreed then c.delayFreeList.tail else c.delayFreeList

def At (c : CachePages.State) (stage : Tid → Stage) : Owner → Address → Prop
  | .entries, a => a ∈ c.live
  | .delayed, a => a ∈ (waiting c stage).map Prod.fst
  | .adding t, a => (stage t).adds = some a
  | .retiring t, a => (stage t).retires = some a

structure Custody (c : CachePages.State) (stage : Tid → Stage) (owner : Address → Option Owner) : Prop where
  located : ∀ o a, At c stage o a ↔ owner a = some o
  allocated : ∀ a, (c.heap a).isSome = (owner a).isSome
  live : c.live.Nodup
  delayed : ((waiting c stage).map Prod.fst).Nodup

structure Counted (allPageCnt : Nat) (c : CachePages.State) (stage : Tid → Stage) (uncounted retiring : Finset Tid) :
    Prop where
  freed : ∀ t, (stage t).isFreed → t = 0 ∧ c.delayFreeList ≠ []
  countless : ∀ t, t ∈ uncounted ↔ stage t = .uncounted
  retires : ∀ t, t ∈ retiring ↔ (stage t).retires.isSome
  total : c.freePageCnt + c.live.length + c.delayFreeList.length + retiring.card =
    allPageCnt + uncounted.card + if stage 0 = .freed true then 1 else 0

/-- Thread `t` has loaded the pointer to a page that is not yet freed, and retired only after the load. -/
structure Holds (w : World) (t : Tid) (a : Address) (p : InternalPage) : Prop where
  page : (w.1.cache.heap a).map CachedPage.page = some p
  same : w.1.born a = w.1.loadedBorn t
  published : ∀ u, w.2.owner a ≠ some (.adding u)
  stamped : ∀ u now, w.2.stage u = .stamped a now → w.1.loadedAt t ≤ now
  awaiting : ∀ since, (a, since) ∈ waiting w.1.cache w.2.stage → w.1.loadedAt t ≤ since

/-- While the window after its last load lasts, a thread can use the page it loaded. -/
structure Timed (w : World) : Prop where
  loaded : ∀ t, w.1.loadedAt t ≤ w.1.clock
  stamps : ∀ t a now, w.2.stage t = .stamped a now → now ≤ w.1.clock
  since : ∀ x ∈ w.1.cache.delayFreeList, x.2 ≤ w.1.clock
  held : ∀ t a p, w.2.held t = some (a, p) → w.1.clock ≤ w.1.loadedAt t + delayCycles → Holds w t a p

structure Fits (g : Ghost) (e : EntryPtr) (p : InternalPage) : Prop where
  added : g.added p
  lowest : p.hdr.lowest = e.fromKey
  highest : p.hdr.highest - 1 = e.toKey

structure Inv (allPageCnt : Nat) (w : World) : Prop where
  custody : Custody w.1.cache w.2.stage w.2.owner
  counted : Counted allPageCnt w.1.cache w.2.stage w.2.uncounted w.2.retiring
  timed : Timed w
  content : ∀ x ∈ w.1.cache.entries, ∀ a, x.ptr = some a →
    ∃ c, w.1.cache.heap a = some c ∧ Fits w.2 ⟨x.fromKey, x.toKey⟩ c.page

/-- What the other threads leave to thread `t`. -/
structure Rely (t : Tid) (w w' : World) : Prop where
  stage : w'.2.stage t = w.2.stage t
  held : w'.2.held t = w.2.held t
  loadedAt : w'.1.loadedAt t = w.1.loadedAt t
  clock : w.1.clock ≤ w'.1.clock
  fresh : ∀ a, w.2.stage t = .fresh a → w'.1.cache.heap a = w.1.cache.heap a
  front : t = 0 → ∀ x, w.1.cache.delayFreeList.head? = some x → w'.1.cache.delayFreeList.head? = some x
  added : ∀ p, w.2.added p → w'.2.added p

structure Guarantee (allPageCnt : Nat) (t : Tid) (w w' : World) : Prop where
  inv : Inv allPageCnt w'
  others : ∀ u, u ≠ t → Rely u w w'
  added : w'.2.added = w.2.added

variable {allPageCnt : Nat} {t u : Tid} {w w' : World} {s : Shared} {g : Ghost} {a b : Address} {p : InternalPage}

theorem Rely.refl (t : Tid) (w : World) : Rely t w w :=
  ⟨rfl, rfl, rfl, le_rfl, fun _ _ => rfl, fun _ _ => id, fun _ => id⟩

theorem Rely.trans {v : World} (h : Rely t v w) (h' : Rely t w w') : Rely t v w' where
  stage := h'.stage.trans h.stage
  held := h'.held.trans h.held
  loadedAt := h'.loadedAt.trans h.loadedAt
  clock := h.clock.trans h'.clock
  fresh a fresh := (h'.fresh a (h.stage.trans fresh)).trans (h.fresh a fresh)
  front leader x head := h'.front leader x (h.front leader x head)
  added p added := h'.added p (h.added p added)

theorem Guarantee.refl (inv : Inv allPageCnt w) : Guarantee allPageCnt t w w := ⟨inv, fun u _ => .refl u w, rfl⟩

/-! ## Moving a page -/

theorem isFreed_update {stage : Tid → Stage} {x : Stage} (same : x.isFreed = (stage t).isFreed) :
    (Function.update stage t x u).isFreed = (stage u).isFreed := by
  by_cases here : u = t
  · subst here
    rw [Function.update_self, same]
  · rw [Function.update_of_ne here]

section
variable {c c' : CachePages.State} {stage stage' : Tid → Stage} {owner : Address → Option Owner} {x : Stage}

theorem Custody.unowned (h : Custody c stage owner) (free : c.heap a = none) : owner a = none := by
  have := h.allocated a
  rw [free] at this
  exact Option.not_isSome_iff_eq_none.mp (by simp [← this])

theorem Custody.at_owner (h : Custody c stage owner) {o : Owner} (at_ : At c stage o a) : owner a = some o :=
  (h.located o a).mp at_

theorem Custody.not_at (h : Custody c stage owner) {o o' : Owner} (owned : owner a = some o) (other : o ≠ o') :
    ¬ At c stage o' a := fun at_ => other (Option.some.inj (owned.symm.trans (h.at_owner at_)))

theorem Custody.not_live (h : Custody c stage owner) {o : Owner} (owned : owner a = some o) (other : o ≠ .entries) :
    a ∉ c.live := h.not_at owned other

def Apart (t : Tid) (o : Option Owner) : Prop := ∀ u, u ≠ t → o ≠ some (.adding u) ∧ o ≠ some (.retiring u)

@[simp] theorem apart_none : Apart t none := fun _ _ => ⟨by simp, by simp⟩

@[simp] theorem apart_entries : Apart t (some .entries) := fun _ _ => ⟨by simp, by simp⟩

@[simp] theorem apart_delayed : Apart t (some .delayed) := fun _ _ => ⟨by simp, by simp⟩

@[simp] theorem apart_adding : Apart t (some (.adding t)) := fun _ ne => ⟨by simp [ne.symm], by simp⟩

@[simp] theorem apart_retiring : Apart t (some (.retiring t)) := fun _ ne => ⟨by simp, by simp [ne.symm]⟩

theorem stays {p : Address → Prop} {q : Prop} (absent : ¬ p a) (never : ¬ q) (b : Address) :
    p b ↔ if b = a then q else p b := by
  by_cases here : b = a
  · subst here
    rw [if_pos rfl]
    exact iff_of_false absent never
  · rw [if_neg here]

theorem Custody.move (h : Custody c stage owner) (o' : Option Owner)
    (live : ∀ b, b ∈ c'.live ↔ if b = a then o' = some .entries else b ∈ c.live)
    (delayed : ∀ b, b ∈ (waiting c' (Function.update stage t x)).map Prod.fst ↔
      if b = a then o' = some .delayed else b ∈ (waiting c stage).map Prod.fst)
    (adds : ∀ b, x.adds = some b ↔ if b = a then o' = some (.adding t) else (stage t).adds = some b)
    (retires : ∀ b, x.retires = some b ↔ if b = a then o' = some (.retiring t) else (stage t).retires = some b)
    (before : Apart t (owner a)) (after : Apart t o')
    (heap : ∀ b, (c'.heap b).isSome = if b = a then o'.isSome else (c.heap b).isSome)
    (liveOnce : c'.live.Nodup) (delayedOnce : ((waiting c' (Function.update stage t x)).map Prod.fst).Nodup) :
    Custody c' (Function.update stage t x) (Function.update owner a o') := by
  refine ⟨fun o b => ?_, fun b => ?_, liveOnce, delayedOnce⟩
  · have own : ∀ u, u ≠ t → Function.update stage t x u = stage u := fun u ne => Function.update_of_ne ne _ _
    by_cases same : b = a
    · subst same
      rw [Function.update_self]
      cases o with
      | entries => simpa [At] using live b
      | delayed => simpa [At] using delayed b
      | adding u =>
          by_cases mine : u = t
          · subst mine
            simpa [At] using adds b
          · have old := (h.located (.adding u) b).not.mpr (before u mine).1
            simp only [At, own u mine] at old ⊢
            exact iff_of_false old (after u mine).1
      | retiring u =>
          by_cases mine : u = t
          · subst mine
            simpa [At] using retires b
          · have old := (h.located (.retiring u) b).not.mpr (before u mine).2
            simp only [At, own u mine] at old ⊢
            exact iff_of_false old (after u mine).2
    · rw [Function.update_of_ne same, ← h.located]
      cases o with
      | entries => simpa [At, same] using live b
      | delayed => simpa [At, same] using delayed b
      | adding u =>
          by_cases mine : u = t
          · subst mine
            simpa [At, same] using adds b
          · simp only [At, own u mine]
      | retiring u =>
          by_cases mine : u = t
          · subst mine
            simpa [At, same] using retires b
          · simp only [At, own u mine]
  · rw [heap b]
    by_cases same : b = a
    · subst same
      simp
    · simp [same, h.allocated]

theorem Custody.goOn (h : Custody c stage owner) (adds : x.adds = (stage t).adds) (retires : x.retires = (stage t).retires)
    (live : c'.live = c.live) (heap : c'.heap = c.heap)
    (delayed : waiting c' (Function.update stage t x) = waiting c stage) :
    Custody c' (Function.update stage t x) owner := by
  refine ⟨fun o b => ?_, fun b => heap ▸ h.allocated b, live ▸ h.live, delayed ▸ h.delayed⟩
  rw [← h.located]
  have part : ∀ f : Stage → Option Address, f x = f (stage t) → ∀ u, f (Function.update stage t x u) = f (stage u) := by
    intro f same u
    by_cases mine : u = t
    · subst mine
      rw [Function.update_self, same]
    · rw [Function.update_of_ne mine]
  cases o with
  | entries => simp only [At, live]
  | delayed => simp only [At, delayed]
  | adding u => simp only [At, part Stage.adds adds u]
  | retiring u => simp only [At, part Stage.retires retires u]

theorem waiting_update (same : x.isFreed = (stage t).isFreed) (list : c'.delayFreeList = c.delayFreeList) :
    waiting c' (Function.update stage t x) = waiting c stage := by
  rw [waiting, waiting, isFreed_update same, list]

/-! ## Counting threads -/

def mark (on : Bool) (t : Tid) (ts : Finset Tid) : Finset Tid := if on then insert t ts else ts.erase t

theorem mem_mark {on : Bool} {ts : Finset Tid} : u ∈ mark on t ts ↔ if u = t then on = true else u ∈ ts := by
  cases on <;> by_cases same : u = t <;> simp [mark, same]

theorem card_mark (on : Bool) (t : Tid) (ts : Finset Tid) :
    (mark on t ts).card + (if t ∈ ts then 1 else 0) = ts.card + if on then 1 else 0 := by
  cases on with
  | true =>
      by_cases member : t ∈ ts
      · simp [mark, member]
      · simp [mark, member]
  | false =>
      by_cases member : t ∈ ts
      · simpa [mark, member] using Finset.card_erase_add_one member
      · simp [mark, member]

def Stage.isUncounted : Stage → Bool
  | .uncounted => true
  | _ => false

theorem Counted.move {uncounted retiring : Finset Tid} (h : Counted allPageCnt c stage uncounted retiring)
    (freed : x.isFreed → t = 0 ∧ c'.delayFreeList ≠ [])
    (keeps : t ≠ 0 → c.delayFreeList ≠ [] → c'.delayFreeList ≠ [])
    (total : c'.freePageCnt + c'.live.length + c'.delayFreeList.length + (if x.retires.isSome then 1 else 0) -
        (if (stage t).retires.isSome then 1 else 0) - (if x.isUncounted then 1 else 0) +
        (if (stage t).isUncounted then 1 else 0) - (if x = .freed true then 1 else 0) =
      c.freePageCnt + c.live.length + c.delayFreeList.length - if stage t = .freed true then (1 : Int) else 0) :
    Counted allPageCnt c' (Function.update stage t x) (mark x.isUncounted t uncounted)
      (mark x.retires.isSome t retiring) := by
  have uncountedIff : ∀ y : Stage, y = .uncounted ↔ y.isUncounted = true := by
    intro y
    cases y <;> simp [Stage.isUncounted]
  refine ⟨fun u isFreed => ?_, fun u => ?_, fun u => ?_, ?_⟩
  · by_cases same : u = t
    · subst same
      rw [Function.update_self] at isFreed
      exact freed isFreed
    · rw [Function.update_of_ne same] at isFreed
      obtain ⟨rfl, list⟩ := h.freed u isFreed
      exact ⟨rfl, keeps (Ne.symm same) list⟩
  · rw [mem_mark]
    by_cases same : u = t
    · subst same
      simp [uncountedIff]
    · simp [same, h.countless]
  · rw [mem_mark]
    by_cases same : u = t
    · subst same
      simp
    · simp [same, h.retires]
  · have uncountedCard := card_mark x.isUncounted t uncounted
    have retiringCard := card_mark x.retires.isSome t retiring
    simp only [h.countless, uncountedIff] at uncountedCard
    simp only [h.retires] at retiringCard
    have before := h.total
    have freedNow : (if Function.update stage t x 0 = .freed true then (1 : Int) else 0) =
        (if stage 0 = .freed true then 1 else 0) - (if stage t = .freed true then 1 else 0) +
          if x = .freed true then 1 else 0 := by
      by_cases zero : 0 = t
      · subst zero
        simp
      · have notFreed : ∀ y : Stage, (y.isFreed → t = 0) → y ≠ .freed true := fun y no same => zero (no (same ▸ rfl)).symm
        have old := notFreed (stage t) fun isFreed => (h.freed t isFreed).1
        have new := notFreed x fun isFreed => (freed isFreed).1
        simp [Function.update_of_ne zero, old, new]
    rw [freedNow]
    generalize (if stage 0 = .freed true then (1 : Int) else 0) = f₀ at before ⊢
    generalize (if stage t = .freed true then (1 : Int) else 0) = f₁ at total ⊢
    generalize (if x = .freed true then (1 : Int) else 0) = f₂ at total ⊢
    split_ifs at uncountedCard retiringCard total <;> omega

end

end Sherman.CacheThreads
