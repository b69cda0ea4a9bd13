import Sherman.Cache.Steps
import Sherman.Concurrency.RelyGuarantee

namespace Sherman.CacheThreads

open Concurrency CachePages

def Verb.dereferences : Verb → Bool
  | .load _ _ | .readFreq _ | .writeFreq _ _ => true
  | _ => false

def Served (k : Key) (a : GlobalAddress) (w : World) : Prop :=
  ∃ p, w.2.added p ∧ p.hdr.lowest ≤ k ∧ k ≤ p.hdr.highest - 1 ∧ a = p.child k

def protocol (allPageCnt : Nat) : Protocol signature Tid Op Result Shared Ghost Nat where
  inv := Inv allPageCnt
  rely := Rely
  rely_refl := Rely.refl
  rely_trans _ _ _ _ := Rely.trans
  tolerates _ := False
  mayVerb t v s := v.dereferences → s.clock ≤ s.loadedAt t + delayCycles
  mayCall _ _ _ := True
  mayInvoke _ _ _ := True
  mayRespond _ _ := True
  guar t _ := Guarantee allPageCnt t
  onInvoke _ op w w' := w'.2.added = fun p => w.2.added p ∨ op = .addToCache p
  onRespond _ _ _ w w' := w'.2.added = w.2.added
  onInterfere _ w w' := w'.2.added = w.2.added
  pre t _ w := w.2.stage t = .quiet
  post t _ _ _ w := w.2.stage t = .quiet
  idle t w := w.2.stage t = .quiet
  active _ op w := ∀ p, op = .addToCache p → w.2.added p
  started t _ w := w.2.stage t = .quiet
  finished t op r w := w.2.stage t = .quiet ∧
    ∀ k e a, op = .searchFromCache k → r = .found (some (e, a)) → Served k a w

abbrev Runs (allPageCnt : Nat) (t : Tid) {α : Type} (prog : Code α) (Q : α → World → Prop) (w : World) : Prop :=
  (protocol allPageCnt).wp system t prog Q w

variable {allPageCnt : Nat} {t : Tid} {α β : Type} {Q : β → World → Prop} {w : World}

structure Keeps (t : Tid) (w w' : World) : Prop where
  stage : w'.2.stage t = w.2.stage t
  clock : w.1.clock ≤ w'.1.clock
  fresh : ∀ a, w.2.stage t = .fresh a → w'.1.cache.heap a = w.1.cache.heap a
  front : t = 0 → ∀ x, w.1.cache.delayFreeList.head? = some x → w'.1.cache.delayFreeList.head? = some x
  added : ∀ p, w.2.added p → w'.2.added p

theorem Rely.keeps {w' : World} (h : Rely t w w') : Keeps t w w' := ⟨h.stage, h.clock, h.fresh, h.front, h.added⟩

theorem Keeps.trans {v w' : World} (h : Keeps t v w) (h' : Keeps t w w') : Keeps t v w' where
  stage := h'.stage.trans h.stage
  clock := h.clock.trans h'.clock
  fresh a fresh := (h'.fresh a (h.stage.trans fresh)).trans (h.fresh a fresh)
  front leader x head := h'.front leader x (h.front leader x head)
  added p added := h'.added p (h.added p added)

theorem Served.keeps {w' : World} {k : Key} {a : GlobalAddress} (h : Served k a w) (keeps : Keeps t w w') :
    Served k a w' := by
  obtain ⟨p, added, rest⟩ := h
  exact ⟨p, keeps.added p added, rest⟩

/-! ## Rules -/

theorem runs_bind {prog : Code α} {next : α → Code β}
    (h : Runs allPageCnt t prog (fun a w' => Runs allPageCnt t (next a) Q w') w) :
    Runs allPageCnt t (prog >>= next) Q w := Protocol.wp_bind h

theorem runs_ret {value : β} (h : ∀ w', Rely t w w' → Inv allPageCnt w' → Q value w') :
    Runs allPageCnt t (pure value) Q w := h

theorem runs_verb {v : Verb} {next : Resp v → Code β}
    (h : ∀ w', Rely t w w' → Inv allPageCnt w' → (v.dereferences → w'.1.clock ≤ w'.1.loadedAt t + delayCycles) →
      ∀ choice r s, perform t v choice w'.1 = some (r, s) →
        ∃ g, Guarantee allPageCnt t w' (s, g) ∧ Runs allPageCnt t (next r) Q (s, g)) :
    Runs allPageCnt t (verb v >>= next) Q w := fun w' rely inv may choice r s step => h w' rely inv may choice r s step

theorem runs_call {p : Proc} {next : Ret p → Code β} (quiet : w.2.stage t = .quiet)
    (h : ∀ r w', w'.2.stage t = .quiet → Runs allPageCnt t (next r) Q w') :
    Runs allPageCnt t (call p >>= next) Q w :=
  fun _ rely _ _ => ⟨rely.stage.trans quiet, fun r w' post => h r w' post⟩

theorem runs_tail {p : Proc} {Q : Ret p → World → Prop} (quiet : w.2.stage t = .quiet)
    (h : ∀ r w', w'.2.stage t = .quiet → Q r w') : Runs allPageCnt t (call p) Q w :=
  fun _ rely _ _ => ⟨rely.stage.trans quiet, fun r _ post w' rely' _ => h r w' (rely'.stage.trans post)⟩

theorem runs_read {v : Verb} {next : Resp v → Code β} (f : Shared → Resp v → Prop)
    (read : ∀ choice s r s', perform t v choice s = some (r, s') → f s r ∧ s' = s)
    (h : ∀ w', Rely t w w' → Inv allPageCnt w' → ∀ r, f w'.1 r → Runs allPageCnt t (next r) Q w') :
    Runs allPageCnt t (verb v >>= next) Q w := by
  refine runs_verb fun w' rely inv _ choice r s step => ?_
  obtain ⟨result, rfl⟩ := read choice w'.1 r s step
  exact ⟨w'.2, .refl inv, h w' rely inv r result⟩

theorem runs_findEntry {fromKey toKey : Key} {next : Option EntryPtr → Code β}
    (h : ∀ w', Rely t w w' → Inv allPageCnt w' → ∀ r, Runs allPageCnt t (next r) Q w') :
    Runs allPageCnt t (verb (.findEntry fromKey toKey) >>= next) Q w :=
  runs_read (fun _ _ => True) (fun choice s r s' step => by cases step; exact ⟨trivial, rfl⟩) fun w' rely inv r _ => h w' rely inv r

theorem runs_rdtsc {next : Nat → Code β}
    (h : ∀ w', Rely t w w' → Inv allPageCnt w' → Runs allPageCnt t (next w'.1.clock) Q w') :
    Runs allPageCnt t (verb .rdtsc >>= next) Q w :=
  runs_read (fun s r => r = s.clock) (fun choice s r s' step => by cases step; exact ⟨rfl, rfl⟩) fun w' rely inv r same => by
    subst same
    exact h w' rely inv

theorem runs_wLock {next : Unit → Code β} (h : ∀ w', Keeps t w w' → Runs allPageCnt t (next ()) Q w') :
    Runs allPageCnt t (verb .wLock >>= next) Q w := by
  refine runs_verb fun w' rely inv _ choice r s step => ?_
  simp only [perform] at step
  split at step
  · cases step
    exact ⟨w'.2, guarantee_lock inv _, h _ (rely.keeps.trans ⟨rfl, le_rfl, fun _ _ => rfl, fun _ _ => id, fun _ => id⟩)⟩
  · cases step

theorem runs_wUnlock {next : Unit → Code β} (h : ∀ w', Keeps t w w' → Runs allPageCnt t (next ()) Q w') :
    Runs allPageCnt t (verb .wUnlock >>= next) Q w := by
  refine runs_verb fun w' rely inv _ choice r s step => ?_
  cases step
  exact ⟨w'.2, guarantee_lock inv _, h _ (rely.keeps.trans ⟨rfl, le_rfl, fun _ _ => rfl, fun _ _ => id, fun _ => id⟩)⟩

theorem runs_loadPtr {e : EntryPtr} {next : Option Address → Code β}
    (null : ∀ w', Keeps t w w' → Runs allPageCnt t (next none) Q w')
    (page : ∀ w' a p, Keeps t w w' → w'.2.held t = some (a, p) → Fits w'.2 e p → Runs allPageCnt t (next (some a)) Q w') :
    Runs allPageCnt t (verb (.loadPtr e) >>= next) Q w := by
  refine runs_verb fun w' rely inv _ choice r s step => ?_
  cases step
  have same : ∀ q, Keeps t w ({ w'.1 with
      loadedAt := Function.update w'.1.loadedAt t w'.1.clock
      loadedBorn := Function.update w'.1.loadedBorn t ((w'.1.ptr e).elim 0 w'.1.born) },
      { w'.2 with held := Function.update w'.2.held t q }) := fun q =>
    rely.keeps.trans ⟨rfl, le_rfl, fun _ _ => rfl, fun _ _ => id, fun _ => id⟩
  cases ptr : w'.1.ptr e with
  | none =>
      have loads := guarantee_loadPtr (t := t) inv e none (by simp)
      rw [ptr] at same loads
      exact ⟨_, loads, null _ (same none)⟩
  | some a =>
      obtain ⟨c, heap, fits⟩ := inv.loaded ptr
      have loads := guarantee_loadPtr (t := t) inv e (some (a, c.page)) fun b q held => by
        cases held
        exact ⟨ptr, congrArg _ heap⟩
      rw [ptr] at same loads
      exact ⟨_, loads, page _ a c.page (same _) (Function.update_self ..) ⟨fits.added, fits.lowest, fits.highest⟩⟩

theorem runs_used {value : α} {next : α → Code β} (h : Runs allPageCnt t (next value) Q w) :
    Runs allPageCnt t (used (some value) >>= next) Q w := h

section Held
variable {a : Address} {p : InternalPage}

theorem Inv.holds {w' : World} (inv : Inv allPageCnt w') (rely : Rely t w w') (held : w.2.held t = some (a, p))
    (window : w'.1.clock ≤ w'.1.loadedAt t + delayCycles) :
    ∃ c, w'.1.cache.heap a = some c ∧ w'.1.loaded t a = some c ∧ c.page = p ∧ ∀ u, w'.2.owner a ≠ some (.adding u) := by
  have h := inv.timed.held t a p (rely.held.trans held) window
  obtain ⟨c, heap, page⟩ := Option.map_eq_some_iff.mp h.page
  exact ⟨c, heap, (if_pos h.same).trans heap, page, h.published⟩

theorem runs_load {f : Field} {next : Option f.Val → Code β} (held : w.2.held t = some (a, p))
    (h : ∀ w', Rely t w w' → Runs allPageCnt t (next (some (f.get p))) Q w') :
    Runs allPageCnt t (verb (.load a f) >>= next) Q w := by
  refine runs_verb fun w' rely inv timely choice r s step => ?_
  obtain ⟨c, -, loaded, rfl, -⟩ := inv.holds rely held (timely rfl)
  simp only [perform, loaded] at step
  cases step
  exact ⟨w'.2, .refl inv, h w' rely⟩

theorem runs_readFreq {next : Option Nat → Code β} (held : w.2.held t = some (a, p))
    (h : ∀ w' freq, Rely t w w' → Runs allPageCnt t (next (some freq)) Q w') :
    Runs allPageCnt t (verb (.readFreq a) >>= next) Q w := by
  refine runs_verb fun w' rely inv timely choice r s step => ?_
  obtain ⟨c, -, loaded, -, -⟩ := inv.holds rely held (timely rfl)
  simp only [perform, loaded] at step
  cases step
  exact ⟨w'.2, .refl inv, h w' c.indexCacheFreq rely⟩

theorem runs_writeFreq {freq : Nat} {next : Bool → Code β} (held : w.2.held t = some (a, p))
    (h : ∀ w', Keeps t w w' → w'.2.held t = some (a, p) → Runs allPageCnt t (next true) Q w') :
    Runs allPageCnt t (verb (.writeFreq a freq) >>= next) Q w := by
  refine runs_verb fun w' rely inv timely choice r s step => ?_
  obtain ⟨c, heap, loaded, -, published⟩ := inv.holds rely held (timely rfl)
  simp only [perform, loaded] at step
  cases step
  refine ⟨w'.2, guarantee_writeFreq inv heap published freq, h _ (rely.keeps.trans ⟨rfl, le_rfl, fun b fresh => ?_,
    fun _ _ => id, fun _ => id⟩) (rely.held.trans held)⟩
  have other : b ≠ a := by
    rintro rfl
    exact published t (inv.custody.at_owner (o := .adding t) (by simp [At, fresh, Stage.adds]))
  exact Function.update_of_ne other _ _

theorem runs_loadChildFrom {k : Key} {fuel i : Nat} {Q : GlobalAddress → World → Prop} (held : w.2.held t = some (a, p))
    (h : ∀ w', Rely t w w' → Q (p.childFrom k fuel i) w') : Runs allPageCnt t (loadChildFrom a k fuel i) Q w := by
  induction fuel generalizing i w with
  | zero =>
      exact runs_load held fun w₁ rely₁ => runs_ret fun w₂ rely₂ _ => h w₂ (rely₁.trans rely₂)
  | succ fuel ih =>
      rw [loadChildFrom]
      simp only [InternalPage.childFrom] at h
      refine runs_load held fun w₁ rely₁ => runs_used ?_
      have held₁ := rely₁.held.trans held
      split
      · rename_i found
        rw [if_pos (show k < (p.records.getD i default).key from found)] at h
        exact runs_load held₁ fun w₂ rely₂ => runs_ret fun w₃ rely₃ _ => h w₃ ((rely₁.trans rely₂).trans rely₃)
      · rename_i further
        rw [if_neg (show ¬ k < (p.records.getD i default).key from further)] at h
        exact ih held₁ fun w₂ rely₂ => h w₂ (rely₁.trans rely₂)

theorem runs_loadChild {k : Key} {Q : GlobalAddress → World → Prop} (held : w.2.held t = some (a, p))
    (h : ∀ w', Rely t w w' → Q (p.child k) w') : Runs allPageCnt t (loadChild a k) Q w := by
  unfold loadChild
  simp only [InternalPage.child] at h
  refine runs_load held fun w₁ rely₁ => runs_used ?_
  refine runs_load (rely₁.held.trans held) fun w₂ rely₂ => runs_used ?_
  have rely := rely₁.trans rely₂
  have held₂ := rely.held.trans held
  split
  · rename_i first
    rw [if_pos (show k < (p.records.getD 0 default).key from first)] at h
    exact runs_load held₂ fun w₃ rely₃ => runs_ret fun w₄ rely₄ _ => h w₄ ((rely.trans rely₃).trans rely₄)
  · rename_i later
    rw [if_neg (show ¬ k < (p.records.getD 0 default).key from later)] at h
    exact runs_loadChildFrom held₂ fun w₃ rely₃ => h w₃ (rely.trans rely₃)

end Held

/-! ## The calls -/

theorem runs_freeDelayed (leader : t = 0) (quiet : w.2.stage t = .quiet) {Q : Unit → World → Prop}
    (h : ∀ w', w'.2.stage t = .quiet → Q () w') : Runs allPageCnt t freeDelayed Q w := by
  subst leader
  unfold freeDelayed
  refine runs_read (fun s r => r = s.cache.delayFreeList.head?) (fun choice s r s' step => by cases step; exact ⟨rfl, rfl⟩)
    fun w₁ rely₁ inv₁ r front => ?_
  have quiet₁ := rely₁.stage.trans quiet
  cases r with
  | none => exact runs_ret fun w₂ rely₂ _ => h w₂ (rely₂.stage.trans quiet₁)
  | some pair =>
      obtain ⟨a, since⟩ := pair
      refine runs_rdtsc fun w₂ rely₂ inv₂ => ?_
      split
      · rename_i late
        refine runs_verb fun w₃ rely₃ inv₃ _ choice r s step => ?_
        have rely := rely₂.trans rely₃
        have quiet₃ := rely.stage.trans quiet₁
        have front₃ := rely.front rfl _ front.symm
        have old : since ≤ w₂.1.clock := inv₂.timed.since (a, since) (List.mem_of_head? (rely₂.front rfl _ front.symm))
        have wrap : (w₂.1.clock + (2 ^ 64 - since % 2 ^ 64)) % 2 ^ 64 ≤ w₂.1.clock - since := by omega
        have waited : since + delayCycles < w₃.1.clock := by
          have := rely₃.clock
          omega
        have owner := inv₃.custody.at_owner (o := .delayed) (a := a) (by
          obtain ⟨rest, list⟩ := List.head?_eq_some_iff.mp front₃
          simp [At, waiting, quiet₃, Stage.isFreed, list])
        have allocated : (w₃.1.cache.heap a).isSome := by rw [inv₃.custody.allocated, owner]; rfl
        simp only [perform, if_pos allocated] at step
        cases step
        refine ⟨_, guarantee_freeFront inv₃ quiet₃ front₃ waited, ?_⟩
        refine runs_verb fun w₄ rely₄ inv₄ _ choice r s step => ?_
        cases step
        have freed₄ : w₄.2.stage 0 = .freed false := rely₄.stage.trans (Ghost.move_stage ..)
        refine ⟨_, guarantee_countFreed inv₄ freed₄, ?_⟩
        refine runs_wLock fun w₅ keeps₅ => ?_
        refine runs_verb fun w₆ rely₆ inv₆ _ choice r s step => ?_
        cases step
        have freed₆ : w₆.2.stage 0 = .freed true :=
          rely₆.stage.trans (keeps₅.stage.trans (Ghost.move_stage ..))
        refine ⟨_, guarantee_pop inv₆ freed₆, ?_⟩
        refine runs_wUnlock fun w₇ keeps₇ => ?_
        exact runs_ret fun w₈ rely₈ _ => h w₈ (rely₈.stage.trans (keeps₇.stage.trans (Ghost.move_stage ..)))
      · exact runs_ret fun w₃ rely₃ _ => h w₃ ((rely₂.trans rely₃).stage.trans quiet₁)

theorem runs_leader {β : Type} {isLeader : Bool} {rest : Unit → Code β} {Q : β → World → Prop}
    (leader : isLeader → t = 0) (quiet : w.2.stage t = .quiet)
    (h : ∀ w', w'.2.stage t = .quiet → Runs allPageCnt t (rest ()) Q w') :
    Runs allPageCnt t (if isLeader = true then freeDelayed >>= rest else rest ()) Q w := by
  cases isLeader with
  | true => exact runs_bind (runs_freeDelayed (leader rfl) quiet h)
  | false => exact h w quiet

theorem runs_searchFromCache {k : Key} {isLeader : Bool} (leader : isLeader → t = 0) (quiet : w.2.stage t = .quiet) :
    Runs allPageCnt t (searchFromCache k isLeader) (fun r w' => w'.2.stage t = .quiet ∧
      ∀ e a, r = some (e, a) → Served k a w') w := by
  unfold searchFromCache
  apply runs_leader leader quiet
  intro w₀ quiet₀
  refine runs_findEntry fun w₁ rely₁ inv₁ r => ?_
  have quiet₁ := rely₁.stage.trans quiet₀
  cases r with
  | none => exact runs_ret fun w₂ rely₂ _ => ⟨rely₂.stage.trans quiet₁, by simp⟩
  | some e =>
      refine runs_loadPtr (fun w₂ keeps₂ => ?_) fun w₂ a p keeps₂ held fits => ?_
      · exact runs_ret fun w₃ rely₃ _ => ⟨rely₃.stage.trans (keeps₂.stage.trans quiet₁), by simp⟩
      · have quiet₂ := keeps₂.stage.trans quiet₁
        dsimp only
        split
        · rename_i inside
          refine runs_readFreq held fun w₃ freq rely₃ => runs_used ?_
          refine runs_writeFreq (rely₃.held.trans held) fun w₄ keeps₄ held₄ => ?_
          refine runs_bind (runs_loadChild held₄ fun w₅ rely₅ => ?_)
          have keeps₅ := (rely₃.keeps.trans keeps₄).trans rely₅.keeps
          have served : Served k (p.child k) w₅ :=
            ⟨p, keeps₅.added p fits.added, fits.lowest.trans_le inside.1, inside.2.trans fits.highest.ge, rfl⟩
          refine runs_loadPtr (fun w₆ keeps₆ => ?_) fun w₆ b q keeps₆ _ _ => ?_
          · exact runs_ret fun w₇ rely₇ _ =>
              ⟨rely₇.stage.trans ((keeps₅.trans keeps₆).stage.trans quiet₂), by simp⟩
          · refine runs_ret fun w₇ rely₇ _ => ⟨rely₇.stage.trans ((keeps₅.trans keeps₆).stage.trans quiet₂), fun e' a' same => ?_⟩
            cases same
            exact served.keeps (keeps₆.trans rely₇.keeps)
        · exact runs_ret fun w₃ rely₃ _ => ⟨rely₃.stage.trans quiet₂, by simp⟩

theorem mem_setPtr {e : EntryPtr} {ptr : Option Address} {entries : List Slot} {y : Slot}
    (member : y ∈ State.setPtr e.fromKey e.toKey ptr entries) :
    y ∈ entries ∨ y.ptr = ptr ∧ y.fromKey = e.fromKey ∧ y.toKey = e.toKey := by
  induction entries with
  | nil => exact .inl member
  | cons x rest ih =>
      rw [State.setPtr] at member
      split at member
      · rename_i isFor
        simp only [Slot.isFor, decide_eq_true_eq] at isFor
        rcases List.mem_cons.mp member with rfl | later
        · exact .inr ⟨rfl, isFor⟩
        · exact .inl (List.mem_cons_of_mem _ later)
      · rcases List.mem_cons.mp member with rfl | later
        · exact .inl List.mem_cons_self
        · exact (ih later).imp (List.mem_cons_of_mem _) id

theorem runs_invalidate {e : EntryPtr} {Q : Bool → World → Prop} (quiet : w.2.stage t = .quiet)
    (h : ∀ b w', w'.2.stage t = .quiet → Q b w') : Runs allPageCnt t (invalidate e) Q w := by
  unfold invalidate
  refine runs_loadPtr (fun w₁ keeps₁ => ?_) fun w₁ a p keeps₁ _ _ => ?_
  · exact runs_ret fun w₂ rely₂ _ => h _ w₂ (rely₂.stage.trans (keeps₁.stage.trans quiet))
  · have quiet₁ := keeps₁.stage.trans quiet
    refine runs_verb fun w₂ rely₂ inv₂ _ choice r s step => ?_
    have quiet₂ := rely₂.stage.trans quiet₁
    simp only [perform] at step
    split at step
    · rename_i taken
      cases step
      obtain ⟨x, found, holds⟩ := Option.bind_eq_some_iff.mp taken.2
      refine ⟨_, guarantee_take (c := (w₂.1.setPtr e none).cache) inv₂ quiet₂ (State.perm_clear found holds) rfl rfl rfl ?_, ?_⟩
      · intro y member b ptr
        rcases mem_setPtr member with old | ⟨null, -⟩
        · exact inv₂.content y old b ptr
        · rw [null] at ptr
          cases ptr
      · refine runs_wLock fun w₃ keeps₃ => ?_
        refine runs_verb fun w₄ rely₄ inv₄ _ choice r s step => ?_
        cases step
        have retiring : w₄.2.stage t = .retiring a := rely₄.stage.trans (keeps₃.stage.trans (Ghost.move_stage ..))
        refine ⟨_, guarantee_stamp inv₄ retiring, ?_⟩
        refine runs_verb fun w₅ rely₅ inv₅ _ choice r s step => ?_
        cases step
        refine ⟨_, guarantee_push inv₅ (rely₅.stage.trans (Ghost.move_stage ..)), ?_⟩
        refine runs_wUnlock fun w₆ keeps₆ => ?_
        exact runs_ret fun w₇ rely₇ _ => h _ w₇ (rely₇.stage.trans (keeps₆.stage.trans (Ghost.move_stage ..)))
    · cases step
      exact ⟨w₂.2, .refl inv₂, runs_ret fun w₃ rely₃ _ => h _ w₃ (rely₃.stage.trans quiet₂)⟩

theorem runs_getARandomEntry (quiet : w.2.stage t = .quiet) :
    Runs allPageCnt t getARandomEntry (fun _ w' => w'.2.stage t = .quiet) w := by
  unfold getARandomEntry
  refine runs_read (fun _ _ => True) (fun choice s r s' step => by cases choice <;> cases step; exact ⟨trivial, rfl⟩)
    fun w₁ rely₁ inv₁ r _ => ?_
  refine runs_bind (Protocol.wp_mono (runs_searchFromCache (by simp) (rely₁.stage.trans quiet)) fun r w₂ inv₂ post => ?_)
  cases r with
  | none => exact runs_tail post.1 fun _ _ quiet => quiet
  | some hit =>
      obtain ⟨e, addr⟩ := hit
      refine runs_loadPtr (fun w₃ keeps₃ => ?_) fun w₃ a p keeps₃ held _ => ?_
      · exact runs_tail (keeps₃.stage.trans post.1) fun _ _ quiet => quiet
      · refine runs_readFreq held fun w₄ freq rely₄ => runs_used ?_
        have again : ∀ r w₅, Keeps t w₄ w₅ → Runs allPageCnt t (if r ≠ some a then call .getARandomEntry else pure (e, freq))
            (fun _ w' => w'.2.stage t = .quiet) w₅ := by
          intro r w₅ keeps₅
          have quiet₅ := keeps₅.stage.trans (rely₄.stage.trans (keeps₃.stage.trans post.1))
          split
          · exact runs_tail quiet₅ fun _ _ quiet => quiet
          · exact runs_ret fun w₆ rely₆ _ => rely₆.stage.trans quiet₅
        exact runs_loadPtr (fun w₅ keeps₅ => again none w₅ keeps₅) fun w₅ b q keeps₅ _ _ => again (some b) w₅ keeps₅

theorem runs_evictOne {Q : Unit → World → Prop} (quiet : w.2.stage t = .quiet)
    (h : ∀ w', w'.2.stage t = .quiet → Q () w') : Runs allPageCnt t evictOne Q w := by
  unfold evictOne
  refine runs_call quiet fun r₁ w₁ quiet₁ => runs_call quiet₁ fun r₂ w₂ quiet₂ => ?_
  have rest : ∀ (_ : Bool) w', w'.2.stage t = .quiet → Runs allPageCnt t (pure () : Code Unit) Q w' := fun _ w' quiet' =>
    runs_ret fun w'' rely _ => h w'' (rely.stage.trans quiet')
  dsimp only
  split
  · exact runs_bind (runs_invalidate quiet₂ rest)
  · exact runs_bind (runs_invalidate quiet₂ rest)

theorem runs_takePage {Q : Unit → World → Prop} (uncounted : w.2.stage t = .uncounted)
    (h : ∀ w', w'.2.stage t = .quiet → Q () w') : Runs allPageCnt t takePage Q w := by
  unfold takePage
  refine runs_verb fun w₁ rely₁ inv₁ _ choice r s step => ?_
  cases step
  refine ⟨_, guarantee_countPage inv₁ (rely₁.stage.trans uncounted), ?_⟩
  split
  · exact runs_evictOne (Ghost.move_stage ..) h
  · exact runs_ret fun w₂ rely₂ _ => h w₂ (rely₂.stage.trans (Ghost.move_stage ..))

theorem runs_discard {a : Address} {next : Unit → Code β} (fresh : w.2.stage t = .fresh a)
    (h : ∀ w', w'.2.stage t = .quiet → Runs allPageCnt t (next ()) Q w') :
    Runs allPageCnt t (freePage a >>= next) Q w := by
  refine runs_bind ?_
  unfold freePage
  refine runs_verb fun w₁ rely₁ inv₁ _ choice r s step => ?_
  have fresh₁ := rely₁.stage.trans fresh
  have owner := inv₁.custody.at_owner (o := .adding t) (a := a) (by simp [At, fresh₁, Stage.adds])
  have allocated : (w₁.1.cache.heap a).isSome := by rw [inv₁.custody.allocated, owner]; rfl
  simp only [perform, if_pos allocated] at step
  cases step
  refine ⟨_, guarantee_discard inv₁ fresh₁, runs_ret fun w₂ rely₂ _ => h w₂ (rely₂.stage.trans (Ghost.move_stage ..))⟩

theorem mem_insertSlot {x y : Slot} {entries : List Slot} (member : y ∈ State.insertSlot x entries) :
    y = x ∨ y ∈ entries := by
  rw [State.insertSlot, List.mem_append, List.mem_cons] at member
  rcases member with early | same | late
  · exact .inr (List.takeWhile_subset _ early)
  · exact .inl same
  · exact .inr (List.dropWhile_subset _ late)

theorem runs_addToCache {p : InternalPage} (quiet : w.2.stage t = .quiet) (added : w.2.added p) :
    Runs allPageCnt t (addToCache p) (fun _ w' => w'.2.stage t = .quiet) w := by
  unfold addToCache
  refine runs_verb fun w₁ rely₁ inv₁ _ choice a s step => ?_
  cases choice with
  | none => cases step
  | random r => cases step
  | address b =>
      simp only [perform] at step
      split at step
      · cases step
      rename_i free
      cases step
      have free₁ : w₁.1.cache.heap a = none := Option.not_isSome_iff_eq_none.mp free
      refine ⟨_, guarantee_malloc inv₁ (rely₁.stage.trans quiet) free₁ ⟨p, 0⟩, ?_⟩
      have added₁ : w₁.2.added p := rely₁.added p added
      have fresh₁ : (w₁.2.move t (.fresh a) (Function.update w₁.2.owner a (some (.adding t)))).stage t = .fresh a :=
        Ghost.move_stage ..
      refine runs_verb fun w₂ rely₂ inv₂ _ choice r s step => ?_
      have fresh₂ : w₂.2.stage t = .fresh a := rely₂.stage.trans fresh₁
      have page₂ : w₂.1.cache.heap a = some ⟨p, 0⟩ := (rely₂.fresh a fresh₁).trans (Function.update_self ..)
      have fits₂ : Fits w₂.2 ⟨p.hdr.lowest, p.hdr.highest - 1⟩ p := ⟨rely₂.added p added₁, rfl, rfl⟩
      -- the page is not published
      have discard : ∀ w', w'.2.stage t = .fresh a → Runs allPageCnt t (do freePage a; return false)
          (fun _ w' => w'.2.stage t = .quiet) w' := fun w' fresh =>
        runs_discard fresh fun w'' quiet => runs_ret fun w''' rely _ => rely.stage.trans quiet
      simp only [perform] at step
      split at step
      · cases step
        refine ⟨w₂.2, .refl inv₂, ?_⟩
        refine runs_findEntry fun w₃ rely₃ inv₃ r => ?_
        have fresh₃ := rely₃.stage.trans fresh₂
        cases r with
        | none => exact discard w₃ fresh₃
        | some e =>
            dsimp only
            split
            · rename_i same
              subst same
              refine runs_loadPtr (fun w₄ keeps₄ => ?_) fun w₄ b q keeps₄ _ _ => ?_
              · have fresh₄ := keeps₄.stage.trans fresh₃
                refine runs_verb fun w₅ rely₅ inv₅ _ choice r s step => ?_
                have fresh₅ := rely₅.stage.trans fresh₄
                simp only [perform] at step
                split at step
                · rename_i refilled
                  cases step
                  have keeps₅ := (rely₃.keeps.trans keeps₄).trans rely₅.keeps
                  have page₅ : w₅.1.cache.heap a = some ⟨p, 0⟩ := (keeps₅.fresh a fresh₂).trans page₂
                  obtain ⟨x, found⟩ := Option.isSome_iff_exists.mp refilled.1
                  have null : x.ptr = none := by simpa [Shared.ptr, found] using refilled.2
                  refine ⟨_, guarantee_publish (c := (w₅.1.setPtr ⟨p.hdr.lowest, p.hdr.highest - 1⟩ (some a)).cache) inv₅ fresh₅
                    (State.perm_refill found null) rfl rfl rfl ?_, ?_⟩
                  · intro y member b ptr
                    rcases mem_setPtr member with old | ⟨here, fromKey, toKey⟩
                    · exact inv₅.content y old b ptr
                    · rw [here] at ptr
                      cases ptr
                      rw [fromKey, toKey]
                      exact ⟨_, page₅, keeps₅.added p fits₂.added, rfl, rfl⟩
                  · exact runs_bind (runs_takePage (Ghost.move_stage ..) fun w₆ quiet₆ =>
                      runs_ret fun w₇ rely₇ _ => rely₇.stage.trans quiet₆)
                · cases step
                  exact ⟨w₅.2, .refl inv₅, discard w₅ fresh₅⟩
              · exact discard w₄ (keeps₄.stage.trans fresh₃)
            · exact discard w₃ fresh₃
      · cases step
        refine ⟨_, guarantee_publish (c := { w₂.1.cache with
            entries := State.insertSlot ⟨p.hdr.lowest, p.hdr.highest - 1, some a⟩ w₂.1.cache.entries })
          inv₂ fresh₂ (State.perm_insert w₂.1.cache.entries rfl) rfl rfl rfl ?_, ?_⟩
        · intro y member b ptr
          rcases mem_insertSlot member with rfl | old
          · cases ptr
            exact ⟨_, page₂, fits₂⟩
          · exact inv₂.content y old b ptr
        · refine runs_verb fun w₃ rely₃ inv₃ _ choice r s step => ?_
          cases step
          refine ⟨w₃.2, guarantee_nodeCnt inv₃ _, ?_⟩
          have uncounted₃ : w₃.2.stage t = .uncounted := rely₃.stage.trans (Ghost.move_stage ..)
          exact runs_bind (runs_takePage uncounted₃ fun w₄ quiet₄ => runs_ret fun w₅ rely₅ _ => rely₅.stage.trans quiet₄)

/-! ## Soundness -/

theorem inv_added {s : Shared} {g : Ghost} (inv : Inv allPageCnt (s, g)) (added : InternalPage → Prop)
    (more : ∀ p, g.added p → added p) : Inv allPageCnt (s, { g with added := added }) := by
  refine ⟨inv.custody, inv.counted, ⟨inv.timed.loaded, inv.timed.stamps, inv.timed.since, fun u b q held window => ?_⟩,
    fun x member a ptr => ?_⟩
  · obtain ⟨page, same, published, stamped, awaiting⟩ := inv.timed.held u b q held window
    exact ⟨page, same, published, stamped, awaiting⟩
  · obtain ⟨c, heap, fits⟩ := inv.content x member a ptr
    exact ⟨c, heap, more _ fits.added, fits.lowest, fits.highest⟩

theorem protocol_sound (allPageCnt : Nat) : (protocol allPageCnt).Sound system where
  guar_inv _ _ _ _ h := h.inv
  guar_rely _ _ _ _ h := h.others
  guar_active _ _ _ _ _ h active p same := h.added ▸ active p same
  rely_active _ _ _ _ h active p same := h.added p (active p same)
  rely_idle _ _ _ h idle := h.stage.trans idle
  invoke t op w inv idle _ := by
    refine ⟨{ w.2 with added := fun p => w.2.added p ∨ op = .addToCache p }, inv_added inv _ fun p => .inl,
      fun u _ => ⟨rfl, rfl, rfl, le_rfl, fun _ _ => rfl, fun _ _ => id, fun p => .inl⟩, rfl, fun p same => .inr same, idle⟩
  respond t op r w inv _ finished _ :=
    ⟨w.2, inv, fun u _ => .refl u w, rfl, finished.1⟩
  interfere cycles w s inv step := by
    cases step
    exact ⟨w.2, inv_tick inv cycles, fun u => ⟨rfl, rfl, rfl, Nat.le_add_right .., fun _ _ => rfl, fun _ _ => id, fun _ => id⟩, rfl⟩
  main t op w inv active started := by
    cases op with
    | addToCache p =>
        refine runs_bind (Protocol.wp_mono (runs_addToCache started (active p rfl)) fun b w₁ inv₁ quiet₁ => ?_)
        exact runs_ret fun w₂ rely₂ _ => ⟨rely₂.stage.trans quiet₁, by simp⟩
    | searchFromCache k =>
        refine runs_read (fun _ r => r = t) (fun choice s r s' step => by cases step; exact ⟨rfl, rfl⟩) fun w₁ rely₁ inv₁ id same => ?_
        subst same
        refine runs_bind (Protocol.wp_mono (runs_searchFromCache (fun leader => of_decide_eq_true leader) (rely₁.stage.trans started))
          fun r w₂ inv₂ post => ?_)
        refine runs_ret fun w₃ rely₃ _ => ⟨rely₃.stage.trans post.1, fun k' e a op result => ?_⟩
        cases op
        cases result
        exact (post.2 e a rfl).keeps rely₃.keeps
    | invalidate e =>
        refine runs_bind (runs_invalidate started fun b w₁ quiet₁ => ?_)
        exact runs_ret fun w₂ rely₂ _ => ⟨rely₂.stage.trans quiet₁, by simp⟩
  proc t p w inv pre _ := by
    cases p
    exact runs_getARandomEntry pre

/-! ## Runs -/

abbrev Threads := Concurrency.State signature Tid Op Result Shared

abbrev Schedule := List (Action Tid Op Choice Nat)

def Threads.init (allPageCnt : Nat) : Threads := ⟨.init allPageCnt, fun _ => .idle⟩

/-- Thread `t` uses a page at most `delayCycles` after it has loaded the pointer. -/
def Timely (s : Threads) : Action Tid Op Choice Nat → Prop
  | .advance t _ => match s.threads t with
      | .running _ (.verb v _) => v.dereferences → s.shared.clock ≤ s.shared.loadedAt t + delayCycles
      | _ => True
  | _ => True

def Ghost.init : Ghost := ⟨fun _ => .quiet, fun _ => none, fun _ => none, ∅, ∅, fun _ => False⟩

theorem init_inv (allPageCnt : Nat) : Inv allPageCnt (.init allPageCnt, .init) where
  custody := by
    refine ⟨fun o a => ?_, fun _ => rfl, List.nodup_nil, List.nodup_nil⟩
    cases o <;> simp [At, waiting, Shared.init, Ghost.init, CachePages.State.init, CachePages.State.live, Stage.isFreed, Stage.adds, Stage.retires]
  counted := by
    refine ⟨fun t => ?_, fun t => ?_, fun t => ?_, ?_⟩
    · simp [Ghost.init, Stage.isFreed]
    · simp [Ghost.init]
    · simp [Ghost.init, Stage.retires]
    · simp [Ghost.init, Shared.init, CachePages.State.init, CachePages.State.live]
  timed := ⟨fun _ => le_rfl, by simp [Ghost.init], by simp [Shared.init, CachePages.State.init], by simp [Ghost.init]⟩
  content := by simp [Shared.init, CachePages.State.init]

theorem init_good (allPageCnt : Nat) : (protocol allPageCnt).Good system (Threads.init allPageCnt) Ghost.init :=
  ⟨init_inv allPageCnt, fun _ => rfl⟩

theorem may_timely {s : Threads} {as : Schedule} (timely : system.Throughout Timely s as) :
    system.Throughout (protocol allPageCnt).May s as := by
  refine System.Throughout.mono system (fun s a h => ?_) timely
  cases a with
  | invoke t op => trivial
  | advance t choice =>
      simp only [Timely] at h
      simp only [Protocol.May]
      split
      · rename_i op v next thread
        simp only [thread] at h
        exact h
      · trivial
      · trivial
  | respond t => trivial
  | interfere e => trivial

/-! ## A run with evictions -/

def timely (s : Threads) : Action Tid Op Choice Nat → Bool
  | .advance t _ => match s.threads t with
      | .running _ (.verb v _) => !v.dereferences || decide (s.shared.clock ≤ s.shared.loadedAt t + delayCycles)
      | _ => true
  | _ => true

theorem timely_sound (s : Threads) (a : Action Tid Op Choice Nat) (h : timely s a = true) : Timely s a := by
  cases a with
  | advance t choice =>
      simp only [timely] at h
      simp only [Timely]
      split
      · rename_i op v next thread
        intro uses
        simpa [thread, uses] using h
      · trivial
  | invoke t op => trivial
  | respond t => trivial
  | interfere cycles => trivial

def steps (t : Tid) (n : Nat) : Schedule := List.replicate n (.advance t .none)

def eviction (t : Tid) (k : Nat) : Schedule :=
  steps t 1 ++ [.advance t (.random k)] ++ steps t 12 ++ [.advance t (.random k)] ++ steps t 17

/-- The leader is between two loads from the page at 64 when thread 1 evicts it and then refills its entry. -/
def refill : Schedule :=
  [.invoke 1 (.addToCache (IndexCache.fenced 0 30 100)), .advance 1 (.address 64)] ++ steps 1 3 ++ [.respond 1] ++
    [.invoke 0 (.searchFromCache 35)] ++ steps 0 7 ++
    [.invoke 1 (.addToCache (IndexCache.fenced 200 230 300)), .advance 1 (.address 128)] ++ steps 1 3 ++ eviction 1 35 ++
    [.respond 1, .interfere 20000] ++
    [.invoke 1 (.addToCache (IndexCache.fenced 0 40 100)), .advance 1 (.address 192)] ++ steps 1 5 ++ eviction 1 230 ++
    [.respond 1] ++ steps 0 3

/-- The leader frees the page at 64, and the address is used for the next page. -/
def reuse : Schedule :=
  [.respond 0, .interfere 20000, .invoke 0 (.searchFromCache 230)] ++ steps 0 10 ++ [.respond 0] ++
    [.invoke 1 (.addToCache (IndexCache.fenced 200 230 300)), .advance 1 (.address 64)] ++ steps 1 5 ++ eviction 1 35 ++
    [.respond 1, .invoke 0 (.searchFromCache 230)] ++ steps 0 11 ++ [.respond 0]

def refilled (s : Threads) : Bool :=
  match s.threads 0 with
  | .running (.searchFromCache k) (.ret (.found r)) =>
      k = 35 && r = some (⟨0, 99⟩, ⟨0, 2048⟩) && s.shared.ptr ⟨0, 99⟩ = some 192
  | _ => false

def reused (s : Threads) : Bool :=
  match s.threads 0, s.threads 1 with
  | .idle, .idle => s.shared.born 64 = 2 && s.shared.cache.live = [64] &&
      s.shared.cache.delayFreeList = [(128, 20000), (192, 40000)]
  | _, _ => false

theorem refilled_eq {s : Threads} (h : refilled s = true) : s.shared.ptr ⟨0, 99⟩ = some 192 ∧
    s.threads 0 = .running (.searchFromCache 35) (.ret (.found (some (⟨0, 99⟩, ⟨0, 2048⟩)))) := by
  unfold refilled at h
  split at h
  · rename_i k r thread
    simp only [Bool.and_eq_true, decide_eq_true_eq] at h
    obtain ⟨⟨rfl, rfl⟩, ptr⟩ := h
    exact ⟨ptr, thread⟩
  · cases h

theorem reused_eq {s : Threads} (h : reused s = true) : s.threads 0 = .idle ∧ s.threads 1 = .idle ∧
    s.shared.born 64 = 2 ∧ s.shared.cache.live = [64] ∧
      s.shared.cache.delayFreeList = [(128, 20000), (192, 40000)] := by
  unfold reused at h
  split at h
  · rename_i first second
    simpa [first, second, and_assoc] using h
  · cases h

theorem reuse_replays : ((system.replay id timely (Threads.init 1) refill).bind fun x =>
    (system.replay id timely x.1 reuse).map fun y => refilled x.1 && reused y.1) = some true := by
  decide +kernel

theorem reuse_spec : ∃ m s, system.run (Threads.init 1) refill = some m ∧ system.run (Threads.init 1) (refill ++ reuse) = some s ∧
    refilled m = true ∧ reused s = true ∧ system.Throughout Timely (Threads.init 1) refill ∧
    system.Throughout Timely (Threads.init 1) (refill ++ reuse) := by
  obtain ⟨⟨m, es⟩, first, later⟩ := Option.bind_eq_some_iff.mp reuse_replays
  obtain ⟨⟨s, es'⟩, second, shapes⟩ := Option.map_eq_some_iff.mp later
  obtain ⟨shape, shape'⟩ := Bool.and_eq_true_iff.mp shapes
  obtain ⟨run, -, throughout⟩ := System.replay_spec (fun _ => rfl) first
  obtain ⟨run', -, throughout'⟩ := System.replay_spec (fun _ => rfl) second
  have timely₁ := System.Throughout.mono system timely_sound throughout
  have timely₂ := System.Throughout.mono system timely_sound throughout'
  exact ⟨m, s, run, system.run_append.mpr ⟨m, run, run'⟩, shape, shape', timely₁, timely₁.append run timely₂⟩

theorem reuse_threads : ∀ a ∈ refill ++ reuse, ∀ t, a.thread? = some t → t = 0 ∨ t = 1 := by
  have all : (refill ++ reuse).all (fun a => a.thread?.all fun t => t = 0 ∨ t = 1) = true := by decide +kernel
  intro a member t thread
  have here := List.all_eq_true.mp all a member
  simpa [thread] using here

/-- No page is used after it was freed, and none is freed twice. -/
theorem no_use_after_free (allPageCnt : Nat) (as : Schedule) (s : Threads) (t : Tid) (op : Op) (error : Fault)
    (timely : system.Throughout Timely (Threads.init allPageCnt) as)
    (run : system.run (Threads.init allPageCnt) as = some s) : s.threads t ≠ .running op (.fault error) := by
  intro stopped
  obtain ⟨g, good⟩ := Protocol.good_run (protocol_sound allPageCnt) (init_good allPageCnt) (may_timely timely) run
  exact good.fault stopped

theorem no_use_after_free_reuse : ∃ s, system.run (Threads.init 1) (refill ++ reuse) = some s ∧ s.shared.born 64 = 2 ∧
    ∀ t op error, s.threads t ≠ .running op (.fault error) := by
  obtain ⟨m, s, -, run, -, shape, -, timely⟩ := reuse_spec
  exact ⟨s, run, (reused_eq shape).2.2.1, fun t op error => no_use_after_free 1 _ s t op error timely run⟩

/-- When no call is running, every allocated page is in one entry or waits in `delay_free_list` once, and
the counter is right. -/
theorem idle_accounted (allPageCnt : Nat) (as : Schedule) (s : Threads)
    (timely : system.Throughout Timely (Threads.init allPageCnt) as)
    (run : system.run (Threads.init allPageCnt) as = some s) (idle : ∀ t, s.threads t = .idle) :
    s.shared.cache.Owned ∧
      s.shared.cache.freePageCnt + s.shared.cache.live.length + s.shared.cache.delayFreeList.length = allPageCnt := by
  obtain ⟨g, good⟩ := Protocol.good_run (protocol_sound allPageCnt) (init_good allPageCnt) (may_timely timely) run
  have inv : Inv allPageCnt (s.shared, g) := good.1
  have quiet : ∀ t, g.stage t = .quiet := fun t => good.of_idle (idle t)
  have list : waiting s.shared.cache g.stage = s.shared.cache.delayFreeList := by
    rw [waiting, quiet]
    rfl
  have place : ∀ a, (s.shared.cache.heap a).isSome ↔ a ∈ s.shared.cache.live ∨ At s.shared.cache g.stage .delayed a := by
    intro a
    have located := fun o => inv.custody.located o a
    rw [inv.custody.allocated, Option.isSome_iff_exists]
    constructor
    · rintro ⟨o, owner⟩
      cases o with
      | entries => exact .inl ((located .entries).mpr owner)
      | delayed => exact .inr ((located .delayed).mpr owner)
      | adding u =>
          have := (located (.adding u)).mpr owner
          simp [At, quiet, Stage.adds] at this
      | retiring u =>
          have := (located (.retiring u)).mpr owner
          simp [At, quiet, Stage.retires] at this
    · rintro (live | delayed)
      · exact ⟨_, (located .entries).mp live⟩
      · exact ⟨_, (located .delayed).mp delayed⟩
  refine ⟨⟨?_, fun a => ?_⟩, ?_⟩
  · refine List.Nodup.append inv.custody.live (list ▸ inv.custody.delayed) fun a live delayed => ?_
    have first := inv.custody.at_owner (o := .entries) live
    have second := inv.custody.at_owner (o := .delayed) (a := a) (by simpa only [At, list] using delayed)
    rw [first] at second
    cases second
  · rw [place, CachePages.State.references, List.mem_append]
    simp only [At, list]
  · have none₁ : g.uncounted = ∅ := Finset.eq_empty_of_forall_notMem fun t => by simp [inv.counted.countless, quiet]
    have none₂ : g.retiring = ∅ := Finset.eq_empty_of_forall_notMem fun t => by simp [inv.counted.retires, quiet, Stage.retires]
    have total := inv.counted.total
    simpa [none₁, none₂, quiet] using total

theorem idle_accounted_reuse : ∃ s, system.run (Threads.init 1) (refill ++ reuse) = some s ∧ s.shared.cache.Owned ∧
    s.shared.cache.freePageCnt + s.shared.cache.live.length + s.shared.cache.delayFreeList.length = 1 ∧
    s.shared.cache.live = [64] ∧ s.shared.cache.delayFreeList = [(128, 20000), (192, 40000)] := by
  obtain ⟨m, s, -, run, -, shape, -, timely⟩ := reuse_spec
  obtain ⟨first, second, -, lists⟩ := reused_eq shape
  have idle : ∀ t, s.threads t = .idle := fun t => by
    by_cases own : t = 0 ∨ t = 1
    · rcases own with rfl | rfl
      · exact first
      · exact second
    · exact system.run_other run fun a member thread => own (reuse_threads a member t thread)
  obtain ⟨owned, count⟩ := idle_accounted 1 _ s timely run idle
  exact ⟨s, run, owned, count, lists⟩

theorem added_run {s s' : Threads} {g : Ghost} {as : Schedule} (good : (protocol allPageCnt).Good system s g)
    (may : system.Throughout (protocol allPageCnt).May s as) (run : system.run s as = some s') :
    ∃ g', (protocol allPageCnt).Good system s' g' ∧
      ∀ p, g'.added p → g.added p ∨ ∃ u, Event.invoke u (Op.addToCache p) ∈ system.history s as := by
  induction as generalizing s g with
  | nil =>
      simp only [System.run, Option.some.injEq] at run
      exact ⟨g, run ▸ good, fun p => .inl⟩
  | cons a as ih =>
      obtain ⟨m, step, rest⟩ := system.run_cons.mp run
      obtain ⟨g₁, good₁, effect, -⟩ := Protocol.good_step (protocol_sound allPageCnt) good may.1 step
      obtain ⟨g₂, good₂, later⟩ := ih good₁ (may.2 m step) rest
      have first : ∀ p, g₁.added p → g.added p ∨ ∃ u, Event.invoke u (Op.addToCache p) ∈ System.events s a := by
        intro p added
        cases a with
        | invoke t op =>
            have effect : g₁.added = fun p => g.added p ∨ op = .addToCache p := effect
            rw [effect] at added
            rcases added with old | rfl
            · exact .inl old
            · exact .inr ⟨t, List.mem_singleton_self _⟩
        | advance t choice =>
            simp only [Protocol.Effect] at effect
            split at effect
            · exact .inl (effect.2.added ▸ added)
            · have same : g₁ = g := congrArg Prod.snd effect
              exact .inl (same ▸ added)
        | respond t =>
            obtain ⟨_, _, _, _, _, same⟩ := effect
            have same : g₁.added = g.added := same
            exact .inl (same ▸ added)
        | interfere e =>
            have effect : g₁.added = g.added := effect
            exact .inl (effect ▸ added)
      refine ⟨g₂, good₂, fun p added => ?_⟩
      simp only [System.history, step, List.mem_append]
      rcases later p added with now | ⟨u, invoked⟩
      · rcases first p now with old | ⟨u, invoked⟩
        · exact .inl old
        · exact .inr ⟨u, .inl invoked⟩
      · exact .inr ⟨u, .inr invoked⟩

/-- A lookup that hits routes its key by a page some call was given to add, with fences around the key. -/
theorem hit_was_added (allPageCnt : Nat) (as : Schedule) (s : Threads) (t : Tid) (k : Key) (e : EntryPtr) (a : GlobalAddress)
    (timely : system.Throughout Timely (Threads.init allPageCnt) as)
    (run : system.run (Threads.init allPageCnt) as = some s)
    (hit : s.threads t = .running (.searchFromCache k) (.ret (.found (some (e, a))))) :
    ∃ u p, Event.invoke u (Op.addToCache p) ∈ system.history (Threads.init allPageCnt) as ∧
      p.hdr.lowest ≤ k ∧ k ≤ p.hdr.highest - 1 ∧ a = p.child k := by
  obtain ⟨g, good, invoked⟩ := added_run (init_good allPageCnt) (may_timely timely) run
  obtain ⟨-, wp⟩ := good.thread hit
  have finished := wp _ (Rely.refl t _) good.1
  obtain ⟨p, added, low, high, child⟩ := finished.2 k e a rfl rfl
  rcases invoked p added with never | ⟨u, event⟩
  · exact never.elim
  · exact ⟨u, p, event, low, high, child⟩

theorem hit_was_added_refill : ∃ s, system.run (Threads.init 1) refill = some s ∧ s.shared.ptr ⟨0, 99⟩ = some 192 ∧
    ∃ u p, Event.invoke u (Op.addToCache p) ∈ system.history (Threads.init 1) refill ∧
      p.hdr.lowest ≤ 35 ∧ 35 ≤ p.hdr.highest - 1 ∧ (⟨0, 2048⟩ : GlobalAddress) = p.child 35 := by
  obtain ⟨m, s, run, -, shape, -, timely, -⟩ := reuse_spec
  obtain ⟨ptr, thread⟩ := refilled_eq shape
  exact ⟨m, run, ptr, hit_was_added 1 refill m 0 35 _ _ timely run thread⟩

end Sherman.CacheThreads
