import Sherman.SkipList.Protocol

namespace Sherman.SkipList

open Concurrency

variable {K : Type} [LinearOrder K] {t : Tid} {α β : Type} {Q : β → World K → Prop} {w : World K}

/-! ## Rules -/

theorem runs_bind {prog : Code K α} {next : α → Code K β} (h : Runs t prog (fun a w' => Runs t (next a) Q w') w) :
    Runs t (prog >>= next) Q w := Protocol.wp_bind h

theorem runs_ret {value : β} (h : ∀ w', Rely t w w' → Inv w' → Q value w') : Runs t (pure value) Q w := h

theorem runs_assert {condition : Prop} [Decidable condition] {which : Fault} {next : Unit → Code K β}
    (holds : condition) (h : Runs t (next ()) Q w) : Runs t (assert condition which >>= next) Q w := by
  have same : assert condition which >>= next = next () := Program.check_bind_of holds _ next
  rw [same]
  exact h

theorem runs_verb {v : Verb K} {next : Resp K v → Code K β}
    (h : ∀ w', Rely t w w' → Inv w' → ∀ choice r s, perform v choice w'.1 = some (r, s) →
      ∃ g, Guarantee t w' (s, g) ∧ Runs t (next r) Q (s, g)) :
    Runs t (verb v >>= next) Q w := fun w' rely inv _ choice r s step => h w' rely inv choice r s step

theorem runs_call {p : Proc K} {next : Ret K p → Code K β}
    (h : ∀ w', Rely t w w' → Inv w' → Pre t p w' ∧ ∀ r w'', Post t p w' r w'' → Runs t (next r) Q w'') :
    Runs t (call p >>= next) Q w := fun w' rely inv _ => h w' rely inv

theorem runs_tail {p : Proc K} {Q : Ret K p → World K → Prop}
    (h : ∀ w', Rely t w w' → Inv w' → Pre t p w' ∧
      ∀ r u u', Post t p w' r u → Rely t u u' → Inv u' → Q r u') :
    Runs t (call p) Q w := by
  intro w' rely inv _
  obtain ⟨pre, rest⟩ := h w' rely inv
  exact ⟨pre, fun r u post u' rely' inv' => rest r u u' post rely' inv'⟩

theorem runs_load {p : Place K} {level : Nat} {next : Option (Node K) → Code K β}
    (h : ∀ w', Rely t w w' → Inv w' → Runs t (next (w'.1.next p level)) Q w') :
    Runs t (verb (.next p level) >>= next) Q w := by
  refine runs_verb fun w' rely inv choice r s step => ?_
  simp only [perform, Option.some.injEq, Prod.mk.injEq] at step
  obtain ⟨rfl, rfl⟩ := step
  exact ⟨w'.2, .refl inv, h w' rely inv⟩

theorem runs_loadMaxHeight {next : Nat → Code K β}
    (h : ∀ w', Rely t w w' → Inv w' → Runs t (next w'.1.maxHeight) Q w') :
    Runs t (verb .loadMaxHeight >>= next) Q w := by
  refine runs_verb fun w' rely inv choice r s step => ?_
  simp only [perform, Option.some.injEq, Prod.mk.injEq] at step
  obtain ⟨rfl, rfl⟩ := step
  exact ⟨w'.2, .refl inv, h w' rely inv⟩

/-! ## Searching one level -/

variable {key : K} {p : Place K} {level : Nat}

theorem Inv.sorted (inv : Inv w) (on : p.On (w.2.linked level)) : p.Sorted (w.1.next p level) := by
  cases found : w.1.next p level with
  | none => trivial
  | some y => exact ((inv.links level).follows p y on found).2

theorem Place.LeftOf.refl (p : Place K) : p.LeftOf p := .inl rfl

theorem Place.Before.leftOf {y : Node K} {q : Place K} (less : p.Before y.key) (left : (Place.node y).LeftOf q) :
    p.LeftOf q := by
  rcases left with rfl | left
  · exact .inr less
  · cases q with
    | head => cases left
    | node v => exact .inr (less.trans left)

theorem runs_findSpliceForLevel {before : Place K} {after : Option (Node K)}
    (pre : Pre t (.findSpliceForLevel key before after level) w) :
    Runs t (findSpliceForLevel key before after level) (Post t (.findSpliceForLevel key before after level) w) w := by
  obtain ⟨on, precedes, bound⟩ := pre
  unfold findSpliceForLevel
  refine runs_load fun w₁ rely₁ inv₁ => ?_
  have on₁ := on.mono (rely₁.linked level)
  refine runs_assert (inv₁.sorted on₁) (runs_assert precedes ?_)
  have tight : Nearest w₁ level key ⟨before, w₁.1.next before level⟩ := inv₁.of_links on₁ precedes rfl
  cases found : w₁.1.next before level with
  | none =>
      refine runs_ret fun w₂ rely₂ _ => ⟨rely₁.trans rely₂, ⟨on₁.mono (rely₂.linked level), precedes, by simp⟩, .refl _, ?_⟩
      exact (found ▸ tight).mono rely₁.linked
  | some y =>
      obtain ⟨member, less⟩ := (inv₁.links level).follows before y on₁ found
      dsimp only
      split
      · rename_i stop
        have le : key ≤ y.key := by
          rcases stop with same | right
          · exact bound y same.symm
          · exact not_lt.mp right
        refine runs_ret fun w₂ rely₂ _ => ⟨rely₁.trans rely₂,
          ⟨on₁.mono (rely₂.linked level), precedes, fun z next => ?_⟩, .refl _, ?_⟩
        · cases next
          exact ⟨rely₂.linked level member, le⟩
        · exact (found ▸ tight).mono rely₁.linked
      · rename_i further
        have right : y.key < key := by
          by_contra notLess
          exact further (.inr notLess)
        refine runs_tail fun w₂ rely₂ inv₂ => ⟨⟨rely₂.linked level member, right, bound⟩, ?_⟩
        rintro r u u' ⟨rely₃, bracketed, left, nearest⟩ rely₄ -
        have rely := rely₁.trans rely₂
        exact ⟨rely.trans (rely₃.trans rely₄), bracketed.mono rely₄.linked, Place.Before.leftOf less left,
          nearest.mono rely.linked⟩

/-! ## The height -/

theorem runs_raiseMaxHeight {height maxHeight : Nat} (pre : Pre t (.raiseMaxHeight height maxHeight) w) :
    Runs t (raiseMaxHeight height maxHeight) (Post t (.raiseMaxHeight (K := K) height maxHeight) w) w := by
  obtain ⟨le, seen⟩ := pre
  unfold raiseMaxHeight
  split
  · rename_i less
    refine runs_verb fun w₁ rely₁ inv₁ choice r s step => ?_
    obtain ⟨done, now⟩ := r
    have cases : (done = true ∧ s = { w₁.1 with maxHeight := height }) ∨ (done = false ∧ now = w₁.1.maxHeight ∧ s = w₁.1) := by
      cases choice <;> simp only [perform] at step <;> (try split at step) <;>
        simp only [Option.some.injEq, Prod.mk.injEq] at step <;> grind
    rcases cases with ⟨rfl, rfl⟩ | ⟨rfl, rfl, rfl⟩
    · refine ⟨w₁.2, guarantee_maxHeight inv₁ (by omega) le, runs_ret fun w₂ rely₂ _ => ?_⟩
      exact ⟨rely₁.trans ⟨rely₂.linked, rely₂.building, rely₂.calls, rely₂.own⟩, le_rfl, le⟩
    · refine ⟨w₁.2, .refl inv₁, runs_tail fun w₂ rely₂ inv₂ => ⟨⟨le, inv₁.maxHeight.2⟩, ?_⟩⟩
      rintro r u u' ⟨rely₃, low, high⟩ rely₄ -
      exact ⟨rely₁.trans (rely₂.trans (rely₃.trans rely₄)), low, high⟩
  · rename_i enough
    exact runs_ret fun w₁ rely₁ _ => ⟨rely₁, Nat.not_lt.mp enough, seen⟩

/-! ## Inserting -/

structure Recomputed (w : World K) (key : K) (level : Nat) (splice : Nat → Bracket K) : Prop where
  bracketed : ∀ i ≤ level, Bracketed w i key (splice i)
  ordered : ∀ i < level, (splice (i + 1)).prev.LeftOf (splice i).prev ∧ RightOf (splice (i + 1)).next (splice i).next

theorem Recomputed.mono {w' : World K} {splice : Nat → Bracket K} (h : Recomputed w key level splice)
    (sub : ∀ i, w.2.linked i ⊆ w'.2.linked i) : Recomputed w' key level splice :=
  ⟨fun i le => (h.bracketed i le).mono sub, h.ordered⟩

theorem runs_recomputeSpliceLevels {splice : Nat → Bracket K} (bracketed : Bracketed w level key (splice level)) :
    Runs t (recomputeSpliceLevels key level splice) (fun splice' w' => Rely t w w' ∧
      Recomputed w' key level splice' ∧ ∀ i, level ≤ i → splice' i = splice i) w := by
  induction level generalizing w splice with
  | zero =>
      refine runs_ret fun w₁ rely₁ _ => ⟨rely₁, ⟨fun i le => ?_, fun i less => absurd less (Nat.not_lt_zero i)⟩, fun _ _ => rfl⟩
      cases Nat.le_zero.mp le
      exact bracketed.mono rely₁.linked
  | succ level ih =>
      unfold recomputeSpliceLevels
      refine runs_call fun w₁ rely₁ inv₁ => ⟨⟨(bracketed.on.mono (rely₁.linked _)).mono (inv₁.nested level),
        bracketed.before, fun y next => (bracketed.next y next).2⟩, ?_⟩
      rintro found w₂ ⟨rely₂, lower, left, nearest⟩
      refine Protocol.wp_of_rely fun w₃ rely₃ (inv₃ : Inv w₃) => ?_
      have rely : Rely t w w₃ := rely₁.trans (rely₂.trans rely₃)
      have lower₃ := lower.mono rely₃.linked
      have right : RightOf (splice (level + 1)).next found.next :=
        nearest.rightOf inv₃ lower₃ (rely₂.trans rely₃).linked fun y next =>
          ⟨inv₁.nested level (rely₁.linked _ (bracketed.next y next).1), (bracketed.next y next).2⟩
      have start : Bracketed w₃ level key (Function.update splice level found level) := by
        rw [Function.update_self]
        exact lower₃
      refine Protocol.wp_mono (ih start) fun splice' w₄ inv₄ ⟨rely₄, recomputed, above⟩ => ?_
      have top : splice' (level + 1) = splice (level + 1) := by
        rw [above (level + 1) (Nat.le_succ level), Function.update_of_ne (Nat.succ_ne_self level)]
      have next : splice' level = found := by rw [above level le_rfl, Function.update_self]
      refine ⟨rely.trans rely₄, ⟨fun i le => ?_, fun i less => ?_⟩, fun i le => ?_⟩
      · rcases Nat.le_succ_iff.mp le with below | rfl
        · exact recomputed.bracketed i below
        · rw [top]
          exact bracketed.mono (rely.trans rely₄).linked
      · rcases Nat.lt_succ_iff_lt_or_eq.mp less with below | rfl
        · exact recomputed.ordered i below
        · rw [top, next]
          exact ⟨left, right⟩
      · rw [above i (Nat.le_of_succ_le le), Function.update_of_ne (Nat.ne_of_gt le)]

theorem runs_linkLevel {x : Node K} {splice : Bracket K} {valid : Bool}
    (pre : Pre t (.linkLevel x level splice valid) w) :
    Runs t (linkLevel x level splice valid) (Post t (.linkLevel x level splice valid) w) w := by
  obtain ⟨inserting, bracketed⟩ := pre
  refine Protocol.wp_of_rely fun w₁ rely₁ (inv₁ : Inv w₁) => ?_
  have inserting₁ := inserting.rely rely₁
  have bracketed₁ := bracketed.mono rely₁.linked
  unfold linkLevel
  split
  · -- the successor has the key
    rename_i duplicate
    obtain ⟨rfl, notAfter⟩ := duplicate
    refine runs_ret fun w₂ rely₂ _ => ⟨(rely₁.trans rely₂).linked, ?_⟩
    cases found : splice.next with
    | none => simp [found, After] at notAfter
    | some y =>
        obtain ⟨member, le⟩ := bracketed₁.next y found
        simp only [found, After, not_lt] at notAfter
        exact Duplicate.rely ⟨inserting₁.calls, World.mem_keys.mpr ⟨y, member, le_antisymm notAfter le⟩⟩ rely₂
  · rename_i unique
    split
    · rename_i overshot
      exact absurd bracketed.before overshot.2
    · -- a node of a higher level with this key is the node itself, which is not there yet
      have after : After x.key splice.next := by
        by_cases lowest : level = 0
        · by_contra notAfter
          exact unique ⟨lowest, notAfter⟩
        · cases found : splice.next with
          | none => trivial
          | some y =>
              obtain ⟨member, le⟩ := bracketed₁.next y found
              refine lt_of_le_of_ne le fun same => ?_
              have levels := (inv₁.building t _ inserting₁.building).2
              have linked : x ∈ w₁.2.linked 0 := (levels 0).mpr (Nat.pos_of_ne_zero lowest)
              cases (inv₁.links 0).injective x y linked (inv₁.mono (Nat.zero_le level) member) same
              exact lt_irrefl level ((levels level).mp member)
      refine runs_assert after (runs_assert bracketed.before ?_)
      refine runs_verb fun w₂ rely₂ inv₂ choice r s step => ?_
      simp only [perform, Option.some.injEq, Prod.mk.injEq] at step
      obtain ⟨-, rfl⟩ := step
      have inserting₂ := inserting₁.rely rely₂
      refine ⟨w₂.2, guarantee_setNext inv₂ inserting₂.building _, ?_⟩
      refine runs_verb fun w₃ rely₃ inv₃ choice r s step => ?_
      have inserting₃ : Inserting t x level w₃ :=
        ⟨rely₃.building.trans inserting₂.building, rely₃.calls.trans inserting₂.calls⟩
      have linked₃ : ∀ i, w.2.linked i ⊆ w₃.2.linked i := fun i => ((rely₁.trans rely₂).linked i).trans (rely₃.linked i)
      have bracketed₃ := bracketed.mono linked₃
      have own : w₃.1.next (.node x) level = splice.next := by
        rw [rely₃.own _ inserting₂.building level le_rfl, setNext_next, if_pos ⟨rfl, rfl⟩]
      simp only [perform] at step
      split at step
      · rename_i tight
        simp only [Option.some.injEq, Prod.mk.injEq] at step
        obtain ⟨rfl, rfl⟩ := step
        have nearest : Nearest w level x.key splice := (inv₃.of_links bracketed₃.on bracketed.before tight).mono linked₃
        refine ⟨w₃.2.link t x level, guarantee_link inv₃ inserting₃ bracketed₃.on bracketed.before after tight own, ?_⟩
        refine runs_ret fun w₄ rely₄ _ => ?_
        have linked₄ : ∀ i, w₃.2.linked i ⊆ w₄.2.linked i := fun i y member =>
          rely₄.linked i (mem_link.mpr (.inl member))
        have done : Inserting t x (level + 1) w₄ := by
          refine ⟨rely₄.building.trans (Function.update_self ..), rely₄.calls.trans ?_⟩
          rw [if_neg (Nat.succ_ne_zero level)]
          by_cases lowest : level = 0
          · simp [Ghost.link, lowest]
          · simpa [Ghost.link, lowest] using inserting₃.calls
        exact ⟨fun i => (linked₃ i).trans (linked₄ i), done, bracketed₃.mono linked₄, after, nearest, fun h => ⟨h, fun _ => rfl⟩⟩
      · simp only [Option.some.injEq, Prod.mk.injEq] at step
        obtain ⟨rfl, rfl⟩ := step
        refine ⟨w₃.2, .refl inv₃, ?_⟩
        refine runs_call fun w₄ rely₄ inv₄ => ⟨⟨bracketed₃.on.mono (rely₄.linked level), bracketed.before, by simp⟩, ?_⟩
        rintro found w₅ ⟨rely₅, again, -, -⟩
        refine runs_tail fun w₆ rely₆ inv₆ =>
          ⟨⟨inserting₃.rely (rely₄.trans (rely₅.trans rely₆)), again.mono rely₆.linked⟩, ?_⟩
        rintro r u u' ⟨linked₇, post⟩ rely₇ -
        have linked₆ : ∀ i, w.2.linked i ⊆ w₆.2.linked i := fun i =>
          (linked₃ i).trans ((rely₄.trans (rely₅.trans rely₆)).linked i)
        refine ⟨fun i => (linked₆ i).trans ((linked₇ i).trans (rely₇.linked i)), ?_⟩
        cases r with
        | none => exact Duplicate.rely post rely₇
        | some pair =>
            obtain ⟨linked, valid'⟩ := pair
            obtain ⟨done, bracketed', after', nearest, kept⟩ := post
            refine ⟨done.rely rely₇, bracketed'.mono rely₇.linked, after', nearest.mono linked₆, fun h => ?_⟩
            obtain ⟨both, -⟩ := kept h
            simp only [Bool.and_eq_true, beq_iff_eq] at both
            exact ⟨both.1, fun upper => absurd both.2 upper⟩

structure Progress (t : Tid) (x : Node K) (level top : Nat) (splice : Nat → Bracket K) (valid : Bool) (w : World K) :
    Prop where
  inserting : Inserting t x level w
  upper : ∀ i, level ≤ i → i ≤ top → Bracketed w i x.key (splice i)
  lower : ∀ i < level, After x.key (splice i).next
  left : ∀ i, level ≤ i → i < top → (splice (i + 1)).prev.LeftOf (splice i).prev
  right : valid = true → ∀ i < top, RightOf (splice (i + 1)).next (splice i).next
  head : splice top = ⟨.head, none⟩

theorem Progress.rely {x : Node K} {top : Nat} {splice : Nat → Bracket K} {valid : Bool} {w' : World K}
    (h : Progress t x level top splice valid w) (rely : Rely t w w') : Progress t x level top splice valid w' :=
  ⟨h.inserting.rely rely, fun i low high => (h.upper i low high).mono rely.linked, h.lower, h.left, h.right, h.head⟩

theorem Progress.step {x : Node K} {top : Nat} {splice : Nat → Bracket K} {valid valid' : Bool} {linked : Bracket K}
    {w' : World K} (h : Progress t x level top splice valid w) (below : level < top) (inv : Inv w) (inv' : Inv w')
    (sub : ∀ i, w.2.linked i ⊆ w'.2.linked i) (inserting : Inserting t x (level + 1) w')
    (bracketed : Bracketed w' level x.key linked) (after : After x.key linked.next)
    (nearest : Nearest w level x.key linked)
    (kept : valid' = true → valid = true ∧ (level ≠ 0 → linked = splice level)) :
    Progress t x (level + 1) top (Function.update splice level linked) valid' w' := by
  have above : ∀ i, level + 1 ≤ i → Function.update splice level linked i = splice i := fun i le =>
    Function.update_of_ne (by omega) _ _
  refine ⟨inserting, fun i low high => ?_, fun i less => ?_, fun i low high => ?_, fun still i less => ?_, ?_⟩
  · rw [above i low]
    exact (h.upper i (Nat.le_of_succ_le low) high).mono sub
  · by_cases same : i = level
    · subst same
      rw [Function.update_self]
      exact after
    · rw [Function.update_of_ne same]
      exact h.lower i (by omega)
  · rw [above i low, above (i + 1) (by omega)]
    exact h.left i (by omega) high
  · obtain ⟨before, kept⟩ := kept still
    by_cases same : i = level
    · subst same
      rw [Function.update_self, above (i + 1) le_rfl]
      have upper := h.upper (i + 1) (Nat.le_succ i) below
      exact nearest.rightOf inv' bracketed sub fun y next =>
        ⟨inv.nested i (upper.next y next).1, (upper.next y next).2⟩
    · rw [Function.update_of_ne same]
      by_cases next : i + 1 = level
      · subst next
        rw [Function.update_self, kept (Nat.succ_ne_zero i)]
        exact h.right before i less
      · rw [Function.update_of_ne next]
        exact h.right before i less
  · rw [above top below]
    exact h.head

theorem runs_linkLevels {x : Node K} {remaining top : Nat} {splice : Nat → Bracket K} {valid : Bool}
    (h : Progress t x level top splice valid w) (fits : level + remaining ≤ top) :
    Runs t (linkLevels x remaining level splice valid) (fun r w' => match r with
      | none => Duplicate t x.key w'
      | some (splice', valid') => Progress t x (level + remaining) top splice' valid' w') w := by
  induction remaining generalizing w level splice valid with
  | zero => exact runs_ret fun w₁ rely₁ _ => h.rely rely₁
  | succ remaining ih =>
      unfold linkLevels
      refine runs_call fun w₁ rely₁ inv₁ => ?_
      have h₁ := h.rely rely₁
      refine ⟨⟨h₁.inserting, h₁.upper level le_rfl (by omega)⟩, ?_⟩
      rintro r w₂ ⟨linked₂, post⟩
      cases r with
      | none => exact runs_ret fun w₃ rely₃ _ => Duplicate.rely post rely₃
      | some pair =>
          obtain ⟨linked, valid'⟩ := pair
          obtain ⟨inserting, bracketed, after, nearest, kept⟩ := post
          refine Protocol.wp_of_rely fun w₃ rely₃ (inv₃ : Inv w₃) => ?_
          have next : Progress t x (level + 1) top (Function.update splice level linked) valid' w₃ :=
            h₁.step (by omega) inv₁ inv₃ (fun i => (linked₂ i).trans (rely₃.linked i)) (inserting.rely rely₃)
              (bracketed.mono rely₃.linked) after nearest kept
          have shift : level + 1 + remaining = level + (remaining + 1) := by omega
          have rest := ih next (by omega)
          rw [shift] at rest
          exact rest

theorem Progress.spliceOk {x : Node K} {height top : Nat} {splice : Nat → Bracket K}
    (h : Progress t x height top splice true w) (inv : Inv w) (pos : 1 ≤ height) (le : height ≤ top) :
    SpliceOk x.key top (advanceSplice x height splice) := by
  have levels := (inv.building t _ h.inserting.building).2
  have linked : x ∈ w.2.linked 0 := (levels 0).mpr pos
  have head : advanceSplice x height splice top = ⟨.head, none⟩ := (advanceSplice_high le).trans h.head
  refine ⟨congrArg Bracket.prev head, congrArg Bracket.next head, fun i less => ⟨?_, ?_, ?_, ?_⟩⟩
  · rw [advanceSplice_next]
    by_cases low : i < height
    · exact h.lower i low
    · cases found : (splice i).next with
      | none => trivial
      | some y =>
          obtain ⟨member, bound⟩ := (h.upper i (Nat.not_lt.mp low) (Nat.le_of_lt less)).next y found
          refine lt_of_le_of_ne bound fun same => low ?_
          cases (inv.links 0).injective x y linked (inv.mono (Nat.zero_le i) member) same
          exact (levels i).mp member
  · by_cases low : i < height
    · rw [advanceSplice_low low]
      exact le_refl x.key
    · rw [advanceSplice_high (Nat.not_lt.mp low)]
      exact (h.upper i (Nat.not_lt.mp low) (Nat.le_of_lt less)).before.notAfter
  · by_cases low : i < height
    · rw [advanceSplice_low low]
      by_cases next : i + 1 < height
      · rw [advanceSplice_low next]
        exact .refl _
      · rw [advanceSplice_high (Nat.not_lt.mp next)]
        exact .inr (h.upper (i + 1) (Nat.not_lt.mp next) less).before
    · rw [advanceSplice_high (Nat.not_lt.mp low), advanceSplice_high (by omega)]
      exact h.left i (Nat.not_lt.mp low) less
  · rw [advanceSplice_next, advanceSplice_next]
    exact h.right rfl i less

theorem randomHeight_pos (draws : List Nat) : 1 ≤ randomHeight draws := Nat.le_add_right 1 _

theorem growHeight_le (room : Nat) (draws : List Nat) : growHeight room draws ≤ room := by
  induction room generalizing draws with
  | zero => exact le_rfl
  | succ room ih =>
      cases draws with
      | nil => exact Nat.zero_le _
      | cons d draws =>
          rw [growHeight]
          split
          · exact Nat.succ_le_succ (ih draws)
          · exact Nat.zero_le _

theorem randomHeight_le (draws : List Nat) : randomHeight draws ≤ kMaxHeight := by
  have := growHeight_le (min kMaxHeight kMaxPossibleHeight - 1) draws
  unfold randomHeight
  simp only [kMaxHeight, kMaxPossibleHeight] at this ⊢
  omega

theorem runs_insertConcurrently (start : w.2.calls t = some (.insertConcurrently key, none)) (idle : w.2.building t = none) :
    Runs t (insertConcurrently key) (fun b w' => w'.2.calls t = some (.insertConcurrently key, some (.inserted true)) ∧ b = true ∨
      b = false ∧ Duplicate t key w') w := by
  unfold insertConcurrently
  refine runs_verb fun w₁ rely₁ inv₁ choice r s step => ?_
  cases choice with
  | none => cases step
  | spurious => cases step
  | draws numbers =>
      simp only [perform, Option.some.injEq, Prod.mk.injEq] at step
      obtain ⟨rfl, rfl⟩ := step
      refine ⟨_, guarantee_allocate key inv₁ (rely₁.building.trans idle), ?_⟩
      dsimp only
      refine runs_assert ⟨randomHeight_pos numbers, randomHeight_le numbers⟩ ?_
      refine runs_loadMaxHeight fun w₂ rely₂ inv₂ => ?_
      have inserting₂ : Inserting t ⟨w₁.1.allocated, key⟩ 0 w₂ :=
        ⟨rely₂.building.trans (Function.update_self ..), rely₂.calls.trans (rely₁.calls.trans start)⟩
      refine runs_call fun w₃ rely₃ inv₃ => ⟨⟨randomHeight_le numbers, inv₂.maxHeight.2⟩, ?_⟩
      rintro top w₄ ⟨rely₄, low, high⟩
      refine runs_assert (high.trans kMaxHeight_le) (runs_bind ?_)
      refine Protocol.wp_mono (runs_recomputeSpliceLevels ⟨trivial, trivial, by simp⟩)
        fun splice w₅ inv₅ ⟨rely₅, recomputed, above⟩ => ?_
      have progress : Progress t ⟨w₁.1.allocated, key⟩ 0 top splice true w₅ :=
        ⟨inserting₂.rely (rely₃.trans (rely₄.trans rely₅)), fun i _ le => recomputed.bracketed i le,
          fun i less => absurd less (Nat.not_lt_zero i), fun i _ less => (recomputed.ordered i less).1,
          fun _ i less => (recomputed.ordered i less).2, above top le_rfl⟩
      refine runs_bind (Protocol.wp_mono (runs_linkLevels progress (by omega)) fun r w₆ (inv₆ : Inv w₆) post => ?_)
      cases r with
      | none => exact runs_ret fun w₇ rely₇ _ => .inr ⟨rfl, Duplicate.rely post rely₇⟩
      | some pair =>
          obtain ⟨splice', valid⟩ := pair
          dsimp only at post ⊢
          rw [Nat.zero_add] at post
          have finish : ∀ w', Rely t w₆ w' → w'.2.calls t = some (.insertConcurrently key, some (.inserted true)) := by
            intro w' rely
            have calls := (post.inserting.rely rely).calls
            rwa [if_neg (Nat.ne_of_gt (randomHeight_pos numbers))] at calls
          cases valid with
          | false => exact runs_ret fun w₇ rely₇ _ => .inl ⟨finish w₇ rely₇, rfl⟩
          | true =>
              refine runs_assert (post.spliceOk inv₆ (randomHeight_pos numbers) low) ?_
              exact runs_ret fun w₇ rely₇ _ => .inl ⟨finish w₇ rely₇, rfl⟩

/-! ## Seeking -/

theorem guarantee_seek {s : Shared K} {g : Ghost K} (inv : Inv (s, g)) (running : g.calls t = some (.seek key, none))
    {r : Option K} (answer : leastFrom (World.keys (s, g)) key = r) :
    Guarantee t (s, g) (s, { g with calls := Function.update g.calls t (some (.seek key, some (.key r))) }) := by
  refine ⟨⟨inv.links, inv.nested, inv.maxHeight, inv.allocated, inv.building, inv.own⟩, fun u ne =>
    ⟨fun _ => subset_rfl, rfl, Function.update_of_ne ne _ _, fun _ _ _ _ => rfl⟩, ?_, fun u => ?_⟩
  · subst answer
    exact .effect (t := t) running
  · by_cases same : u = t
    · subst same
      simp [running]
    · simp [Function.update_of_ne same]

theorem Inv.leastFrom_here (inv : Inv w) {y : Node K} (member : y ∈ w.2.linked level) (same : y.key = key) :
    leastFrom w.keys key = some y.key :=
  leastFrom_eq_some (World.mem_keys.mpr ⟨y, inv.mono (Nat.zero_le level) member, rfl⟩) same.ge
    fun _ _ le => same.trans_le le

theorem Inv.leastFrom_next (inv : Inv w) (on : p.On (w.2.linked 0)) (before : p.Before key)
    (after : ∀ y, w.1.next p 0 = some y → key ≤ y.key) :
    leastFrom w.keys key = (w.1.next p 0).map Node.key := by
  have nearest : Nearest w 0 key ⟨p, w.1.next p 0⟩ := inv.of_links on before rfl
  cases found : w.1.next p 0 with
  | none =>
      refine leastFrom_eq_none fun k member le => ?_
      obtain ⟨z, linked, rfl⟩ := World.mem_keys.mp member
      obtain ⟨y, next, -⟩ := nearest z linked le
      rw [found] at next
      cases next
  | some y =>
      refine leastFrom_eq_some (World.mem_keys.mpr ⟨y, ((inv.links 0).follows p y on found).1, rfl⟩) (after y found) ?_
      intro k member le
      obtain ⟨z, linked, rfl⟩ := World.mem_keys.mp member
      obtain ⟨y', next, least⟩ := nearest z linked le
      rw [found] at next
      cases next
      exact least

theorem runs_findGreaterOrEqual {lastBigger : Option (Node K)}
    (pre : Pre t (.findGreaterOrEqual key p level lastBigger) w) :
    Runs t (findGreaterOrEqual key p level lastBigger) (Post t (.findGreaterOrEqual key p level lastBigger) w) w := by
  obtain ⟨on, before, bigger, running⟩ := pre
  unfold findGreaterOrEqual
  refine runs_verb fun w₁ rely₁ inv₁ choice r s step => ?_
  simp only [perform, Option.some.injEq, Prod.mk.injEq] at step
  obtain ⟨rfl, rfl⟩ := step
  have on₁ := on.mono (rely₁.linked level)
  have running₁ : w₁.2.calls t = some (.seek key, none) := rely₁.calls.trans running
  have sorted := inv₁.sorted on₁
  -- the search ends here, or goes down a level
  have descend : (∀ y, w₁.1.next p level = some y → key < y.key) → ∃ g, Guarantee t w₁ (w₁.1, g) ∧
      Runs t (if level = 0 then pure (w₁.1.next p level) else call (.findGreaterOrEqual key p (level - 1) (w₁.1.next p level)))
        (Post t (.findGreaterOrEqual key p level lastBigger) w) (w₁.1, g) := by
    intro above
    by_cases lowest : level = 0
    · subst lowest
      refine ⟨_, guarantee_seek inv₁ running₁ (inv₁.leastFrom_next on₁ before fun y next => le_of_lt (above y next)), ?_⟩
      rw [if_pos rfl]
      exact runs_ret fun w₂ rely₂ _ => rely₂.calls.trans (Function.update_self ..)
    · obtain ⟨lower, rfl⟩ := Nat.exists_eq_succ_of_ne_zero lowest
      refine ⟨w₁.2, .refl inv₁, ?_⟩
      rw [if_neg lowest]
      refine runs_tail fun w₂ rely₂ inv₂ => ⟨⟨(on₁.mono (inv₁.nested lower)).mono (rely₂.linked lower), before, above,
        rely₂.calls.trans running₁⟩, fun r u u' post rely₃ _ => rely₃.calls.trans post⟩
  cases found : w₁.1.next p level with
  | none =>
      obtain ⟨g, guarantee, rest⟩ := descend fun y next => by
        rw [found] at next
        cases next
      rw [found] at sorted rest
      exact ⟨g, guarantee, runs_assert sorted (runs_assert before rest)⟩
  | some y =>
      have member := ((inv₁.links level).follows p y on₁ found).1
      rw [found] at sorted descend
      by_cases last : some y = lastBigger
      · obtain ⟨g, guarantee, rest⟩ := descend fun _ next => by
          cases next
          exact bigger y last.symm
        refine ⟨g, guarantee, runs_assert sorted (runs_assert before ?_)⟩
        simp only [if_pos last]
        exact rest
      · cases cmp : compare y.key key with
        | lt =>
            refine ⟨w₁.2, .refl inv₁, runs_assert sorted (runs_assert before ?_)⟩
            simp only [if_neg last, cmp]
            refine runs_tail fun w₂ rely₂ inv₂ => ⟨⟨rely₂.linked level member, compare_lt_iff_lt.mp cmp, bigger,
              rely₂.calls.trans running₁⟩, fun r u u' post rely₃ _ => rely₃.calls.trans post⟩
        | eq =>
            have same := compare_eq_iff_eq.mp cmp
            refine ⟨_, guarantee_seek inv₁ running₁ (inv₁.leastFrom_here member same), runs_assert sorted (runs_assert before ?_)⟩
            simp only [if_neg last, cmp]
            exact runs_ret fun w₂ rely₂ _ => rely₂.calls.trans (Function.update_self ..)
        | gt =>
            obtain ⟨g, guarantee, rest⟩ := descend fun z next => by
              cases next
              exact compare_gt_iff_gt.mp cmp
            refine ⟨g, guarantee, runs_assert sorted (runs_assert before ?_)⟩
            simp only [if_neg last, cmp]
            exact rest

theorem runs_seek (start : w.2.calls t = some (.seek key, none)) :
    Runs t (seek key) (fun r w' => w'.2.calls t = some (.seek key, some (.key r))) w := by
  unfold seek
  refine runs_loadMaxHeight fun w₁ rely₁ inv₁ => ?_
  refine runs_call fun w₂ rely₂ inv₂ => ⟨⟨trivial, trivial, by simp, (rely₁.trans rely₂).calls.trans start⟩, ?_⟩
  intro r w₃ post
  exact runs_ret fun w₄ rely₄ _ => rely₄.calls.trans post

/-! ## Soundness -/

def Ghost.leave (g : Ghost K) (t : Tid) : Ghost K where
  linked := g.linked
  building := Function.update g.building t none
  calls := Function.update g.calls t none

theorem Inv.leave (inv : Inv w) : Inv (w.1, w.2.leave t) := by
  have old : ∀ u b, (w.2.leave t).building u = some b → w.2.building u = some b := by
    intro u b building
    by_cases same : u = t
    · subst same
      simp [Ghost.leave] at building
    · simpa [Ghost.leave, same] using building
  exact ⟨inv.links, inv.nested, inv.maxHeight, inv.allocated, fun u b building => inv.building u b (old u b building),
    fun u v b c h h' => inv.own u v b c (old u b h) (old v c h')⟩

theorem protocol_sound (K : Type) [LinearOrder K] : (protocol K).Sound (system K) where
  guar_inv _ _ _ _ h := h.inv
  guar_rely _ _ _ _ h := h.others
  guar_active t _ _ _ _ h active := (h.op t).trans active
  rely_active _ _ _ _ h active := (congrArg (Option.map Prod.fst) h.calls).trans active
  rely_idle _ _ _ h idle := ⟨h.calls.trans idle.1, h.building.trans idle.2⟩
  invoke t op w inv idle _ := by
    refine ⟨{ w.2 with calls := Function.update w.2.calls t (some (op, none)) },
      ⟨inv.links, inv.nested, inv.maxHeight, inv.allocated, inv.building, inv.own⟩, fun u ne =>
      ⟨fun _ => subset_rfl, rfl, Function.update_of_ne ne _ _, fun _ _ _ _ => rfl⟩, ⟨idle.1, rfl, rfl⟩, ?_,
      Function.update_self .., idle.2⟩
    simp [protocol]
  respond t op r w inv active finished _ := by
    refine ⟨w.2.leave t, inv.leave, fun u ne => ⟨fun _ => subset_rfl, Function.update_of_ne ne _ _,
      Function.update_of_ne ne _ _, fun _ _ _ _ => rfl⟩, ?_, Function.update_self .., Function.update_self ..⟩
    rcases finished with done | ⟨key, rfl, rfl, running, member⟩
    · exact ⟨w.2.calls, .unseen, done, rfl⟩
    · -- the insert of a duplicate takes effect now
      have effect : Effects Op.apply (World.keys w) (World.calls w) _ _ := .effect running
      simp only [Op.apply, Finset.insert_eq_of_mem member, member, not_true_eq_false, decide_false] at effect
      refine ⟨_, effect, Function.update_self .., ?_⟩
      exact (Function.update_idem ..).symm
  interfere e := e.elim
  main t op w inv active started := by
    cases op with
    | insertConcurrently key =>
        refine runs_bind (Protocol.wp_mono (runs_insertConcurrently started.1 started.2) fun b w₁ inv₁ post => ?_)
        refine runs_ret fun w₂ rely₂ _ => ?_
        rcases post with ⟨done, rfl⟩ | ⟨rfl, duplicate⟩
        · exact .inl (rely₂.calls.trans done)
        · exact .inr ⟨key, rfl, rfl, duplicate.rely rely₂⟩
    | seek key =>
        refine runs_bind (Protocol.wp_mono (runs_seek started.1) fun r w₁ inv₁ post => ?_)
        exact runs_ret fun w₂ rely₂ _ => .inl (rely₂.calls.trans post)
  proc t p w inv pre _ := by
    cases p with
    | raiseMaxHeight height maxHeight => exact runs_raiseMaxHeight pre
    | linkLevel x level splice valid => exact runs_linkLevel pre
    | findSpliceForLevel key before after level => exact runs_findSpliceForLevel pre
    | findGreaterOrEqual key x level lastBigger => exact runs_findGreaterOrEqual pre

end Sherman.SkipList
