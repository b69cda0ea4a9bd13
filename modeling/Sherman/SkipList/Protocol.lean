import Sherman.SkipList.Invariant

namespace Sherman.SkipList

open Concurrency

variable {K : Type} [LinearOrder K]

/-! ## Contracts -/

structure Bracketed (w : World K) (level : Nat) (key : K) (b : Bracket K) : Prop where
  on : b.prev.On (w.2.linked level)
  before : b.prev.Before key
  next : ∀ y, b.next = some y → y ∈ w.2.linked level ∧ key ≤ y.key

def Nearest (w : World K) (level : Nat) (key : K) (b : Bracket K) : Prop :=
  ∀ z ∈ w.2.linked level, key ≤ z.key → ∃ y, b.next = some y ∧ y.key ≤ z.key

/-- Thread `t` inserts `x`, which is linked below `level`. It takes effect at the lowest level. -/
structure Inserting (t : Tid) (x : Node K) (level : Nat) (w : World K) : Prop where
  building : w.2.building t = some ⟨x, level⟩
  calls : w.2.calls t = some (.insertConcurrently x.key, if level = 0 then none else some (.inserted true))

def Duplicate (t : Tid) (key : K) (w : World K) : Prop :=
  w.2.calls t = some (.insertConcurrently key, none) ∧ key ∈ w.keys

def Pre (t : Tid) : Proc K → World K → Prop
  | .raiseMaxHeight height maxHeight, _ => height ≤ kMaxHeight ∧ maxHeight ≤ kMaxHeight
  | .linkLevel x level splice _, w => Inserting t x level w ∧ Bracketed w level x.key splice
  | .findSpliceForLevel key before after level, w =>
      before.On (w.2.linked level) ∧ before.Before key ∧ ∀ y, after = some y → key ≤ y.key
  | .findGreaterOrEqual key x level lastBigger, w =>
      x.On (w.2.linked level) ∧ x.Before key ∧ (∀ y, lastBigger = some y → key < y.key) ∧
        w.2.calls t = some (.seek key, none)

def Post (t : Tid) : (p : Proc K) → World K → Ret K p → World K → Prop
  | .raiseMaxHeight height _, w, r, w' => Rely t w w' ∧ height ≤ r ∧ r ≤ kMaxHeight
  | .linkLevel x level splice valid, w, r, w' => (∀ i, w.2.linked i ⊆ w'.2.linked i) ∧
      match r with
      | none => Duplicate t x.key w'
      | some (linked, valid') => Inserting t x (level + 1) w' ∧ Bracketed w' level x.key linked ∧
          After x.key linked.next ∧ Nearest w level x.key linked ∧
          (valid' = true → valid = true ∧ (level ≠ 0 → linked = splice))
  | .findSpliceForLevel key before _ level, w, r, w' =>
      Rely t w w' ∧ Bracketed w' level key r ∧ before.LeftOf r.prev ∧ Nearest w level key r
  | .findGreaterOrEqual key _ _ _, _, r, w' => w'.2.calls t = some (.seek key, some (.key (r.map Node.key)))

def protocol (K : Type) [LinearOrder K] : Protocol (signature K) Tid (Op K) (Result K) (Shared K) (Ghost K) Empty where
  inv := Inv
  rely := Rely
  rely_refl := Rely.refl
  rely_trans _ _ _ _ := Rely.trans
  tolerates _ := False
  mayVerb _ _ _ := True
  mayCall _ _ _ := True
  mayInvoke _ _ _ := True
  mayRespond _ _ := True
  guar t _ := Guarantee t
  onInvoke t op (w w' : World K) := w.2.calls t = none ∧ w'.keys = w.keys ∧
    w'.calls = Function.update w.calls t (some (op, none))
  onRespond t op r (w w' : World K) := ∃ calls', Effects Op.apply w.keys w.calls w'.keys calls' ∧
    calls' t = some (op, some r) ∧ w'.calls = Function.update calls' t none
  onInterfere e _ _ := e.elim
  pre := Pre
  post := Post
  idle t w := w.2.calls t = none ∧ w.2.building t = none
  active t op w := (w.2.calls t).map Prod.fst = some op
  started t op w := w.2.calls t = some (op, none) ∧ w.2.building t = none
  finished t op r w := w.2.calls t = some (op, some r) ∨
    ∃ key, op = .insertConcurrently key ∧ r = .inserted false ∧ Duplicate t key w

abbrev Runs (t : Tid) {α : Type} (prog : Code K α) (Q : α → World K → Prop) (w : World K) : Prop :=
  (protocol K).wp (system K) t prog Q w

/-! ## What is kept -/

variable {t : Tid} {w w' : World K} {level : Nat} {key : K} {b : Bracket K} {x : Node K}

theorem Bracketed.mono (h : Bracketed w level key b) (sub : ∀ i, w.2.linked i ⊆ w'.2.linked i) :
    Bracketed w' level key b :=
  ⟨h.on.mono (sub level), h.before, fun y next => ⟨sub level (h.next y next).1, (h.next y next).2⟩⟩

theorem Nearest.mono (h : Nearest w' level key b) (sub : ∀ i, w.2.linked i ⊆ w'.2.linked i) :
    Nearest w level key b := fun z member le => h z (sub level member) le

omit [LinearOrder K] in
theorem Inserting.rely (h : Inserting t x level w) (rely : Rely t w w') : Inserting t x level w' :=
  ⟨rely.building.trans h.building, rely.calls.trans h.calls⟩

theorem World.keys_mono (sub : w.2.linked 0 ⊆ w'.2.linked 0) : w.keys ⊆ w'.keys := Finset.image_subset_image sub

theorem Duplicate.rely (h : Duplicate t key w) (rely : Rely t w w') : Duplicate t key w' :=
  ⟨rely.calls.trans h.1, World.keys_mono (rely.linked 0) h.2⟩

theorem Inv.of_links (inv : Inv w) (on : b.prev.On (w.2.linked level)) (before : b.prev.Before key)
    (tight : w.1.next b.prev level = b.next) : Nearest w level key b := by
  intro z member le
  have beforeZ : b.prev.Before z.key := by
    rcases lt_or_eq_of_le le with less | rfl
    · exact before.trans less
    · exact before
  obtain ⟨y, found, least⟩ := (inv.links level).least b.prev z on member beforeZ
  exact ⟨y, tight.symm.trans found, least⟩

theorem Nearest.rightOf (inv : Inv w') {c : Bracket K} (nearest : Nearest w level key b)
    (lower : Bracketed w' level key b) (sub : ∀ i, w.2.linked i ⊆ w'.2.linked i)
    (upper : ∀ y, c.next = some y → y ∈ w.2.linked level ∧ key ≤ y.key) : RightOf c.next b.next := by
  cases found : c.next with
  | none =>
      cases b.next with
      | none => exact .inl rfl
      | some y => exact .inr trivial
  | some z =>
      obtain ⟨member, le⟩ := upper z found
      obtain ⟨y, next, least⟩ := nearest z member le
      rw [next]
      rcases lt_or_eq_of_le least with less | same
      · exact .inr less
      · exact .inl (congrArg some ((inv.links level).injective z y (sub level member) (lower.next y next).1 same.symm))

/-! ## Steps -/

variable {s : Shared K} {g : Ghost K}

theorem guarantee_allocate (key : K) (inv : Inv (s, g)) (idle : g.building t = none) :
    Guarantee t (s, g) ({ s with allocated := s.allocated + 1 },
      { g with building := Function.update g.building t (some ⟨⟨s.allocated, key⟩, 0⟩) }) := by
  have fresh : ∀ i, (⟨s.allocated, key⟩ : Node K) ∉ g.linked i := fun i member =>
    lt_irrefl _ (inv.allocated i _ member)
  have other : ∀ u c, g.building u = some c → c.node ≠ ⟨s.allocated, key⟩ := fun u c building same => by
    have := (inv.building u c building).1
    rw [same] at this
    exact lt_irrefl _ this
  refine ⟨⟨inv.links, inv.nested, inv.maxHeight, fun i x member => Nat.lt_succ_of_lt (inv.allocated i x member),
    fun u c building => ?_, fun u v c d buildingC buildingD same => ?_⟩, fun u ne => ?_, .unseen, fun _ => rfl⟩
  · by_cases own : u = t
    · subst own
      simp only [Function.update_self, Option.some.injEq] at building
      subst building
      exact ⟨Nat.lt_succ_self _, fun i => ⟨fun member => absurd member (fresh i), fun less => absurd less (Nat.not_lt_zero i)⟩⟩
    · simp only [Function.update_of_ne own] at building
      exact ⟨Nat.lt_succ_of_lt (inv.building u c building).1, (inv.building u c building).2⟩
  · by_cases ownU : u = t
    · by_cases ownV : v = t
      · exact ownU.trans ownV.symm
      · subst ownU
        simp only [Function.update_self, Option.some.injEq, Function.update_of_ne ownV] at buildingC buildingD
        subst buildingC
        exact absurd same.symm (other v d buildingD)
    · by_cases ownV : v = t
      · subst ownV
        simp only [Function.update_self, Option.some.injEq, Function.update_of_ne ownU] at buildingC buildingD
        subst buildingD
        exact absurd same (other u c buildingC)
      · simp only [Function.update_of_ne ownU, Function.update_of_ne ownV] at buildingC buildingD
        exact inv.own u v c d buildingC buildingD same
  · exact ⟨fun _ => subset_rfl, Function.update_of_ne ne _ _, rfl, fun _ _ _ _ => rfl⟩

theorem guarantee_maxHeight (inv : Inv (s, g)) {height : Nat} (pos : 1 ≤ height) (le : height ≤ kMaxHeight) :
    Guarantee t (s, g) ({ s with maxHeight := height }, g) :=
  ⟨⟨inv.links, inv.nested, ⟨pos, le⟩, inv.allocated, inv.building, inv.own⟩,
    fun _ _ => ⟨fun _ => subset_rfl, rfl, rfl, fun _ _ _ _ => rfl⟩, .unseen, fun _ => rfl⟩

theorem setNext_next (s : Shared K) (p : Place K) (level : Nat) (n : Option (Node K)) (q : Place K) (i : Nat) :
    (s.setNext p level n).next q i = if q = p ∧ i = level then n else s.next q i := by
  unfold Shared.setNext
  by_cases place : q = p
  · subst place
    by_cases same : i = level
    · subst same
      simp
    · simp [same]
  · simp [place]

theorem guarantee_setNext (inv : Inv (s, g)) (inserting : g.building t = some ⟨x, level⟩) (n : Option (Node K)) :
    Guarantee t (s, g) (s.setNext (.node x) level n, g) := by
  have outside : x ∉ g.linked level := fun member =>
    lt_irrefl level (((inv.building t _ inserting).2 level).mp member)
  refine ⟨⟨fun i => (inv.links i).congr fun p on => ?_, inv.nested, inv.maxHeight, inv.allocated, inv.building,
    inv.own⟩, fun u ne => ⟨fun _ => subset_rfl, rfl, rfl, fun c building i le => ?_⟩, .unseen, fun _ => rfl⟩
  · rw [setNext_next, if_neg]
    rintro ⟨rfl, rfl⟩
    exact outside on
  · rw [setNext_next, if_neg]
    rintro ⟨same, -⟩
    cases same
    exact ne (inv.own u t c _ building inserting rfl)

def Ghost.link (g : Ghost K) (t : Tid) (x : Node K) (level : Nat) : Ghost K where
  linked := Function.update g.linked level (insert x (g.linked level))
  building := Function.update g.building t (some ⟨x, level + 1⟩)
  calls := if level = 0 then
      Function.update g.calls t (some (.insertConcurrently x.key, some (.inserted true)))
    else g.calls

theorem mem_link {y : Node K} {i : Nat} :
    y ∈ (g.link t x level).linked i ↔ y ∈ g.linked i ∨ (i = level ∧ y = x) := by
  by_cases same : i = level
  · subst same
    simp [Ghost.link, or_comm]
  · simp [Ghost.link, same]

theorem keys_link_zero : World.keys (s, g.link t x 0) = insert x.key (World.keys (s, g)) := by
  simp [World.keys, Ghost.link]

theorem keys_link_pos (pos : level ≠ 0) : World.keys (s, g.link t x level) = World.keys (s, g) := by
  simp [World.keys, Ghost.link, pos.symm]

theorem guarantee_link (inv : Inv (s, g)) (inserting : Inserting t x level (s, g)) (on : b.prev.On (g.linked level))
    (before : b.prev.Before x.key) (after : After x.key b.next) (tight : s.next b.prev level = b.next)
    (own : s.next (.node x) level = b.next) :
    Guarantee t (s, g) (s.setNext b.prev level (some x), g.link t x level) := by
  obtain ⟨address, levels⟩ := inv.building t _ inserting.building
  have outside : x ∉ g.linked level := fun member => lt_irrefl level ((levels level).mp member)
  have links := (inv.links level).link on before (tight.symm ▸ after) outside (own.trans tight.symm)
  refine ⟨⟨fun i => ?_, fun i y member => ?_, inv.maxHeight, fun i y member => ?_, fun u c building => ?_,
    fun u v c d buildingC buildingD same => ?_⟩, fun u ne => ⟨fun i y member => mem_link.mpr (.inl member), ?_, ?_,
    fun c building i le => ?_⟩, ?_, fun u => ?_⟩
  · by_cases same : i = level
    · subst same
      have next : (fun p => (s.setNext b.prev i (some x)).next p i) = Function.update (fun p => s.next p i) b.prev (some x) := by
        funext p
        simp [setNext_next, Function.update_apply]
      have linked : (g.link t x i).linked i = insert x (g.linked i) := Function.update_self ..
      rw [linked]
      exact next ▸ links
    · have others : (g.link t x level).linked i = g.linked i := Function.update_of_ne same _ _
      rw [others]
      exact (inv.links i).congr fun p _ => by rw [setNext_next, if_neg fun h => same h.2]
  · rcases mem_link.mp member with old | ⟨next, rfl⟩
    · exact mem_link.mpr (.inl (inv.nested i old))
    · exact mem_link.mpr (.inl ((levels i).mpr (next ▸ Nat.lt_succ_self i)))
  · rcases mem_link.mp member with old | ⟨-, rfl⟩
    · exact inv.allocated i y old
    · exact address
  · by_cases same : u = t
    · subst same
      simp only [Ghost.link, Function.update_self, Option.some.injEq] at building
      subst building
      refine ⟨address, fun i => ?_⟩
      rw [mem_link, levels i]
      simp only [and_true]
      omega
    · simp only [Ghost.link, Function.update_of_ne same] at building
      refine ⟨(inv.building u c building).1, fun i => ?_⟩
      rw [mem_link, (inv.building u c building).2 i, or_iff_left]
      rintro ⟨-, node⟩
      exact same (inv.own u t c _ building inserting.building node)
  · have old : ∀ v d, (g.link t x level).building v = some d → ∃ e, g.building v = some e ∧ e.node = d.node := by
      intro v d building
      by_cases same : v = t
      · subst same
        simp only [Ghost.link, Function.update_self, Option.some.injEq] at building
        subst building
        exact ⟨_, inserting.building, rfl⟩
      · simp only [Ghost.link, Function.update_of_ne same] at building
        exact ⟨d, building, rfl⟩
    obtain ⟨c', buildingC', nodeC⟩ := old u c buildingC
    obtain ⟨d', buildingD', nodeD⟩ := old v d buildingD
    exact inv.own u v c' d' buildingC' buildingD' (nodeC.trans (same.trans nodeD.symm))
  · exact Function.update_of_ne ne _ _
  · by_cases lowest : level = 0
    · simp [Ghost.link, lowest, Function.update_of_ne ne]
    · simp [Ghost.link, lowest]
  · rw [setNext_next, if_neg]
    rintro ⟨place, rfl⟩
    rw [← place] at on
    exact absurd (((inv.building u c building).2 i).mp on) (Nat.not_lt.mpr le)
  · by_cases lowest : level = 0
    · subst lowest
      have absent : x.key ∉ World.keys (s, g) := by
        intro member
        obtain ⟨z, linked, same⟩ := World.mem_keys.mp member
        exact (inv.links 0).fresh on before (tight.symm ▸ after) linked same
      have running : World.calls (s, g) t = some (.insertConcurrently x.key, none) := inserting.calls
      have effect : Effects Op.apply (World.keys (s, g)) _ _ _ := .effect running
      simp only [Op.apply, absent, not_false_eq_true, decide_true] at effect
      rw [keys_link_zero]
      exact effect
    · rw [keys_link_pos lowest]
      have same : World.calls (s.setNext b.prev level (some x), g.link t x level) = World.calls (s, g) := by
        simp [World.calls, Ghost.link, lowest]
      rw [same]
      exact .unseen
  · by_cases lowest : level = 0
    · by_cases same : u = t
      · subst same
        subst lowest
        have running : g.calls u = some (.insertConcurrently x.key, none) := inserting.calls
        simp [Ghost.link, running]
      · simp [Ghost.link, lowest, Function.update_of_ne same]
    · simp [Ghost.link, lowest]

end Sherman.SkipList
