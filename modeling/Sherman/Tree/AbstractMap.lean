import Sherman.Tree.Invariant

namespace Sherman

abbrev KeyMap := Key → Option Value

/-- The sequential specification. Inserting the null value unbinds the key. -/
def Op.apply : Op → KeyMap → Result × KeyMap
  | .insert k v, m => (.done, Function.update m k (if v = kValueNull then none else some v))
  | .del k, m => (.done, Function.update m k none)
  | .search k, m => (.value (m k), m)

def Op.Effect (op : Op) (r : Result) (before after : Key → Value → Prop) : Prop :=
  match op with
  | .insert k v => r = .done ∧ Rebinds k v before after
  | .del k => r = .done ∧ Rebinds k kValueNull before after
  | .search k => after = before ∧
      ((∃ v, r = .value (some v) ∧ before k v) ∨ (r = .value none ∧ ∀ v, ¬ before k v))

def Represents (bindings : Key → Value → Prop) (m : KeyMap) : Prop :=
  ∀ k v, bindings k v ↔ m k = some v

theorem Rebinds.represents {before after : Key → Value → Prop} {m : KeyMap} {k : Key} {v : Value}
    (h : Rebinds k v before after) (rep : Represents before m) :
    Represents after (Function.update m k (if v = kValueNull then none else some v)) := by
  intro k' v'
  rw [h k' v', rep k' v']
  by_cases same : k' = k
  · subst same
    by_cases null : v = kValueNull
    · simp [null]
    · simp [null, eq_comm]
  · simp [same]

theorem Op.Effect.apply {op : Op} {r : Result} {before after : Key → Value → Prop} {m : KeyMap}
    (h : op.Effect r before after) (rep : Represents before m) :
    (op.apply m).1 = r ∧ Represents after (op.apply m).2 := by
  cases op with
  | insert k v => exact ⟨h.1.symm, h.2.represents rep⟩
  | del k => exact ⟨h.1.symm, h.2.represents rep⟩
  | search k =>
      obtain ⟨rfl, h⟩ := h
      refine ⟨?_, rep⟩
      rcases h with ⟨v, rfl, bound⟩ | ⟨rfl, unbound⟩
      · exact congrArg Result.value ((rep k v).mp bound)
      · refine congrArg Result.value (Option.eq_none_iff_forall_not_mem.mpr fun v hv => ?_)
        exact unbound v ((rep k v).mpr hv)

theorem Rebinds.local {k : Key} {v : Value} {part part' rest : Key → Value → Prop}
    (h : Rebinds k v part part') (others : ∀ v', ¬ rest k v') :
    Rebinds k v (fun k' v' => part k' v' ∨ rest k' v') (fun k' v' => part' k' v' ∨ rest k' v') := by
  intro k' v'
  have := h k' v'
  by_cases same : k' = k
  · subst same
    simp [this, others v']
  · simp [this, same]

theorem Rebinds.unbound {k : Key} {bindings : Key → Value → Prop} (h : ∀ v, ¬ bindings k v) :
    Rebinds k kValueNull bindings bindings := by
  intro k' v'
  by_cases same : k' = k
  · subst same
    simp [h v']
  · simp [same]

theorem Rebinds.congr {k : Key} {v : Value} {before after before' after' : Key → Value → Prop}
    (h : Rebinds k v before after) (sameBefore : ∀ k v, before' k v ↔ before k v)
    (sameAfter : ∀ k v, after' k v ↔ after k v) : Rebinds k v before' after' := by
  intro k' v'
  rw [sameAfter, sameBefore]
  exact h k' v'

def Bindings (s : Shared) (g : Ghost) (k : Key) (v : Value) : Prop :=
  ∃ a p, g.owner a = none ∧ s.view a = some (.leaf p) ∧ p.Holds k v

theorem TreeInv.bindings_iff {s : Shared} {g : Ghost} (inv : TreeInv s g) {a : GlobalAddress}
    {p : LeafPage} {k : Key} (view : s.view a = some (.leaf p)) (linked : g.owner a = none)
    (low : p.hdr.lowest ≤ k) (high : k < p.hdr.highest) (v : Value) :
    Bindings s g k v ↔ p.Holds k v := by
  constructor
  · rintro ⟨b, q, linkedB, viewB, holds⟩
    have okA : p.Ok := (inv.view_sound a _ view).ok
    have okB : q.Ok := (inv.view_sound b _ viewB).ok
    obtain ⟨lowB, highB⟩ := okB.holds_range holds
    have same := inv.page_unique view linked viewB linkedB (okA.level.trans okB.level.symm) low high
      lowB highB
    subst same
    rw [view, Option.some.injEq, Page.leaf.injEq] at viewB
    exact viewB ▸ holds
  · exact fun holds => ⟨a, p, linked, view, holds⟩

end Sherman
