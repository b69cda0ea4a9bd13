import Sherman.Page.Leaf

namespace Sherman

/-- `after` is `before` with `k` bound to `v`, a null value meaning that `k` is unbound. -/
def Rebinds (k : Key) (v : Value) (before after : Key → Value → Prop) : Prop :=
  ∀ k' v', after k' v' ↔ (k' = k ∧ v' = v ∧ v ≠ kValueNull) ∨ (k' ≠ k ∧ before k' v')

namespace LeafPage

structure Ok (p : LeafPage) : Prop where
  level : p.hdr.level = 0
  leftmost : p.hdr.leftmostPtr = .null
  consistent : p.rearVersion = p.frontVersion
  fence : p.hdr.lowest < p.hdr.highest
  highest_le : p.hdr.highest ≤ kKeyMax
  versions : ∀ r ∈ p.records, r.fVersion = r.rVersion
  range : ∀ r ∈ p.records, r.value ≠ kValueNull → p.hdr.lowest ≤ r.key ∧ r.key < p.hdr.highest
  distinct : p.records.Pairwise fun r r' =>
    r.value ≠ kValueNull → r'.value ≠ kValueNull → r.key ≠ r'.key
  space : p.records.countP LeafEntry.used < kLeafCardinality

structure Full (p : LeafPage) : Prop where
  level : p.hdr.level = 0
  leftmost : p.hdr.leftmostPtr = .null
  highest_le : p.hdr.highest ≤ kKeyMax
  versions : ∀ r ∈ p.records, r.fVersion = r.rVersion
  range : ∀ r ∈ p.records, p.hdr.lowest ≤ r.key ∧ r.key < p.hdr.highest
  distinct : p.records.Pairwise fun r r' => r.key ≠ r'.key

theorem new_ok : (LeafPage.new 0).setConsistent.Ok := by
  have null : ∀ r ∈ (LeafPage.new 0).setConsistent.records, r = default := fun r hr => List.eq_of_mem_replicate hr
  refine ⟨rfl, rfl, rfl, by decide, le_rfl, fun r hr => by rw [null r hr]; rfl, fun r hr used => ?_, ?_, by decide⟩
  · rw [null r hr] at used
    exact absurd rfl used
  · exact List.pairwise_replicate.mpr (.inr fun used => absurd rfl used)

theorem Ok.holds_range {p : LeafPage} (ok : p.Ok) {k : Key} {v : Value} (h : p.Holds k v) :
    p.hdr.lowest ≤ k ∧ k < p.hdr.highest := by
  obtain ⟨nonnull, r, mem, rfl, rfl⟩ := h
  exact ok.range r mem nonnull

/-! ## Search -/

theorem Ok.search_of_holds {p : LeafPage} (ok : p.Ok) {k : Key} {v : Value} (h : p.Holds k v) :
    p.search k = v := by
  obtain ⟨nonnull, r, mem, rfl, rfl⟩ := h
  obtain ⟨l, l', split⟩ := List.append_of_mem mem
  have first : p.records.find? (fun x => x.key = r.key ∧ x.value ≠ kValueNull ∧
      x.fVersion = x.rVersion) = some r := by
    rw [split, List.find?_append, List.find?_eq_none.mpr]
    · simp [nonnull, ok.versions r mem]
    · intro x hx
      have distinct := ok.distinct
      rw [split, List.pairwise_append] at distinct
      have := distinct.2.2 x hx r (by simp)
      simp only [decide_eq_true_eq, not_and]
      exact fun same xnonnull _ => this xnonnull nonnull same
  simp only [search, first]

theorem holds_of_search {p : LeafPage} {k : Key} {v : Value} (h : p.search k = v)
    (nonnull : v ≠ kValueNull) : p.Holds k v := by
  unfold search at h
  split at h
  · rename_i r found
    have accepted := List.find?_some found
    simp only [decide_eq_true_eq] at accepted
    exact ⟨nonnull, r, List.mem_of_find?_eq_some found, accepted.1, h⟩
  · exact absurd h.symm nonnull

theorem Ok.search_eq_null {p : LeafPage} {k : Key} (h : p.search k = kValueNull) (ok : p.Ok)
    (v : Value) : ¬ p.Holds k v := by
  intro holds
  exact holds.1 ((ok.search_of_holds holds).symm.trans h)

/-! ## Writing one record -/

theorem setRecord_split {p : LeafPage} {l l' : List LeafEntry} {r : LeafEntry}
    (split : p.records = l ++ r :: l') (e : LeafEntry) :
    (p.setRecord l.length e).records = l ++ e :: l' := by
  simp [setRecord, split]

theorem getD_split {p : LeafPage} {l l' : List LeafEntry} {r : LeafEntry}
    (split : p.records = l ++ r :: l') : p.records.getD l.length default = r := by
  simp [split]

theorem holds_middle {p : LeafPage} {l l' : List LeafEntry} {e : LeafEntry}
    (split : p.records = l ++ e :: l') (k : Key) (v : Value) :
    p.Holds k v ↔ v ≠ kValueNull ∧ ((∃ r ∈ l ++ l', r.key = k ∧ r.value = v) ∨
      e.key = k ∧ e.value = v) := by
  simp only [Holds, split, List.mem_append, List.mem_cons]
  grind

theorem rewrite_rebinds {p : LeafPage} {l l' : List LeafEntry} {r : LeafEntry}
    (split : p.records = l ++ r :: l') {k : Key} {v : Value}
    (own : r.value ≠ kValueNull → r.key = k)
    (others : ∀ x ∈ l ++ l', x.value ≠ kValueNull → x.key ≠ k) :
    Rebinds k v p.Holds (p.setRecord l.length (r.rewrite k v)).Holds := by
  intro k' v'
  rw [holds_middle (setRecord_split split _), holds_middle split]
  simp only [LeafEntry.rewrite]
  grind

theorem Ok.rewrite {p : LeafPage} (ok : p.Ok) {l l' : List LeafEntry} {r : LeafEntry}
    (split : p.records = l ++ r :: l') {k : Key} {v : Value}
    (low : p.hdr.lowest ≤ k) (high : k < p.hdr.highest)
    (others : ∀ x ∈ l ++ l', x.value ≠ kValueNull → x.key ≠ k)
    (space : (l ++ l').countP LeafEntry.used + 1 < kLeafCardinality) :
    (p.setRecord l.length (r.rewrite k v)).Ok := by
  have records := setRecord_split split (r.rewrite k v)
  have old := ok.distinct
  rw [split, List.pairwise_append, List.pairwise_cons] at old
  refine ⟨ok.level, ok.leftmost, ok.consistent, ok.fence, ok.highest_le, ?_, ?_, ?_, ?_⟩
  · intro x hx
    rw [records, List.mem_append, List.mem_cons] at hx
    rcases hx with hx | rfl | hx
    · exact ok.versions x (by simp [split, hx])
    · rfl
    · exact ok.versions x (by simp [split, hx])
  · intro x hx
    rw [records, List.mem_append, List.mem_cons] at hx
    rcases hx with hx | rfl | hx
    · exact ok.range x (by simp [split, hx])
    · exact fun _ => ⟨low, high⟩
    · exact ok.range x (by simp [split, hx])
  · rw [records, List.pairwise_append, List.pairwise_cons]
    refine ⟨old.1, ⟨fun x hx _ nonnull => ?_, old.2.1.2⟩, fun x hx y hy => ?_⟩
    · exact (others x (by simp [hx]) nonnull).symm
    · rcases List.mem_cons.mp hy with rfl | hy
      · exact fun nonnull _ => others x (by simp [hx]) nonnull
      · exact old.2.2 x hx y (by simp [hy])
  · rw [records, List.countP_append, List.countP_cons]
    rw [List.countP_append] at space
    split <;> omega

theorem Ok.rewrite_full {p : LeafPage} (ok : p.Ok) {l l' : List LeafEntry} {r : LeafEntry}
    (split : p.records = l ++ r :: l') {k : Key} {v : Value}
    (low : p.hdr.lowest ≤ k) (high : k < p.hdr.highest)
    (others : ∀ x ∈ l ++ l', x.value ≠ kValueNull → x.key ≠ k)
    (used : ∀ x ∈ l ++ l', x.value ≠ kValueNull) :
    (p.setRecord l.length (r.rewrite k v)).Full := by
  have records := setRecord_split split (r.rewrite k v)
  have mem : ∀ x ∈ l ++ l', x ∈ p.records := by
    intro x hx
    rw [split]
    simp only [List.mem_append, List.mem_cons] at hx ⊢
    tauto
  have old := ok.distinct
  rw [split, List.pairwise_append, List.pairwise_cons] at old
  have inLeft : ∀ x ∈ l, x ∈ l ++ l' := fun x hx => List.mem_append.mpr (.inl hx)
  have inRight : ∀ x ∈ l', x ∈ l ++ l' := fun x hx => List.mem_append.mpr (.inr hx)
  refine ⟨ok.level, ok.leftmost, ok.highest_le, ?_, ?_, ?_⟩
  · intro x hx
    rw [records, List.mem_append, List.mem_cons] at hx
    rcases hx with hx | rfl | hx
    · exact ok.versions x (mem x (inLeft x hx))
    · rfl
    · exact ok.versions x (mem x (inRight x hx))
  · intro x hx
    rw [records, List.mem_append, List.mem_cons] at hx
    rcases hx with hx | rfl | hx
    · exact ok.range x (mem x (inLeft x hx)) (used x (inLeft x hx))
    · exact ⟨low, high⟩
    · exact ok.range x (mem x (inRight x hx)) (used x (inRight x hx))
  · rw [records, List.pairwise_append, List.pairwise_cons]
    refine ⟨?_, ⟨fun x hx => ?_, ?_⟩, fun x hx y hy => ?_⟩
    · exact old.1.imp_of_mem fun hx hy h => h (used _ (inLeft _ hx)) (used _ (inLeft _ hy))
    · exact (others x (inRight x hx) (used x (inRight x hx))).symm
    · exact old.2.1.2.imp_of_mem fun hx hy h => h (used _ (inRight _ hx)) (used _ (inRight _ hy))
    · rcases List.mem_cons.mp hy with rfl | hy
      · exact others x (inLeft x hx) (used x (inLeft x hx))
      · exact old.2.2 x hx y (by simp [hy]) (used x (inLeft x hx)) (used y (inRight y hy))

/-! ## The scan of `leaf_page_store` -/

theorem scanFrom_found {k : Key} {l : List LeafEntry} {r : LeafEntry} {l' : List LeafEntry}
    (before : ∀ x ∈ l, x.value ≠ kValueNull → x.key ≠ k) (key : r.key = k)
    (nonnull : r.value ≠ kValueNull) (i cnt : Nat) (empty : Option Nat) :
    (scanFrom k (l ++ r :: l') i cnt empty).updateIndex = some (i + l.length) ∧
      (scanFrom k (l ++ r :: l') i cnt empty).cnt =
        cnt + l.countP LeafEntry.used + 1 := by
  induction l generalizing i cnt empty with
  | nil => simp [scanFrom, key, nonnull]
  | cons x l ih =>
      have other := before x (by simp)
      have rest := ih fun y hy => before y (by simp [hy])
      by_cases hx : x.value = kValueNull
      · simp only [List.cons_append, scanFrom, hx, ne_eq, not_true_eq_false, if_false,
          List.length_cons, List.countP_cons]
        obtain ⟨h, h'⟩ := rest (i + 1) cnt (if empty = none then some i else empty)
        exact ⟨by rw [h]; congr 1; omega, by rw [h']; simp [hx]⟩
      · simp only [List.cons_append, scanFrom, hx, ne_eq, not_false_eq_true, if_true, other hx,
          if_false, List.length_cons, List.countP_cons]
        obtain ⟨h, h'⟩ := rest (i + 1) (cnt + 1) empty
        exact ⟨by rw [h]; congr 1; omega, by rw [h']; simp [hx]; omega⟩

theorem scanFrom_absent {k : Key} {l : List LeafEntry}
    (absent : ∀ x ∈ l, x.value ≠ kValueNull → x.key ≠ k) (i cnt : Nat) (empty : Option Nat) :
    scanFrom k l i cnt empty = ⟨cnt + l.countP LeafEntry.used,
      empty.or ((l.findIdx? fun r => !r.used).map (· + i)), none⟩ := by
  induction l generalizing i cnt empty with
  | nil => simp [scanFrom]
  | cons x l ih =>
      have other := absent x (by simp)
      have rest := ih fun y hy => absent y (by simp [hy])
      by_cases hx : x.value = kValueNull
      · simp only [scanFrom, hx, ne_eq, not_true_eq_false, if_false, rest]
        cases empty <;> simp [hx, List.findIdx?_cons]
      · simp only [scanFrom, hx, ne_eq, not_false_eq_true, if_true, other hx, if_false, rest]
        have count : (x :: l).countP LeafEntry.used =
            l.countP LeafEntry.used + 1 := by simp [hx]
        have shift : ((x :: l).findIdx? fun r => !r.used).map (· + i) =
            (l.findIdx? fun r => !r.used).map (· + (i + 1)) := by
          simp [List.findIdx?_cons, hx, Function.comp_def, Nat.add_assoc, Nat.add_comm 1 i]
        rw [count, shift]
        congr 1
        omega

theorem countP_lt_exists {α : Type} {q : α → Bool} {l : List α} (h : l.countP q < l.length) :
    ∃ i, l.findIdx? (fun x => !q x) = some i := by
  cases found : l.findIdx? fun x => !q x with
  | some i => exact ⟨i, rfl⟩
  | none =>
      have all : ∀ x ∈ l, q x = true := by
        intro x hx
        simpa using List.findIdx?_eq_none_iff.mp found x hx
      rw [List.countP_eq_length.mpr all] at h
      exact absurd h (lt_irrefl _)

theorem findIdx?_split {α : Type} [Inhabited α] {q : α → Bool} {l : List α} {i : Nat}
    (h : l.findIdx? q = some i) :
    ∃ a x b, l = a ++ x :: b ∧ a.length = i ∧ q x = true ∧ ∀ y ∈ a, q y = false := by
  obtain ⟨lt, hx, before⟩ := List.findIdx?_eq_some_iff_getElem.mp h
  refine ⟨l.take i, l[i], l.drop (i + 1), ?_, by simp; omega, hx, ?_⟩
  · rw [List.getElem_cons_drop, List.take_append_drop]
  · intro y hy
    obtain ⟨j, hj, rfl⟩ := List.mem_iff_getElem.mp hy
    rw [List.length_take] at hj
    simpa using before j (by omega)

structure Stored (p : LeafPage) (k : Key) (v : Value) (i : Nat) (p' : LeafPage) (n : Nat) : Prop where
  slot : ∃ r, p' = p.setRecord i r ∧ i < kLeafCardinality
  rebinds : Rebinds k v p.Holds p'.Holds
  count_le : n ≤ kLeafCardinality
  ok : n ≠ kLeafCardinality → p'.Ok
  full : n = kLeafCardinality → p'.Full

theorem Ok.store {p : LeafPage} (ok : p.Ok) {k : Key} (v : Value)
    (low : p.hdr.lowest ≤ k) (high : k < p.hdr.highest) :
    ∃ i p' n, p.store k v = .ok (i, p', n) ∧ Stored p k v i p' n := by
  have space := ok.space
  by_cases present : ∃ r ∈ p.records, r.value ≠ kValueNull ∧ r.key = k
  · obtain ⟨r, mem, nonnull, rfl⟩ := present
    obtain ⟨l, l', split⟩ := List.append_of_mem mem
    have distinct := ok.distinct
    rw [split, List.pairwise_append, List.pairwise_cons] at distinct
    have before : ∀ x ∈ l, x.value ≠ kValueNull → x.key ≠ r.key :=
      fun x hx used => distinct.2.2 x hx r (by simp) used nonnull
    have others : ∀ x ∈ l ++ l', x.value ≠ kValueNull → x.key ≠ r.key := by
      intro x hx used
      rcases List.mem_append.mp hx with hx | hx
      · exact before x hx used
      · exact (distinct.2.1.1 x hx nonnull used).symm
    obtain ⟨index, count⟩ := @scanFrom_found r.key l r l' before rfl nonnull 0 0 none
    rw [← split] at index count
    rw [split, List.countP_append, List.countP_cons] at space
    simp only [LeafEntry.used_eq_true.mpr nonnull, if_true] at space
    refine ⟨l.length, p.setRecord l.length (r.rewrite r.key v), l.countP LeafEntry.used + 1, ?_, ?_⟩
    · have notFull : l.countP LeafEntry.used + 1 ≠ kLeafCardinality := by omega
      simp only [LeafPage.store, scan, index, count, Nat.zero_add, notFull, if_false,
        getD_split split]
    · refine ⟨⟨_, rfl, ?_⟩, rewrite_rebinds split (fun _ => rfl) others, by omega,
        fun _ => ok.rewrite split low high others ?_, fun full => absurd full (by omega)⟩
      · have := p.size
        rw [split, List.length_append, List.length_cons] at this
        omega
      · rw [List.countP_append]
        omega
  · have absent : ∀ x ∈ p.records, x.value ≠ kValueNull → x.key ≠ k :=
      fun x hx used same => present ⟨x, hx, used, same⟩
    have result := scanFrom_absent absent 0 0 none
    obtain ⟨i, found⟩ := countP_lt_exists (q := LeafEntry.used) (l := p.records) (by rw [p.size]; exact space)
    obtain ⟨l, r, l', split, rfl, unused, before⟩ := findIdx?_split found
    have null : r.value = kValueNull := by simpa using unused
    have others : ∀ x ∈ l ++ l', x.value ≠ kValueNull → x.key ≠ k :=
      fun x hx => absent x (by rw [split]; simp only [List.mem_append, List.mem_cons] at hx ⊢; tauto)
    have count : p.records.countP LeafEntry.used = (l ++ l').countP LeafEntry.used := by
      rw [split, List.countP_append, List.countP_cons, List.countP_append]
      simp [null]
    refine ⟨l.length, p.setRecord l.length (r.rewrite k v), p.records.countP LeafEntry.used + 1, ?_, ?_⟩
    · simp only [LeafPage.store, scan, result, found, Nat.zero_add, space.ne, if_false, Option.none_or,
        Option.map_some, Nat.add_zero, getD_split split]
    · refine ⟨⟨_, rfl, ?_⟩, rewrite_rebinds split (fun used => absurd null used) others, by omega,
        fun notFull => ok.rewrite split low high others (by omega), fun full => ?_⟩
      · have := p.size
        rw [split, List.length_append, List.length_cons] at this
        omega
      · have length := p.size
        rw [split, List.length_append, List.length_cons] at length
        have all : (l ++ l').countP LeafEntry.used = (l ++ l').length := by
          rw [List.length_append]
          omega
        exact ok.rewrite_full split low high others
          fun x hx => LeafEntry.used_eq_true.mp (List.countP_eq_length.mp all x hx)

theorem scanFrom_lt {k : Key} (l : List LeafEntry) (j cnt : Nat) (empty : Option Nat)
    (old : ∀ i, empty = some i → i < j + l.length) :
    (∀ i, (scanFrom k l j cnt empty).emptyIndex = some i → i < j + l.length) ∧
      ∀ i, (scanFrom k l j cnt empty).updateIndex = some i → i < j + l.length := by
  induction l generalizing j cnt empty with
  | nil => exact ⟨old, nofun⟩
  | cons r rest ih =>
      rw [List.length_cons, ← Nat.add_assoc, Nat.add_right_comm] at old ⊢
      rw [scanFrom]
      split
      · split
        · refine ⟨old, fun i found => ?_⟩
          cases found
          omega
        · exact ih _ _ _ old
      · refine ih _ _ _ fun i found => ?_
        split at found
        · cases found
          omega
        · exact old i found

theorem store_lt {p q : LeafPage} {k : Key} {v : Value} {i cnt : Nat} (stored : p.store k v = .ok (i, q, cnt)) :
    i < kLeafCardinality := by
  have found := scanFrom_lt (k := k) p.records 0 0 none nofun
  rw [Nat.zero_add, p.size] at found
  unfold store at stored
  by_cases full : (p.scan k).cnt = kLeafCardinality
  · rw [if_pos full] at stored
    cases stored
  · rw [if_neg full] at stored
    cases update : (p.scan k).updateIndex with
    | some j =>
        rw [update] at stored
        cases stored
        exact found.2 i update
    | none =>
        cases empty : (p.scan k).emptyIndex with
        | some j =>
            rw [update, empty] at stored
            cases stored
            exact found.1 i empty
        | none =>
            rw [update, empty] at stored
            cases stored

/-! ## Splitting a full page -/

theorem sorted_perm (p : LeafPage) : p.sorted.Perm p.records := List.perm_insertionSort _ _

theorem Full.sorted_lt {p : LeafPage} (full : p.Full) :
    p.sorted.Pairwise fun a b => a.key < b.key := by
  have le : p.sorted.Pairwise fun a b => a.key ≤ b.key := by
    have := List.pairwise_insertionSort (fun a b : LeafEntry => a.key ≤ b.key) p.records
    exact this
  have ne : p.sorted.Pairwise fun a b => a.key ≠ b.key :=
    (sorted_perm p).symm.pairwise full.distinct fun h => h.symm
  exact le.imp₂ (fun _ _ h h' => lt_of_le_of_ne h h') ne

structure Halves (p : LeafPage) (a : GlobalAddress) (p' sibling : LeafPage) (s : Key) : Prop where
  above : p.hdr.lowest < s
  below : s < p.hdr.highest
  page_hdr : p'.hdr.lowest = p.hdr.lowest ∧ p'.hdr.highest = s ∧ p'.hdr.siblingPtr = a
  sibling_hdr : sibling.hdr.lowest = s ∧ sibling.hdr.highest = p.hdr.highest ∧
    sibling.hdr.siblingPtr = p.hdr.siblingPtr
  page_ok : p'.setConsistent.Ok
  sibling_ok : sibling.setConsistent.Ok
  holds : ∀ k v, p.Holds k v ↔ p'.Holds k v ∨ sibling.Holds k v

theorem Full.cut {p : LeafPage} (full : p.Full) : ∃ lo mid hi, p.sorted = lo ++ mid :: hi ∧
    lo.length = kLeafCardinality / 2 ∧ lo ≠ [] ∧ (∀ x ∈ lo, x.key < mid.key) ∧
    (∀ x ∈ mid :: hi, mid.key ≤ x.key) := by
  have length := p.length_sorted
  have middle : 27 < p.sorted.length := by rw [length]; decide
  have cut : p.sorted = p.sorted.take 27 ++ p.sorted[27] :: p.sorted.drop 28 := by
    rw [List.getElem_cons_drop, List.take_append_drop]
  have lengthLo : (p.sorted.take 27).length = 27 := by rw [List.length_take, length]; rfl
  have lt := full.sorted_lt
  rw [cut, List.pairwise_append, List.pairwise_cons] at lt
  refine ⟨_, _, _, cut, lengthLo, ?_, fun x hx => lt.2.2 x hx _ List.mem_cons_self,
    fun x hx => ?_⟩
  · intro empty
    rw [empty] at lengthLo
    exact absurd lengthLo (by decide)
  · rcases List.mem_cons.mp hx with rfl | hx
    · exact le_rfl
    · exact (lt.2.1.1 x hx).le

theorem Full.split {p : LeafPage} (full : p.Full) (a : GlobalAddress) :
    ∃ p' sibling s, p.split a = .ok (p', sibling, s) ∧ Halves p a p' sibling s := by
  obtain ⟨lo, mid, hi, cut, length, nonempty, below, above⟩ := full.cut
  have mem : ∀ x, x ∈ p.records ↔ x ∈ lo ∨ x ∈ mid :: hi := by
    intro x
    rw [← (sorted_perm p).mem_iff, cut, List.mem_append]
  have midMem : mid ∈ p.records := (mem mid).mpr (.inr (by simp))
  have take : p.sorted.take (kLeafCardinality / 2) = lo := by rw [cut, ← length]; simp
  have drop : p.sorted.drop (kLeafCardinality / 2) = mid :: hi := by rw [cut, ← length]; simp
  have key : (p.sorted.getD (kLeafCardinality / 2) default).key = mid.key := by
    rw [cut, ← length]; simp
  obtain ⟨x, hx⟩ := List.exists_mem_of_ne_nil lo nonempty
  have lower : p.hdr.lowest < mid.key :=
    lt_of_le_of_lt (full.range x ((mem x).mpr (.inl hx))).1 (below x hx)
  have upper := (full.range mid midMem).2
  have lt := full.sorted_lt
  rw [cut, List.pairwise_append] at lt
  have counts : lo.length + (mid :: hi).length = kLeafCardinality := by
    rw [← List.length_append, ← cut, p.length_sorted]
  simp only [LeafPage.split, take, drop, key, lower, upper, and_self, if_true, Except.ok.injEq,
    Prod.mk.injEq]
  refine ⟨_, _, _, ⟨rfl, rfl, rfl⟩, lower, upper, ⟨rfl, rfl, rfl⟩, ⟨rfl, rfl, rfl⟩, ?_, ?_, ?_⟩
  · -- the page keeps the lower half
    refine ⟨full.level, full.leftmost, rfl, lower, (upper.trans_le full.highest_le).le, ?_, ?_, ?_, ?_⟩
    · intro r hr
      simp only [setConsistent, List.mem_append, List.mem_map] at hr
      rcases hr with hr | ⟨r, hr, rfl⟩
      · exact full.versions r ((mem r).mpr (.inl hr))
      · exact full.versions r ((mem r).mpr (.inr hr))
    · intro r hr used
      simp only [setConsistent, List.mem_append, List.mem_map] at hr
      rcases hr with hr | ⟨r, hr, rfl⟩
      · exact ⟨(full.range r ((mem r).mpr (.inl hr))).1, below r hr⟩
      · exact absurd rfl used
    · simp only [setConsistent, List.pairwise_append, List.pairwise_map]
      refine ⟨lt.1.imp fun h _ _ => h.ne, List.pairwise_of_forall fun _ _ used => absurd rfl used, ?_⟩
      intro r _ r' hr'
      obtain ⟨r', _, rfl⟩ := List.mem_map.mp hr'
      exact fun _ used => absurd rfl used
    · have cleared : ((mid :: hi).map fun r => { r with key := 0, value := kValueNull }).countP
          LeafEntry.used = 0 := by
        rw [List.countP_eq_zero]
        intro r hr
        obtain ⟨r, _, rfl⟩ := List.mem_map.mp hr
        simp
      have := lo.countP_le_length (p := LeafEntry.used)
      simp only [setConsistent, List.countP_append, cleared]
      rw [List.length_cons] at counts
      omega
  · -- the sibling takes the upper half
    have copied : ∀ r ∈ (mid :: hi).map (fun r => (⟨0, r.key, r.value, 0⟩ : LeafEntry)) ++
        List.replicate (kLeafCardinality / 2) default, r.value ≠ kValueNull →
        ∃ r' ∈ mid :: hi, r.key = r'.key := by
      intro r hr used
      rcases List.mem_append.mp hr with hr | hr
      · obtain ⟨r', hr', rfl⟩ := List.mem_map.mp hr
        exact ⟨r', hr', rfl⟩
      · exact absurd (by rw [List.eq_of_mem_replicate hr]; rfl) used
    refine ⟨full.level, rfl, rfl, upper, full.highest_le, ?_, ?_, ?_, ?_⟩
    · intro r hr
      simp only [setConsistent, List.mem_append, List.mem_map] at hr
      rcases hr with ⟨r, _, rfl⟩ | hr
      · rfl
      · rw [List.eq_of_mem_replicate hr]; rfl
    · intro r hr used
      obtain ⟨r', hr', same⟩ := copied r hr used
      rw [same]
      exact ⟨above r' hr', (full.range r' ((mem r').mpr (.inr hr'))).2⟩
    · simp only [setConsistent, List.pairwise_append, List.pairwise_map]
      refine ⟨lt.2.1.imp fun h _ _ => h.ne, List.pairwise_replicate.mpr (.inr ?_), ?_⟩
      · exact fun used => absurd rfl used
      · intro r _ r' hr'
        rw [List.eq_of_mem_replicate hr']
        exact fun _ used => absurd rfl used
    · have fresh : (List.replicate (kLeafCardinality / 2) (default : LeafEntry)).countP
          LeafEntry.used = 0 := by
        rw [List.countP_eq_zero]
        intro r hr
        rw [List.eq_of_mem_replicate hr]
        decide
      have := List.countP_le_length (p := LeafEntry.used)
        (l := (mid :: hi).map fun r => (⟨0, r.key, r.value, 0⟩ : LeafEntry))
      rw [List.length_map] at this
      have positive := List.length_pos_of_ne_nil nonempty
      simp only [setConsistent, List.countP_append, fresh]
      omega
  · intro k v
    constructor
    · rintro ⟨used, r, hr, rfl, rfl⟩
      rcases (mem r).mp hr with hr | hr
      · exact .inl ⟨used, r, List.mem_append.mpr (.inl hr), rfl, rfl⟩
      · exact .inr ⟨used, ⟨0, r.key, r.value, 0⟩,
          List.mem_append.mpr (.inl (List.mem_map.mpr ⟨r, hr, rfl⟩)), rfl, rfl⟩
    · rintro (⟨used, r, hr, rfl, rfl⟩ | ⟨used, r, hr, rfl, rfl⟩)
      · rcases List.mem_append.mp hr with hr | hr
        · exact ⟨used, r, (mem r).mpr (.inl hr), rfl, rfl⟩
        · obtain ⟨r, _, rfl⟩ := List.mem_map.mp hr
          exact absurd rfl used
      · rcases List.mem_append.mp hr with hr | hr
        · obtain ⟨r', hr', rfl⟩ := List.mem_map.mp hr
          exact ⟨used, r', (mem r').mpr (.inr hr'), rfl, rfl⟩
        · exact absurd (by rw [List.eq_of_mem_replicate hr]; rfl) used

/-! ## Deleting -/

theorem del_none {p : LeafPage} {k : Key} (h : p.del k = none) (v : Value) : ¬ p.Holds k v := by
  rintro ⟨used, r, hr, rfl, rfl⟩
  unfold del at h
  split at h
  · rename_i missing
    have := List.findIdx?_eq_none_iff.mp missing r hr
    simp [used] at this
  · cases h

theorem del_lt {p q : LeafPage} {k : Key} {i : Nat} (deleted : p.del k = some (i, q)) : i < kLeafCardinality := by
  simp only [del] at deleted
  split at deleted
  · cases deleted
  · rename_i j found
    cases deleted
    rw [← p.size]
    exact (List.findIdx?_eq_some_iff_getElem.mp found).1

theorem Ok.del {p p' : LeafPage} (ok : p.Ok) {k : Key} {i : Nat} (h : p.del k = some (i, p')) :
    (∃ r, p' = p.setRecord i r ∧ i < kLeafCardinality) ∧ p'.Ok ∧
      Rebinds k kValueNull p.Holds p'.Holds ∧ ∃ v, p.Holds k v := by
  unfold LeafPage.del at h
  split at h
  · cases h
  · rename_i j found
    obtain ⟨l, r, l', split, rfl, accepted, before⟩ := findIdx?_split found
    obtain ⟨key, used⟩ : r.key = k ∧ r.value ≠ kValueNull := by simpa using accepted
    subst key
    have mem : r ∈ p.records := by rw [split]; simp
    have distinct := ok.distinct
    rw [split, List.pairwise_append, List.pairwise_cons] at distinct
    have others : ∀ x ∈ l ++ l', x.value ≠ kValueNull → x.key ≠ r.key := by
      intro x hx xused
      rcases List.mem_append.mp hx with hx | hx
      · exact distinct.2.2 x hx r (by simp) xused used
      · exact (distinct.2.1.1 x hx used xused).symm
    have space := ok.space
    rw [split, List.countP_append, List.countP_cons] at space
    simp only [LeafEntry.used_eq_true.mpr used, if_true] at space
    have length := p.size
    rw [split, List.length_append, List.length_cons] at length
    simp only [getD_split split, Option.some.injEq, Prod.mk.injEq] at h
    obtain ⟨rfl, rfl⟩ := h
    exact ⟨⟨_, rfl, by omega⟩, ok.rewrite split (ok.range r mem used).1 (ok.range r mem used).2 others
      (by rw [List.countP_append]; omega), rewrite_rebinds split (fun _ => rfl) others,
      r.value, used, r, mem, rfl, rfl⟩

end LeafPage
end Sherman
