import Sherman.Race.EntryRead

namespace Sherman.Race

open Concurrency FieldRace

def LeafPage.entry (p : LeafPage) (i : Nat) : LeafEntry := p.records.getD i default

def LeafEntry.Accepted (k : Key) (r : LeafEntry) : Prop :=
  r.key = k ∧ r.value ≠ kValueNull ∧ r.fVersion = r.rVersion

instance (k : Key) : DecidablePred (LeafEntry.Accepted k) := by
  intro r
  unfold LeafEntry.Accepted
  infer_instance

/-- A leaf page while inserts that need no split follow each other under its lock. -/
structure Inserts (pages : Nat → LeafPage) (slot : Nat → Nat) : Prop where
  start : (pages 0).Ok
  next : ∀ n, ∃ k v cnt, (pages 0).hdr.lowest ≤ k ∧ k < (pages 0).hdr.highest ∧
    cnt ≠ kLeafCardinality ∧ (pages n).store k v = .ok (slot n, pages (n + 1), cnt)

def leafRace (pages : Nat → LeafPage) (slot : Nat → Nat) : FieldRace.Race (Nat × Nat) Datum :=
  roundRobin 4 slot (fun n j f => LeafEntry.field (LeafPage.entry (pages n) j) f)
    fun r => (r / 4, r % 4)

def sees (turns : List Turn) (j f : Nat) : Nat := rounds 4 f (writesBefore turns (4 * j + f))

def writesTo (slot : Nat → Nat) (j : Nat) : Nat → Nat
  | 0 => 0
  | n + 1 => writesTo slot j n + if slot n = j then 1 else 0

/-- The inserts that cross the read of a slot leave its two versions equal. -/
def Cancels (slot : Nat → Nat) (turns : List Turn) (j : Nat) : Prop :=
  writesTo slot j (sees turns j 0) ≡ writesTo slot j (sees turns j 3) [MOD 16]

/-- The search finds a value that an insert stored for the key. -/
def Finds (pages : Nat → LeafPage) (k : Key) (b : LeafPage) : Prop :=
  b.search k ≠ kValueNull ∧ ∃ j n, b.records.findIdx? (LeafEntry.Accepted k ·) = some j ∧
    (LeafPage.entry (pages n) j).key = k ∧ (LeafPage.entry (pages n) j).value = b.search k

/-! ## The page between the inserts -/

theorem entry_setRecord (p : LeafPage) {i : Nat} (inside : i < kLeafCardinality) (r : LeafEntry) (j : Nat) :
    LeafPage.entry (p.setRecord i r) j = if i = j then r else LeafPage.entry p j := by
  have := p.size
  by_cases same : i = j
  · subst same
    simp [LeafPage.entry, LeafPage.setRecord, List.getD_eq_getElem?_getD, this, inside]
  · simp [LeafPage.entry, LeafPage.setRecord, List.getD_eq_getElem?_getD, same]

theorem entry_mem {p : LeafPage} {i : Nat} (used : (LeafPage.entry p i).value ≠ kValueNull) :
    i < kLeafCardinality := by
  by_contra outside
  apply used
  rw [LeafPage.entry, List.getD_eq_getElem?_getD, List.getElem?_eq_none (by rw [p.size]; omega)]
  rfl

theorem entry_inj {p : LeafPage} (ok : p.Ok) {i j : Nat} (used : (LeafPage.entry p i).value ≠ kValueNull)
    (used' : (LeafPage.entry p j).value ≠ kValueNull)
    (same : (LeafPage.entry p i).key = (LeafPage.entry p j).key) : i = j := by
  have hi : i < p.records.length := by rw [p.size]; exact entry_mem used
  have hj : j < p.records.length := by rw [p.size]; exact entry_mem used'
  have pairs := List.pairwise_iff_getElem.mp ok.distinct
  simp only [LeafPage.entry, List.getD_eq_getElem?_getD, List.getElem?_eq_getElem hi,
    List.getElem?_eq_getElem hj, Option.getD_some] at used used' same
  obtain lt | eq | gt := Nat.lt_trichotomy i j
  · exact absurd same (pairs i j hi hj lt used used')
  · exact eq
  · exact absurd same.symm (pairs j i hj hi gt used' used)

theorem exists_entry {p : LeafPage} {k : Key} {v : Value} (holds : p.Holds k v) :
    ∃ j, (LeafPage.entry p j).key = k ∧ (LeafPage.entry p j).value = v := by
  obtain ⟨-, r, mem, key, value⟩ := holds
  obtain ⟨j, inside, rfl⟩ := List.mem_iff_getElem.mp mem
  refine ⟨j, ?_⟩
  simp only [LeafPage.entry, List.getD_eq_getElem?_getD, List.getElem?_eq_getElem inside,
    Option.getD_some]
  exact ⟨key, value⟩

theorem store_writes {p p' : LeafPage} {k : Key} {v : Value} {i cnt : Nat}
    (h : p.store k v = .ok (i, p', cnt)) : p' = p.setRecord i ((LeafPage.entry p i).rewrite k v) := by
  simp only [LeafPage.store] at h
  split at h
  · cases h
  · split at h
    · obtain ⟨rfl, rfl, -⟩ := by simpa using h
      rfl
    · split at h
      · cases h
      · obtain ⟨rfl, rfl, -⟩ := by simpa using h
        rfl

namespace Inserts
variable {pages : Nat → LeafPage} {slot : Nat → Nat}

theorem stored (inserts : Inserts pages slot) {n : Nat} (ok : (pages n).Ok)
    (hdr : (pages n).hdr = (pages 0).hdr) : ∃ k v cnt, cnt ≠ kLeafCardinality ∧
      LeafPage.Stored (pages n) k v (slot n) (pages (n + 1)) cnt := by
  obtain ⟨k, v, cnt, low, high, space, stores⟩ := inserts.next n
  obtain ⟨i, p', m, eq, after⟩ := ok.store v (hdr ▸ low) (hdr ▸ high)
  rw [stores] at eq
  obtain ⟨rfl, rfl, rfl⟩ := by simpa using eq
  exact ⟨k, v, cnt, space, after⟩

theorem ok (inserts : Inserts pages slot) (n : Nat) :
    (pages n).Ok ∧ (pages n).hdr = (pages 0).hdr := by
  induction n with
  | zero => exact ⟨inserts.start, rfl⟩
  | succ n ih =>
      obtain ⟨k, v, cnt, space, after⟩ := inserts.stored ih.1 ih.2
      obtain ⟨r, eq, -⟩ := after.slot
      refine ⟨after.ok space, ?_⟩
      rw [eq]
      exact ih.2

theorem slot_lt (inserts : Inserts pages slot) (n : Nat) : slot n < kLeafCardinality := by
  obtain ⟨k, v, cnt, -, after⟩ := inserts.stored (inserts.ok n).1 (inserts.ok n).2
  obtain ⟨r, -, inside⟩ := after.slot
  exact inside

theorem entry_succ (inserts : Inserts pages slot) (n : Nat) : ∃ k v, ∀ j,
    LeafPage.entry (pages (n + 1)) j =
      if slot n = j then (LeafPage.entry (pages n) j).rewrite k v else LeafPage.entry (pages n) j := by
  obtain ⟨k, v, cnt, -, -, -, stored⟩ := inserts.next n
  refine ⟨k, v, fun j => ?_⟩
  rw [store_writes stored, entry_setRecord _ (inserts.slot_lt n)]
  split
  · rename_i same
    rw [same]
  · rfl

theorem versions (inserts : Inserts pages slot) (j n : Nat) :
    (LeafPage.entry (pages n) j).fVersion =
        (LeafPage.entry (pages 0) j).fVersion + BitVec.ofNat 4 (writesTo slot j n) ∧
      (LeafPage.entry (pages n) j).rVersion =
        (LeafPage.entry (pages 0) j).fVersion + BitVec.ofNat 4 (writesTo slot j n) := by
  induction n with
  | zero =>
      refine ⟨by simp [writesTo], ?_⟩
      simp only [writesTo, BitVec.add_zero]
      by_cases inside : j < (pages 0).records.length
      · have := inserts.start.versions _ (List.getElem_mem inside)
        simpa [LeafPage.entry, List.getD_eq_getElem?_getD, inside] using this.symm
      · rw [LeafPage.entry, List.getD_eq_getElem?_getD, List.getElem?_eq_none (by omega)]
        rfl
  | succ n ih =>
      obtain ⟨k, v, eq⟩ := inserts.entry_succ n
      rw [eq j, writesTo]
      split
      · have up : (LeafPage.entry (pages n) j).fVersion + 1 =
            (LeafPage.entry (pages 0) j).fVersion + BitVec.ofNat 4 (writesTo slot j n + 1) := by
          rw [ih.1, BitVec.add_assoc]
          congr 1
          apply BitVec.eq_of_toNat_eq
          simp
        exact ⟨up, up⟩
      · exact ih

theorem stays (inserts : Inserts pages slot) {k : Key} (present : ∀ n, ∃ v, (pages n).Holds k v)
    {i : Nat} (key : (LeafPage.entry (pages 0) i).key = k)
    (used : (LeafPage.entry (pages 0) i).value ≠ kValueNull) (n : Nat) :
    (LeafPage.entry (pages n) i).key = k ∧ (LeafPage.entry (pages n) i).value ≠ kValueNull := by
  induction n with
  | zero => exact ⟨key, used⟩
  | succ n ih =>
      obtain ⟨k', v', eq⟩ := inserts.entry_succ n
      by_cases hit : slot n = i
      · obtain ⟨v, holds⟩ := present (n + 1)
        obtain ⟨j, here, value⟩ := exists_entry holds
        by_cases same : j = i
        · subst same
          exact ⟨here, by rw [value]; exact holds.1⟩
        · -- the key would have been in two slots before the insert
          rw [eq j, if_neg fun h => same (h.symm.trans hit)] at here value
          exact absurd (entry_inj (inserts.ok n).1 (by rw [value]; exact holds.1) ih.2
            (here.trans ih.1.symm)) same
      · rw [eq i, if_neg hit]
        exact ih

end Inserts

/-! ## The read -/

theorem getElem?_flatMap_const {α β : Type} {n : Nat} {f : α → List β} (each : ∀ x, (f x).length = n)
    (xs : List α) (j : Nat) {i : Nat} (inside : i < n) :
    (xs.flatMap f)[n * j + i]? = xs[j]? >>= fun x => (f x)[i]? := by
  induction xs generalizing j with
  | nil => simp
  | cons x xs ih =>
      rw [List.flatMap_cons]
      cases j with
      | zero =>
          rw [List.getElem?_append_left (by rw [each]; omega)]
          simp
      | succ j =>
          rw [List.getElem?_append_right (by rw [each, Nat.mul_succ]; omega), each]
          have shift : n * (j + 1) + i - n = n * j + i := by rw [Nat.mul_succ]; omega
          rw [shift, ih]
          simp

theorem Inserts.buffer_field {pages : Nat → LeafPage} {slot : Nat → Nat} (inserts : Inserts pages slot)
    {turns : List Turn} {s : FieldRace.State (Nat × Nat) Datum}
    (run : (leafRace pages slot).machine.run
      (FieldRace.Race.start fun c => LeafEntry.field (LeafPage.entry (pages 0) c.1) c.2) turns = some s)
    {j f : Nat} (done : 4 * j + f < s.buffer.length) (small : f < 4) :
    s.buffer[4 * j + f]? =
      some (LeafEntry.field (LeafPage.entry (pages (sees turns j f)) j) f) := by
  have others : ∀ n j', j' ≠ slot n → (fun f => LeafEntry.field (LeafPage.entry (pages (n + 1)) j') f) =
      fun f => LeafEntry.field (LeafPage.entry (pages n) j') f := by
    intro n j' other
    obtain ⟨k, v, eq⟩ := inserts.entry_succ n
    simp only [eq j', if_neg (Ne.symm other)]
  have div : (4 * j + f) / 4 = j := by omega
  have mod : (4 * j + f) % 4 = f := by omega
  have cell : (leafRace pages slot).read (4 * j + f) = (j, f) := by
    simp only [leafRace, roundRobin, div, mod]
  rw [FieldRace.Race.buffer_eq run done, cell]
  exact congrArg some (@after_roundRobin Datum Nat _ 4 slot
    (fun n j f => LeafEntry.field (LeafPage.entry (pages n) j) f) (fun r => (r / 4, r % 4)) others
    (writesBefore turns (4 * j + f)) j f small)

theorem read_leaf {pages : Nat → LeafPage} {slot : Nat → Nat} (inserts : Inserts pages slot)
    {turns : List Turn} {s : FieldRace.State (Nat × Nat) Datum} {b : LeafPage}
    (run : (leafRace pages slot).machine.run
      (FieldRace.Race.start fun c => LeafEntry.field (LeafPage.entry (pages 0) c.1) c.2) turns = some s)
    (buffer : s.buffer = b.records.flatMap LeafEntry.data) {j : Nat} (inside : j < kLeafCardinality) :
    LeafPage.entry b j = ⟨(LeafPage.entry (pages (sees turns j 0)) j).fVersion,
      (LeafPage.entry (pages (sees turns j 1)) j).key,
      (LeafPage.entry (pages (sees turns j 2)) j).value,
      (LeafPage.entry (pages (sees turns j 3)) j).rVersion⟩ := by
  have field : ∀ f, f < 4 → (LeafPage.entry b j).data[f]? =
      some (LeafEntry.field (LeafPage.entry (pages (sees turns j f)) j) f) := by
    intro f small
    have length := @Page.length_flatMap_const _ _ 4 LeafEntry.data (fun _ => rfl) b.records
    rw [b.size, ← buffer] at length
    have seen := inserts.buffer_field run (by omega : 4 * j + f < s.buffer.length) small
    rw [buffer, @getElem?_flatMap_const _ _ 4 LeafEntry.data (fun _ => rfl) _ _ _ small,
      List.getElem?_eq_getElem (by rw [b.size]; exact inside)] at seen
    simpa [LeafPage.entry, List.getD_eq_getElem?_getD, b.size, inside] using seen
  have f := field 0 (by decide)
  have k := field 1 (by decide)
  have v := field 2 (by decide)
  have e := field 3 (by decide)
  generalize LeafPage.entry b j = r at f k v e ⊢
  simp only [LeafEntry.data, LeafEntry.field, List.getElem?_cons_zero, List.getElem?_cons_succ,
    List.getD_cons_zero, List.getD_cons_succ, Option.some.injEq, Datum.nibble.injEq, Datum.key.injEq,
    Datum.value.injEq] at f k v e
  cases r
  simp_all

def Takes (pages : Nat → LeafPage) (slot : Nat → Nat) (turns : List Turn) (k : Key) (j : Nat) : Prop :=
  (LeafPage.entry (pages (sees turns j 1)) j).key = k ∧
    (LeafPage.entry (pages (sees turns j 2)) j).value ≠ kValueNull ∧ Cancels slot turns j

section
variable {pages : Nat → LeafPage} {slot : Nat → Nat} {turns : List Turn}
  {s : FieldRace.State (Nat × Nat) Datum} {b : LeafPage}

theorem accepted_iff (inserts : Inserts pages slot)
    (run : (leafRace pages slot).machine.run
      (FieldRace.Race.start fun c => LeafEntry.field (LeafPage.entry (pages 0) c.1) c.2) turns = some s)
    (buffer : s.buffer = b.records.flatMap LeafEntry.data) {k : Key} {j : Nat}
    (inside : j < kLeafCardinality) :
    LeafEntry.Accepted k (LeafPage.entry b j) ↔ Takes pages slot turns k j := by
  rw [LeafEntry.Accepted, read_leaf inserts run buffer inside, Takes, Cancels]
  simp only
  rw [(inserts.versions _ _).1, (inserts.versions _ _).2, nibble_inj]

theorem findIdx?_accepted {p : LeafPage} {k : Key} {j : Nat} :
    p.records.findIdx? (LeafEntry.Accepted k ·) = some j ↔ j < kLeafCardinality ∧
      LeafEntry.Accepted k (LeafPage.entry p j) ∧
      ∀ j' < j, ¬ LeafEntry.Accepted k (LeafPage.entry p j') := by
  have at_ : ∀ {j'} (h : j' < p.records.length), LeafPage.entry p j' = p.records[j'] := by
    intro j' h
    simp [LeafPage.entry, List.getD_eq_getElem?_getD, h]
  rw [List.findIdx?_eq_some_iff_getElem, ← p.size]
  constructor
  · rintro ⟨inside, here, before⟩
    refine ⟨inside, at_ inside ▸ of_decide_eq_true here, fun j' less accepted => ?_⟩
    exact before j' less (decide_eq_true (at_ (less.trans inside) ▸ accepted))
  · rintro ⟨inside, here, before⟩
    refine ⟨inside, decide_eq_true (at_ inside ▸ here), fun j' less accepted => ?_⟩
    exact before j' less (at_ (less.trans inside) ▸ of_decide_eq_true accepted)

theorem search_of_findIdx? {p : LeafPage} {k : Key} {j : Nat}
    (found : p.records.findIdx? (LeafEntry.Accepted k ·) = some j) :
    p.search k = (LeafPage.entry p j).value := by
  obtain ⟨inside, here, before⟩ := List.findIdx?_eq_some_iff_getElem.mp found
  have first : p.records.find? (fun r => r.key = k ∧ r.value ≠ kValueNull ∧ r.fVersion = r.rVersion) =
      some p.records[j] := by
    rw [List.find?_eq_some_iff_getElem]
    refine ⟨here, j, inside, rfl, fun j' less => ?_⟩
    rw [Bool.not_eq_true']
    exact Bool.eq_false_iff.mpr (before j' less)
  rw [LeafPage.search, first, LeafPage.entry, List.getD_eq_getElem?_getD, List.getElem?_eq_getElem inside]
  rfl

theorem Finds.cancels (inserts : Inserts pages slot) {k : Key} (present : ∀ n, ∃ v, (pages n).Holds k v)
    {i : Nat} (key : (LeafPage.entry (pages 0) i).key = k)
    (used : (LeafPage.entry (pages 0) i).value ≠ kValueNull)
    (run : (leafRace pages slot).machine.run
      (FieldRace.Race.start fun c => LeafEntry.field (LeafPage.entry (pages 0) c.1) c.2) turns = some s)
    (buffer : s.buffer = b.records.flatMap LeafEntry.data) (found : Finds pages k b) :
    Cancels slot turns i ∧ ∀ j < i, ¬ Takes pages slot turns k j := by
  have stays := inserts.stays present key used
  have inside := entry_mem used
  obtain ⟨nonnull, j, n, found, own, value⟩ := found
  have same : j = i := entry_inj (inserts.ok n).1 (by rw [value]; exact nonnull) (stays n).2
    (own.trans (stays n).1.symm)
  subst same
  obtain ⟨-, here, before⟩ := findIdx?_accepted.mp found
  refine ⟨((accepted_iff inserts run buffer inside).mp here).2.2, fun j' less takes => ?_⟩
  exact before j' less ((accepted_iff inserts run buffer (less.trans inside)).mpr takes)

/-- A search finds a key that stays in the leaf if and only if the inserts that cross the read of its
slot leave the two versions equal, and no earlier slot is taken for one of the key. -/
theorem leaf_search_iff {pages : Nat → LeafPage} {slot : Nat → Nat} (inserts : Inserts pages slot)
    {k : Key} (present : ∀ n, ∃ v, (pages n).Holds k v) {i : Nat}
    (key : (LeafPage.entry (pages 0) i).key = k)
    (used : (LeafPage.entry (pages 0) i).value ≠ kValueNull)
    {turns : List Turn} {s : FieldRace.State (Nat × Nat) Datum}
    (run : (leafRace pages slot).machine.run
      (FieldRace.Race.start fun c => LeafEntry.field (LeafPage.entry (pages 0) c.1) c.2) turns = some s)
    {b : LeafPage} (buffer : s.buffer = b.records.flatMap LeafEntry.data) :
    Finds pages k b ↔ Cancels slot turns i ∧ ∀ j < i, ¬ Takes pages slot turns k j := by
  refine ⟨Finds.cancels inserts present key used run buffer, ?_⟩
  rintro ⟨cancels, before⟩
  have stays := inserts.stays present key used
  have inside := entry_mem used
  have found : b.records.findIdx? (LeafEntry.Accepted k ·) = some i := by
    refine findIdx?_accepted.mpr ⟨inside, ?_, fun j' less accepted => ?_⟩
    · exact (accepted_iff inserts run buffer inside).mpr ⟨(stays _).1, (stays _).2, cancels⟩
    · exact before j' less ((accepted_iff inserts run buffer (less.trans inside)).mp accepted)
  have value := search_of_findIdx? found
  rw [read_leaf inserts run buffer inside] at value
  exact ⟨by rw [value]; exact (stays _).2, i, sees turns i 2, found, (stays _).1, value.symm⟩

end

theorem exists_leaf {pages : Nat → LeafPage} {slot : Nat → Nat} (inserts : Inserts pages slot)
    {turns : List Turn} (full : turns.count .read = 4 * kLeafCardinality) : ∃ s b,
    (leafRace pages slot).machine.run
      (FieldRace.Race.start fun c => LeafEntry.field (LeafPage.entry (pages 0) c.1) c.2) turns = some s ∧
    s.buffer = b.records.flatMap LeafEntry.data ∧ LeafPage.hdr b = (pages 0).hdr := by
  obtain ⟨s, run, length⟩ := FieldRace.run_total (leafRace pages slot)
    (FieldRace.Race.start fun c => LeafEntry.field (LeafPage.entry (pages 0) c.1) c.2) turns
  rw [full] at length
  simp only [FieldRace.Race.start, List.length_nil, Nat.zero_add] at length
  let records := (List.range kLeafCardinality).map fun j => LeafEntry.mk
    (LeafPage.entry (pages (sees turns j 0)) j).fVersion (LeafPage.entry (pages (sees turns j 1)) j).key
    (LeafPage.entry (pages (sees turns j 2)) j).value (LeafPage.entry (pages (sees turns j 3)) j).rVersion
  refine ⟨s, { pages 0 with records := records, size := by simp [records] }, run, ?_, rfl⟩
  apply List.ext_getElem?
  intro m
  have size := @Page.length_flatMap_const _ _ 4 LeafEntry.data (fun _ => rfl) records
  rw [List.length_map, List.length_range] at size
  by_cases inside : m < s.buffer.length
  · have small : m % 4 < 4 := Nat.mod_lt m (by decide)
    have bound : m / 4 < kLeafCardinality := by omega
    have whole : m = 4 * (m / 4) + m % 4 := by omega
    have seen := inserts.buffer_field run (by omega : 4 * (m / 4) + m % 4 < s.buffer.length) small
    rw [whole, seen, @getElem?_flatMap_const _ _ 4 LeafEntry.data (fun _ => rfl) _ _ _ small]
    simp only [records, List.getElem?_map, List.getElem?_range bound, Option.map_some,
      Option.bind_eq_bind, Option.bind_some]
    obtain f | f | f | f : m % 4 = 0 ∨ m % 4 = 1 ∨ m % 4 = 2 ∨ m % 4 = 3 := by omega
    all_goals rw [f]; rfl
  · have outside : 4 * kLeafCardinality ≤ m := by omega
    rw [List.getElem?_eq_none (by omega), List.getElem?_eq_none (size.trans_le outside)]

/-! ## A search that overtakes an insert -/

def updatedLeaf (n : Nat) : LeafPage where
  frontVersion := 0
  hdr := .new 0
  records := ⟨BitVec.ofNat 4 n, 1, 5, BitVec.ofNat 4 n⟩ :: List.replicate (kLeafCardinality - 1) default
  rearVersion := 0
  size := by simp [kLeafCardinality_eq]

theorem updatedLeaf_holds (n : Nat) : (updatedLeaf n).Holds 1 5 :=
  ⟨by decide, _, List.mem_cons_self, rfl, rfl⟩

theorem updatedLeaf_ok : (updatedLeaf 0).Ok where
  level := rfl
  leftmost := rfl
  consistent := rfl
  fence := by decide
  highest_le := Nat.le_refl _
  versions r mem := by
    rcases List.mem_cons.mp mem with rfl | mem
    · rfl
    · rw [List.eq_of_mem_replicate mem]
      rfl
  range r mem used := by
    rcases List.mem_cons.mp mem with rfl | mem
    · decide
    · exact absurd (congrArg LeafEntry.value (List.eq_of_mem_replicate mem)) used
  distinct := by
    refine List.pairwise_cons.mpr ⟨fun r mem _ used => ?_, List.pairwise_replicate.mpr (.inr ?_)⟩
    · exact absurd (congrArg LeafEntry.value (List.eq_of_mem_replicate mem)) used
    · exact fun used => absurd rfl used
  space := by decide

theorem updatedLeaf_inserts : Inserts updatedLeaf fun _ => 0 where
  start := updatedLeaf_ok
  next n := by
    refine ⟨1, 5, 1, by decide, by decide, by decide, ?_⟩
    have up : BitVec.ofNat 4 (n + 1) = BitVec.ofNat 4 n + 1 := by
      apply BitVec.eq_of_toNat_eq
      simp
    simp only [LeafPage.store, LeafPage.scan, updatedLeaf, LeafPage.scanFrom, up, LeafPage.setRecord,
      LeafEntry.rewrite]
    rfl

def overtakenSearch : List Turn :=
  .read :: (List.replicate 4 .write ++ List.replicate (4 * kLeafCardinality - 1) .read)

def SearchComplete : Prop :=
  ∀ (pages : Nat → LeafPage) (slot : Nat → Nat) (k : Key) (turns : List Turn)
    (s : FieldRace.State (Nat × Nat) Datum) (b : LeafPage),
    Inserts pages slot → (∀ n, ∃ v, (pages n).Holds k v) →
    (leafRace pages slot).machine.run
      (FieldRace.Race.start fun c => LeafEntry.field (LeafPage.entry (pages 0) c.1) c.2) turns = some s →
    s.buffer = b.records.flatMap LeafEntry.data → Finds pages k b

theorem count_overtakenSearch : overtakenSearch.count .read = 4 * kLeafCardinality := by
  rw [overtakenSearch, List.count_cons_self, List.count_append, List.count_replicate_self,
    List.count_replicate, kLeafCardinality_eq]
  rfl

theorem leaf_search_misses : ¬ SearchComplete := by
  intro complete
  obtain ⟨s, b, run, buffer, -⟩ := exists_leaf updatedLeaf_inserts count_overtakenSearch
  have found := complete updatedLeaf _ 1 overtakenSearch s b updatedLeaf_inserts
    (fun n => ⟨5, updatedLeaf_holds n⟩) run buffer
  have cancels := (Finds.cancels (i := 0) updatedLeaf_inserts (fun n => ⟨5, updatedLeaf_holds n⟩) rfl
    (by decide) run buffer found).1
  have first : sees overtakenSearch 0 0 = 0 := rfl
  have last : sees overtakenSearch 0 3 = 1 := by rw [sees, overtakenSearch, kLeafCardinality_eq]; rfl
  rw [Cancels, first, last] at cancels
  exact absurd cancels (by decide)

/-- Sixteen inserts between the first two fields of the read and the rest of it. -/
def crossedSearch : List Turn :=
  List.replicate 2 .read ++ (List.replicate 64 .write ++ (List.replicate (4 * kLeafCardinality - 2) .read ++ []))

theorem count_crossedSearch : crossedSearch.count .read = 4 * kLeafCardinality := by
  simp only [crossedSearch, List.count_append, List.count_replicate, kLeafCardinality_eq, List.count_nil]
  rfl

theorem leaf_search_crossed : ∃ s b, (leafRace updatedLeaf fun _ => 0).machine.run
    (FieldRace.Race.start fun c => LeafEntry.field (LeafPage.entry (updatedLeaf 0) c.1) c.2) crossedSearch = some s ∧
    s.buffer = b.records.flatMap LeafEntry.data ∧ Finds updatedLeaf 1 b := by
  obtain ⟨s, b, run, buffer, -⟩ := exists_leaf updatedLeaf_inserts count_crossedSearch
  refine ⟨s, b, run, buffer, (leaf_search_iff (i := 0) updatedLeaf_inserts (fun n => ⟨5, updatedLeaf_holds n⟩) rfl
    (by decide) run buffer).mpr ⟨?_, fun j less => absurd less (Nat.not_lt_zero j)⟩⟩
  have first : sees crossedSearch 0 0 = 0 := rfl
  have last : sees crossedSearch 0 3 = 16 := by rw [sees, crossedSearch, kLeafCardinality_eq]; rfl
  have writes : writesTo (fun _ => 0) 0 16 = 16 := rfl
  rw [Cancels, first, last, writes]
  rfl

end Sherman.Race
