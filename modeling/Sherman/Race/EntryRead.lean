import Sherman.Race.PageRead
import Sherman.Page.LeafSpec

namespace Sherman.Race

open Concurrency FieldRace

def LeafEntry.field (r : LeafEntry) (i : Nat) : Datum := r.data.getD i (.level 0)

def LeafEntry.Writes (r r' : LeafEntry) : Prop :=
  ∃ k v, r' = r.rewrite k v ∧ (r.value = kValueNull ∨ k = r.key)

/-- What a slot holds after each of the writes to it. -/
structure SlotHistory (entries : Nat → LeafEntry) : Prop where
  start : (entries 0).fVersion = (entries 0).rVersion
  next : ∀ n, LeafEntry.Writes (entries n) (entries (n + 1))

def slotRace (entries : Nat → LeafEntry) : FieldRace.Race (Unit × Nat) Datum :=
  roundRobin 4 (fun _ => ()) (fun n _ i => LeafEntry.field (entries n) i) fun r => ((), r)

def seen (turns : List Turn) (i : Nat) : Nat := rounds 4 i (writesBefore turns i)

theorem SlotHistory.versions {entries : Nat → LeafEntry} (history : SlotHistory entries) (n : Nat) :
    (entries n).fVersion = (entries 0).fVersion + BitVec.ofNat 4 n ∧
      (entries n).rVersion = (entries 0).fVersion + BitVec.ofNat 4 n := by
  induction n with
  | zero => simp [history.start]
  | succ n ih =>
      obtain ⟨k, v, eq, -⟩ := history.next n
      have up : (entries n).fVersion + 1 = (entries 0).fVersion + BitVec.ofNat 4 (n + 1) := by
        rw [ih.1, BitVec.add_assoc]
        congr 1
        apply BitVec.eq_of_toNat_eq
        simp
      rw [eq]
      exact ⟨up, up⟩

theorem nibble_inj {v : BitVec 4} {n m : Nat} :
    v + BitVec.ofNat 4 n = v + BitVec.ofNat 4 m ↔ n ≡ m [MOD 16] := by
  rw [BitVec.add_right_inj, ← BitVec.toNat_inj]
  simp [Nat.ModEq]

theorem buffer_field {entries : Nat → LeafEntry} {turns : List Turn}
    {s : FieldRace.State (Unit × Nat) Datum}
    (run : (slotRace entries).machine.run
      (FieldRace.Race.start fun c => LeafEntry.field (entries 0) c.2) turns = some s)
    {i : Nat} (done : i < s.buffer.length) (inside : i < 4) :
    s.buffer[i]? = some (LeafEntry.field (entries (seen turns i)) i) := by
  rw [FieldRace.Race.buffer_eq run done]
  exact congrArg some
    (after_roundRobin (fun _ j other => absurd rfl other) (writesBefore turns i) () inside)

theorem read_entry {entries : Nat → LeafEntry} {turns : List Turn}
    {s : FieldRace.State (Unit × Nat) Datum} {r : LeafEntry}
    (run : (slotRace entries).machine.run
      (FieldRace.Race.start fun c => LeafEntry.field (entries 0) c.2) turns = some s)
    (buffer : s.buffer = r.data) :
    r = ⟨(entries (seen turns 0)).fVersion, (entries (seen turns 1)).key,
      (entries (seen turns 2)).value, (entries (seen turns 3)).rVersion⟩ := by
  have field : ∀ i, i < 4 → r.data[i]? = some (LeafEntry.field (entries (seen turns i)) i) := by
    intro i inside
    rw [← buffer]
    exact buffer_field run (by rw [buffer]; exact inside) inside
  have f := field 0 (by decide)
  have k := field 1 (by decide)
  have v := field 2 (by decide)
  have e := field 3 (by decide)
  simp only [LeafEntry.data, LeafEntry.field, List.getElem?_cons_zero, List.getElem?_cons_succ,
    List.getD_cons_zero, List.getD_cons_succ, Option.some.injEq, Datum.nibble.injEq, Datum.key.injEq,
    Datum.value.injEq] at f k v e
  cases r
  simp_all

/-- Whatever happened to the slot, an accepted read shows a key and a value stored together. -/
def EntrySound (turns : List Turn) : Prop :=
  ∀ (entries : Nat → LeafEntry) (s : FieldRace.State (Unit × Nat) Datum) (r : LeafEntry),
    SlotHistory entries →
    (slotRace entries).machine.run
      (FieldRace.Race.start fun c => LeafEntry.field (entries 0) c.2) turns = some s →
    s.buffer = r.data → r.fVersion = r.rVersion → r.value ≠ kValueNull →
    ∃ n, (entries n).key = r.key ∧ (entries n).value = r.value

/-- A slot that is emptied, taken by another key, and then updated. -/
def reusedSlot (last n : Nat) : LeafEntry :=
  if n ≤ last then ⟨BitVec.ofNat 4 n, 1, if (last - n) % 2 = 0 then kValueNull else 5, BitVec.ofNat 4 n⟩
  else ⟨BitVec.ofNat 4 n, 2, 7, BitVec.ofNat 4 n⟩

theorem reusedSlot_history (last : Nat) : SlotHistory (reusedSlot last) where
  start := by simp [reusedSlot]
  next n := by
    have up : BitVec.ofNat 4 (n + 1) = BitVec.ofNat 4 n + 1 := by
      apply BitVec.eq_of_toNat_eq
      simp
    obtain before | at_ | past := Nat.lt_trichotomy n last
    · refine ⟨1, if (last - (n + 1)) % 2 = 0 then kValueNull else 5, ?_, .inr ?_⟩
      · simp only [reusedSlot, if_pos before.le, if_pos (Nat.succ_le_of_lt before), LeafEntry.rewrite,
          up]
      · simp [reusedSlot, before.le]
    · subst at_
      refine ⟨2, 7, ?_, .inl ?_⟩
      · simp only [reusedSlot, le_refl, if_true, if_neg (Nat.not_succ_le_self n), LeafEntry.rewrite, up]
      · simp [reusedSlot]
    · refine ⟨2, 7, ?_, .inr ?_⟩
      · have : ¬ n ≤ last := by omega
        have : ¬ n + 1 ≤ last := by omega
        simp only [reusedSlot, LeafEntry.rewrite, *, if_false]
      · have : ¬ n ≤ last := by omega
        simp [reusedSlot, this]

theorem exists_data {l : List Datum} {entries : Nat → LeafEntry} {turns : List Turn}
    (fields : ∀ i, i < 4 → l[i]? = some (LeafEntry.field (entries (seen turns i)) i))
    (length : l.length = 4) : ∃ r : LeafEntry, l = r.data := by
  refine ⟨⟨(entries (seen turns 0)).fVersion, (entries (seen turns 1)).key,
    (entries (seen turns 2)).value, (entries (seen turns 3)).rVersion⟩, ?_⟩
  apply List.ext_getElem?
  intro i
  by_cases inside : i < 4
  · rw [fields i inside]
    obtain rfl | rfl | rfl | rfl : i = 0 ∨ i = 1 ∨ i = 2 ∨ i = 3 := by omega
    all_goals rfl
  · rw [List.getElem?_eq_none (by omega), List.getElem?_eq_none]
    simp only [LeafEntry.data, List.length_cons, List.length_nil]
    omega

theorem EntrySound.condition {turns : List Turn} (full : turns.count .read = 4)
    (sound : EntrySound turns) :
    ¬ seen turns 0 ≡ seen turns 3 [MOD 16] ∨ seen turns 2 ≤ seen turns 1 := by
  by_contra torn
  rw [not_or, not_not, not_le] at torn
  obtain ⟨cancels, overtaken⟩ := torn
  obtain ⟨s, run, length⟩ := FieldRace.run_total (slotRace (reusedSlot (seen turns 1)))
    (FieldRace.Race.start fun c => LeafEntry.field (reusedSlot (seen turns 1) 0) c.2) turns
  have four : s.buffer.length = 4 := by rw [length, full]; rfl
  obtain ⟨r, buffer⟩ := exists_data (fun i inside => buffer_field run (by omega) inside) four
  have eq := read_entry run buffer
  have history := reusedSlot_history (seen turns 1)
  obtain ⟨n, key, value⟩ := sound _ s r history run buffer (by
    rw [eq]
    exact (history.versions _).1.trans ((nibble_inj.mpr cancels).trans (history.versions _).2.symm)) (by
    rw [eq]
    simp only [reusedSlot, not_le.mpr overtaken, if_false]
    decide)
  rw [eq] at key value
  simp only [reusedSlot, le_refl, if_true, not_le.mpr overtaken, if_false] at key value
  by_cases before : n ≤ seen turns 1
  · simp only [before, if_true] at value
    split at value
    · exact absurd value (by decide)
    · exact absurd value (by decide)
  · simp [before] at key

theorem SlotHistory.stored {entries : Nat → LeafEntry} (history : SlotHistory entries) {turns : List Turn}
    (behind : seen turns 2 ≤ seen turns 1) (used : (entries (seen turns 2)).value ≠ kValueNull) :
    ∃ n, (entries n).key = (entries (seen turns 1)).key ∧ (entries n).value = (entries (seen turns 2)).value := by
  have close : seen turns 1 ≤ seen turns 2 + 1 := rounds_le_succ 4 (writesBefore_mono turns (by decide))
  obtain same | one := Nat.lt_or_ge (seen turns 2) (seen turns 1)
  · -- the read overtook one write, which kept the key of the used slot
    have next : seen turns 1 = seen turns 2 + 1 := by omega
    obtain ⟨k, v, rewritten, free | kept⟩ := history.next (seen turns 2)
    · exact absurd free used
    · refine ⟨seen turns 2, ?_, rfl⟩
      rw [next, rewritten, LeafEntry.rewrite, kept]
  · exact ⟨seen turns 1, rfl, by rw [Nat.le_antisymm behind one]⟩

theorem entrySound_iff (turns : List Turn) (full : turns.count .read = 4) : EntrySound turns ↔
    ¬ seen turns 0 ≡ seen turns 3 [MOD 16] ∨ seen turns 2 ≤ seen turns 1 := by
  refine ⟨EntrySound.condition full, ?_⟩
  rintro condition entries s r history run buffer accepted used
  rw [read_entry run buffer] at accepted used ⊢
  obtain differ | behind := condition
  · rw [(history.versions _).1, (history.versions _).2, nibble_inj] at accepted
    exact absurd accepted differ
  · exact history.stored behind used

/-- The last write a read sees in the key and the writes up to the one it sees in the value leave the slot to
different keys, and the mixture is no entry the slot ever held. -/
def Mixes (entries : Nat → LeafEntry) (turns : List Turn) : Prop :=
  seen turns 1 < seen turns 2 ∧ (entries (seen turns 2)).key ≠ (entries (seen turns 1)).key ∧
    ∀ n, (entries n).key = (entries (seen turns 1)).key → (entries n).value ≠ (entries (seen turns 2)).value

def overtakenEntry : List Turn := [.read, .read, .write, .write, .write, .read, .read]

def updatedSlot (n : Nat) : LeafEntry := ⟨BitVec.ofNat 4 n, 1, 5 + n, BitVec.ofNat 4 n⟩

end Sherman.Race
