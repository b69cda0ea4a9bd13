import Mathlib.Data.Nat.ModEq
import Sherman.Concurrency.FieldRace
import Sherman.Page.Layout

/-!
# Lock-free page reads

`page_search` reads a page field by field while the holders of its lock write it. The two versions of
`check_consistent` tell how often reader and writers have crossed between the ends of the page, in one
direction minus the other and modulo 256.
-/

namespace Sherman.Race

open Concurrency FieldRace

inductive Datum where
  | version (v : BitVec 8)
  | nibble (v : BitVec 4)
  | addr (a : GlobalAddress)
  | level (n : Nat)
  | index (i : Int)
  | key (k : Key)
  | value (v : Value)
  deriving DecidableEq

end Race

def Header.data (h : Header) : List Race.Datum :=
  [.addr h.leftmostPtr, .addr h.siblingPtr, .level h.level, .index h.lastIndex, .key h.lowest,
    .key h.highest]

def LeafEntry.data (r : LeafEntry) : List Race.Datum :=
  [.nibble r.fVersion, .key r.key, .value r.value, .nibble r.rVersion]

def InternalEntry.data (r : InternalEntry) : List Race.Datum := [.key r.key, .addr r.ptr]

namespace Page

def frontVersion : Page → BitVec 8
  | .internal p => p.frontVersion
  | .leaf p => p.frontVersion

def rearVersion : Page → BitVec 8
  | .internal p => p.rearVersion
  | .leaf p => p.rearVersion

def setConsistent : Page → Page
  | .internal p => .internal p.setConsistent
  | .leaf p => .leaf p.setConsistent

def checkConsistent : Page → Bool
  | .internal p => p.checkConsistent
  | .leaf p => p.checkConsistent

def recordData : Page → List Race.Datum
  | .internal p => p.records.flatMap InternalEntry.data
  | .leaf p => p.records.flatMap LeafEntry.data

def data (p : Page) : List Race.Datum :=
  .version p.frontVersion :: (p.hdr.data ++ p.recordData ++ [.version p.rearVersion])

def field (p : Page) (i : Nat) : Race.Datum := p.data.getD i (.level 0)

def fields : Page → Nat
  | .internal _ => 8 + 2 * kInternalCardinality
  | .leaf _ => 8 + 4 * kLeafCardinality

theorem length_flatMap_const {α β : Type} {n : Nat} {f : α → List β} (each : ∀ x, (f x).length = n)
    (xs : List α) : (xs.flatMap f).length = n * xs.length := by
  induction xs with
  | nil => rfl
  | cons x xs ih =>
      rw [List.flatMap_cons, List.length_append, each, ih, List.length_cons, Nat.mul_succ]
      exact Nat.add_comm _ _

theorem length_data (p : Page) : p.data.length = p.fields := by
  cases p with
  | internal p =>
      have := @length_flatMap_const _ _ 2 InternalEntry.data (fun _ => rfl) p.records
      rw [p.size] at this
      simp [data, fields, recordData, Header.data, this]
      omega
  | leaf p =>
      have := @length_flatMap_const _ _ 4 LeafEntry.data (fun _ => rfl) p.records
      rw [p.size] at this
      simp [data, fields, recordData, Header.data, this]
      omega

theorem two_le_fields (p : Page) : 2 ≤ p.fields := by cases p <;> simp [fields] <;> omega

@[simp] theorem field_zero (p : Page) : p.field 0 = .version p.frontVersion := rfl

@[simp] theorem field_last (p : Page) : p.field (p.fields - 1) = .version p.rearVersion := by
  rw [field, ← length_data]
  have : p.data = (.version p.frontVersion :: (p.hdr.data ++ p.recordData)) ++
    [.version p.rearVersion] := by simp [data]
  rw [this, List.length_append, List.length_singleton, Nat.add_sub_cancel]
  simp

@[simp] theorem setConsistent_front (p : Page) :
    p.setConsistent.frontVersion = p.frontVersion + 1 := by cases p <;> rfl

@[simp] theorem setConsistent_rear (p : Page) :
    p.setConsistent.rearVersion = p.frontVersion + 1 := by cases p <;> rfl

theorem checkConsistent_iff (p : Page) : p.checkConsistent = true ↔ p.rearVersion = p.frontVersion := by
  cases p <;> simp [checkConsistent, InternalPage.checkConsistent, LeafPage.checkConsistent,
    rearVersion, frontVersion]

end Page

namespace Race

open Concurrency FieldRace

/-- The versions of a page that successive holders of its lock write: each has read the one before,
changed it and called `set_consistent`. -/
structure Rewrites (pages : Nat → Page) : Prop where
  start : (pages 0).checkConsistent = true
  next : ∀ n, ∃ p : Page, p.frontVersion = (pages n).frontVersion ∧ pages (n + 1) = p.setConsistent
  fields : ∀ n, (pages n).fields = (pages 0).fields

def pageRace (pages : Nat → Page) : FieldRace.Race (Unit × Nat) Datum :=
  roundRobin (pages 0).fields (fun _ => ()) (fun n _ i => (pages n).field i) fun r => ((), r)

/-- The write of the page that a read sees in a field. -/
def origin (pages : Nat → Page) (turns : List Turn) (i : Nat) : Nat :=
  rounds (pages 0).fields i (writesBefore turns i)

def accepts (buffer : List Datum) : Prop := buffer[buffer.length - 1]? = buffer[0]?

instance (buffer : List Datum) : Decidable (accepts buffer) := by unfold accepts; infer_instance

/-- The read and the writes cross between two fields. -/
def Crosses (pages : Nat → Page) (turns : List Turn) (i : Nat) : Prop :=
  origin pages turns (i + 1) ≠ origin pages turns i

theorem Rewrites.versions {pages : Nat → Page} (rewrites : Rewrites pages) (n : Nat) :
    (pages n).frontVersion = (pages 0).frontVersion + BitVec.ofNat 8 n ∧
      (pages n).rearVersion = (pages 0).frontVersion + BitVec.ofNat 8 n := by
  induction n with
  | zero =>
      have := (Page.checkConsistent_iff _).mp rewrites.start
      simp [this]
  | succ n ih =>
      obtain ⟨p, version, eq⟩ := rewrites.next n
      have up : p.frontVersion + 1 = (pages 0).frontVersion + BitVec.ofNat 8 (n + 1) := by
        rw [version, ih.1, BitVec.add_assoc]
        congr 1
        apply BitVec.eq_of_toNat_eq
        simp
      rw [eq]
      exact ⟨by rw [Page.setConsistent_front, up], by rw [Page.setConsistent_rear, up]⟩

theorem add_ofNat_inj {v : BitVec 8} {n m : Nat} :
    v + BitVec.ofNat 8 n = v + BitVec.ofNat 8 m ↔ n ≡ m [MOD 256] := by
  rw [BitVec.add_right_inj, ← BitVec.toNat_inj]
  simp [Nat.ModEq]

theorem read_field {pages : Nat → Page} {turns : List Turn} {s : FieldRace.State (Unit × Nat) Datum}
    (run : (pageRace pages).machine.run (FieldRace.Race.start fun c => (pages 0).field c.2) turns = some s)
    (full : s.buffer.length = (pages 0).fields) {i : Nat} (inside : i < (pages 0).fields) :
    s.buffer[i]? = some ((pages (origin pages turns i)).field i) := by
  rw [FieldRace.Race.buffer_eq run (by omega)]
  exact congrArg some (after_roundRobin
    (fun _ j other => absurd rfl other) (writesBefore turns i) () inside)

theorem accepts_iff {pages : Nat → Page} (rewrites : Rewrites pages) {turns : List Turn}
    {s : FieldRace.State (Unit × Nat) Datum}
    (run : (pageRace pages).machine.run (FieldRace.Race.start fun c => (pages 0).field c.2) turns = some s)
    (full : s.buffer.length = (pages 0).fields) : accepts s.buffer ↔
      origin pages turns 0 ≡ origin pages turns ((pages 0).fields - 1) [MOD 256] := by
  have two := (pages 0).two_le_fields
  have last : ∀ n, (pages n).field ((pages 0).fields - 1) = .version (pages n).rearVersion := by
    intro n
    rw [← rewrites.fields n, Page.field_last]
  rw [accepts, full, read_field run full (by omega), read_field run full (by omega), last,
    Page.field_zero, (rewrites.versions _).1, (rewrites.versions _).2]
  simp only [Option.some.injEq, Datum.version.injEq, add_ofNat_inj]
  exact Nat.ModEq.comm

/-- Where the read has crossed to other versions of the page than `n`, their contents are the same. -/
def Harmless (pages : Nat → Page) (turns : List Turn) (n : Nat) : Prop :=
  ∀ i, 0 < i → i + 1 < (pages 0).fields → origin pages turns i ≠ n →
    (pages (origin pages turns i)).field i = (pages n).field i

theorem Harmless.field {pages : Nat → Page} {turns : List Turn} {n : Nat} (harmless : Harmless pages turns n) {i : Nat}
    (pos : 0 < i) (inside : i + 1 < (pages 0).fields) :
    (pages (origin pages turns i)).field i = (pages n).field i := by
  by_cases same : origin pages turns i = n
  · rw [same]
  · exact harmless i pos inside same

theorem harmless_of_still {pages : Nat → Page} {turns : List Turn}
    (still : ∀ i, 0 < i → i + 2 < (pages 0).fields → ¬ Crosses pages turns i) :
    Harmless pages turns (origin pages turns 1) := by
  intro i pos inside other
  suffices same : origin pages turns i = origin pages turns 1 from absurd same other
  clear other
  induction i, pos using Nat.le_induction with
  | base => rfl
  | succ i pos ih => exact (not_not.mp (still i pos (by omega))).trans (ih (by omega))

/-! ## A torn page that is accepted -/

/-- A leaf page with one record, and the page after a split has moved the record to the sibling. -/
def beforeSplit : LeafPage :=
  { LeafPage.new 0 with
    records := ⟨1, 5, 50, 1⟩ :: List.replicate (kLeafCardinality - 1) default
    size := by simp [kLeafCardinality_eq] }

def afterSplit : LeafPage :=
  { LeafPage.new 0 with
    hdr := { Header.new 0 with highest := 5, siblingPtr := ⟨1, 4096⟩ }
    frontVersion := 1
    rearVersion := 1 }

def splitPages : Nat → Page
  | 0 => .leaf beforeSplit
  | 1 => .leaf afterSplit
  | n + 2 => (splitPages (n + 1)).setConsistent

/-- The writer writes the front version, the read overtakes it in the header, and the writer
overtakes the read before the records. -/
def overtaking : List Turn :=
  .write :: (List.replicate 7 .read ++ (List.replicate 223 .write ++ (List.replicate 217 .read ++ [])))

/-! ## A torn read that does no harm -/

def rewrittenPages : Nat → Page
  | 0 => .leaf beforeSplit
  | n + 1 => (rewrittenPages n).setConsistent

end Race
end Sherman
