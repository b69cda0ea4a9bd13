import Sherman.Page.Layout
import Mathlib.Data.List.Sort

namespace Sherman
namespace LeafPage

/-- `leaf_page_search`: the value of the first accepted record of the key, or null. -/
def search (p : LeafPage) (k : Key) : Value :=
  match p.records.find? fun r => r.key = k ∧ r.value ≠ kValueNull ∧ r.fVersion = r.rVersion with
  | some r => r.value
  | none => kValueNull

structure Scan where
  cnt : Nat
  emptyIndex : Option Nat
  updateIndex : Option Nat
  deriving DecidableEq, Repr

def scanFrom (k : Key) : List LeafEntry → Nat → Nat → Option Nat → Scan
  | [], _, cnt, empty => ⟨cnt, empty, none⟩
  | r :: rest, i, cnt, empty =>
      if r.value ≠ kValueNull then
        if r.key = k then ⟨cnt + 1, empty, some i⟩
        else scanFrom k rest (i + 1) (cnt + 1) empty
      else scanFrom k rest (i + 1) cnt (if empty = none then some i else empty)

def scan (p : LeafPage) (k : Key) : Scan := scanFrom k p.records 0 0 none

/-- The record part of `leaf_page_store`: the slot written, the page and the count after it. -/
def store (p : LeafPage) (k : Key) (v : Value) : Except Fault (Nat × LeafPage × Nat) :=
  let s := p.scan k
  if s.cnt = kLeafCardinality then .error (.assertion .leafPageStore .notFull)
  else match s.updateIndex with
    | some i => .ok (i, p.setRecord i ((p.records.getD i default).rewrite k v), s.cnt)
    | none => match s.emptyIndex with
      | none => .error (.assertion .leafPageStore .emptyRecord)
      | some i => .ok (i, p.setRecord i ((p.records.getD i default).rewrite k v), s.cnt + 1)

def sorted (p : LeafPage) : List LeafEntry := p.records.insertionSort fun a b => a.key ≤ b.key

theorem length_sorted (p : LeafPage) : p.sorted.length = kLeafCardinality := by
  rw [sorted, List.length_insertionSort, p.size]

/-- The split of a full page: the page, its sibling and the split key. The upper half of the
sorted records moves with its keys and values only. -/
def split (p : LeafPage) (siblingAddr : GlobalAddress) : Except Fault (LeafPage × LeafPage × Key) :=
  let m := kLeafCardinality / 2
  let splitKey := (p.sorted.getD m default).key
  let moved := p.sorted.drop m
  if p.hdr.lowest < splitKey ∧ splitKey < p.hdr.highest then
    let sibling : LeafPage :=
      { LeafPage.new p.hdr.level with
        hdr := { Header.new p.hdr.level with
          lastIndex := -1 + (kLeafCardinality - m : Nat)
          lowest := splitKey
          highest := p.hdr.highest
          siblingPtr := p.hdr.siblingPtr }
        records := moved.map (fun r => ⟨0, r.key, r.value, 0⟩) ++ List.replicate m default
        size := by simp [moved, m, length_sorted, kLeafCardinality_eq] }
    let page : LeafPage :=
      { p with
        hdr := { p.hdr with
          lastIndex := p.hdr.lastIndex - (kLeafCardinality - m : Nat)
          highest := splitKey
          siblingPtr := siblingAddr }
        records := p.sorted.take m ++ moved.map fun r => { r with key := 0, value := kValueNull }
        size := by simp [moved, m, length_sorted, kLeafCardinality_eq] }
    .ok (page, sibling, splitKey)
  else .error (.assertion .leafPageStore .splitKey)

def del (p : LeafPage) (k : Key) : Option (Nat × LeafPage) :=
  match p.records.findIdx? fun r => r.key = k ∧ r.value ≠ kValueNull with
  | none => none
  | some i =>
      let r := p.records.getD i default
      some (i, p.setRecord i (r.rewrite r.key kValueNull))

end LeafPage
end Sherman
