import Sherman.Page.Layout

namespace Sherman
namespace InternalPage

/-- The scan `for (i = 1; i < cnt; ++i)` for the child of a key not below `records[0]`. -/
def childFrom (p : InternalPage) (k : Key) : Nat → Nat → GlobalAddress
  | 0, i => (p.records.getD (i - 1) default).ptr
  | fuel + 1, i =>
      if k < (p.records.getD i default).key then (p.records.getD (i - 1) default).ptr
      else childFrom p k fuel (i + 1)

def child (p : InternalPage) (k : Key) : GlobalAddress :=
  if k < (p.records.getD 0 default).key then p.hdr.leftmostPtr
  else childFrom p k (p.cnt - 1) 1

def search (p : InternalPage) (k : Key) : Except Fault GlobalAddress :=
  if ¬ p.hdr.lowest ≤ k then .error (.assertion .internalPageSearch .lowest)
  else if ¬ k < p.hdr.highest then .error (.assertion .internalPageSearch .highest)
  else .ok (p.child k)

/-- The backward scan of `internal_page_store` over `records[0..n)`: the slot holding the key, or
the slot to insert it at. -/
def scanDown (records : List InternalEntry) (k : Key) : Nat → Bool × Nat
  | 0 => (false, 0)
  | i + 1 =>
      if (records.getD i default).key = k then (true, i)
      else if (records.getD i default).key < k then (false, i + 1)
      else scanDown records k i

/-- `for (i = cnt; i > insert_index; --i) records[i] = records[i - 1]`. -/
def shiftUp (index : Nat) : Nat → List InternalEntry → List InternalEntry
  | 0, records => records
  | i + 1, records =>
      if index < i + 1 then shiftUp index i (records.set (i + 1) (records.getD i default))
      else records

theorem length_shiftUp (index i : Nat) (records : List InternalEntry) :
    (shiftUp index i records).length = records.length := by
  induction i generalizing records with
  | zero => rfl
  | succ i ih =>
      simp only [shiftUp]
      split
      · rw [ih, List.length_set]
      · rfl

def store (p : InternalPage) (k : Key) (v : GlobalAddress) : Except Fault InternalPage :=
  let cnt := p.cnt
  let (isUpdate, i) := scanDown p.records k cnt
  if cnt = kInternalCardinality then .error (.assertion .internalPageStore .notFull)
  else if isUpdate then
    .ok { p with
      records := p.records.set i { p.records.getD i default with ptr := v }
      size := by simp [p.size] }
  else
    .ok { p with
      hdr := { p.hdr with lastIndex := p.hdr.lastIndex + 1 }
      records := (shiftUp i cnt p.records).set i ⟨k, v⟩
      size := by simp [length_shiftUp, p.size] }

/-- The split of a full page: the page, its sibling and the split key. The middle record becomes
the leftmost child of the sibling. -/
def split (p : InternalPage) (siblingAddr : GlobalAddress) :
    Except Fault (InternalPage × InternalPage × Key) :=
  let cnt := kInternalCardinality
  let m := cnt / 2
  let middle := p.records.getD m default
  if p.hdr.lowest < middle.key ∧ middle.key < p.hdr.highest then
    let sibling : InternalPage :=
      { InternalPage.new p.hdr.level with
        hdr := { Header.new p.hdr.level with
          lastIndex := -1 + (cnt - m - 1 : Nat)
          leftmostPtr := middle.ptr
          lowest := middle.key
          highest := p.hdr.highest
          siblingPtr := p.hdr.siblingPtr }
        records := p.records.drop (m + 1) ++ List.replicate (m + 1) default
        size := by simp [m, cnt, p.size, kInternalCardinality_eq] }
    let page : InternalPage :=
      { p with hdr := { p.hdr with
          lastIndex := p.hdr.lastIndex - (cnt - m : Nat)
          highest := middle.key
          siblingPtr := siblingAddr } }
    .ok (page, sibling, middle.key)
  else .error (.assertion .internalPageStore .splitKey)

end InternalPage
end Sherman
