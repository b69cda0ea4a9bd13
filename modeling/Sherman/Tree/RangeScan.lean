import Sherman.Page.Leaf
import Sherman.Cache.IndexCache

namespace Sherman

namespace InternalPage

def childrenFrom (highest fromKey toKey : Key) : GlobalAddress → Key → List InternalEntry → List GlobalAddress
  | ptr, low, [] => if highest < fromKey ∨ toKey < low then [] else [ptr]
  | ptr, low, r :: rest =>
      if r.key < fromKey ∨ toKey < low then childrenFrom highest fromKey toKey r.ptr r.key rest
      else ptr :: childrenFrom highest fromKey toKey r.ptr r.key rest

def leaves (p : InternalPage) (fromKey toKey : Key) : List GlobalAddress :=
  childrenFrom p.hdr.highest fromKey toKey p.hdr.leftmostPtr p.hdr.lowest p.live

end InternalPage

def LeafPage.recordsIn (p : LeafPage) (fromKey toKey : Key) : List LeafEntry :=
  p.records.filter fun r =>
    r.value ≠ kValueNull ∧ r.fVersion = r.rVersion ∧ fromKey ≤ r.key ∧ r.key ≤ toKey

def Page.recordsIn (fromKey toKey : Key) : Option Page → List LeafEntry
  | some (.leaf p) => p.recordsIn fromKey toKey
  | _ => []

def kParaFetch : Nat := 32

/-- The read loop: when `kParaFetch` reads are outstanding, they are polled and their pages scanned. -/
def fetch {α β : Type} (scan : α → List β) : List α → List α → List β
  | outstanding, [] => outstanding.flatMap scan
  | outstanding, page :: rest =>
      if outstanding.length = kParaFetch then outstanding.flatMap scan ++ fetch scan [page] rest
      else fetch scan (outstanding ++ [page]) rest

theorem fetch_eq {α β : Type} (scan : α → List β) (outstanding rest : List α) :
    fetch scan outstanding rest = (outstanding ++ rest).flatMap scan := by
  induction rest generalizing outstanding with
  | nil => rw [fetch, List.append_nil]
  | cons page rest ih =>
      rw [fetch]
      split
      · rw [ih, ← List.flatMap_append, List.singleton_append]
      · rw [ih, List.append_assoc, List.singleton_append]

/-- The records whose values `range_query` writes to `value_buffer`, in this order. -/
def rangeRecords (cache : IndexCache) (read : GlobalAddress → Option Page) (fromKey toKey : Key) : List LeafEntry :=
  fetch (Page.recordsIn fromKey toKey) []
    (((cache.searchRangeFromCache fromKey toKey).flatMap (·.leaves fromKey toKey)).map read)

/-- `range_query`: the contents of `value_buffer` up to the counter it returns. -/
def rangeQuery (cache : IndexCache) (read : GlobalAddress → Option Page) (fromKey toKey : Key) : List Value :=
  (rangeRecords cache read fromKey toKey).map (·.value)

end Sherman
