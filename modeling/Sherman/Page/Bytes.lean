import Sherman.Packed.Layout
import Sherman.Page.LeafSpec
import Sherman.Page.InternalSpec

/-!
# The bytes of a page

The structures of `include/GlobalAddress.h` and `include/Tree.h` are packed, so the source fixes where each
field lies. The union in front of a page is a lock, a checksum or a counter of the cache, none of which is used
in memory.
-/

namespace Sherman

open Packed

def GlobalAddress.parts : GlobalAddress ≃ Nat × Nat where
  toFun a := (a.nodeID, a.offset)
  invFun x := ⟨x.1, x.2⟩

def GlobalAddress.layout : Layout GlobalAddress := ((Layout.uint 2).pair (.uint 6)).iso parts

def Header.parts : Header ≃ GlobalAddress × GlobalAddress × Nat × Int × Key × Key where
  toFun h := (h.leftmostPtr, h.siblingPtr, h.level, h.lastIndex, h.lowest, h.highest)
  invFun x := ⟨x.1, x.2.1, x.2.2.1, x.2.2.2.1, x.2.2.2.2.1, x.2.2.2.2.2⟩

def Header.layout : Layout Header :=
  (GlobalAddress.layout.pair (GlobalAddress.layout.pair ((Layout.uint 1).pair ((Layout.sint 2).pair
    ((Layout.uint 8).pair (.uint 8)))))).iso parts

def InternalEntry.parts : InternalEntry ≃ Key × GlobalAddress where
  toFun r := (r.key, r.ptr)
  invFun x := ⟨x.1, x.2⟩

def InternalEntry.layout : Layout InternalEntry := ((Layout.uint 8).pair GlobalAddress.layout).iso parts

def LeafEntry.parts : LeafEntry ≃ BitVec 4 × Key × Value × BitVec 4 where
  toFun r := (r.fVersion, r.key, r.value, r.rVersion)
  invFun x := ⟨x.1, x.2.1, x.2.2.1, x.2.2.2⟩

def LeafEntry.layout : Layout LeafEntry :=
  ((Layout.bitField 4 (by omega)).pair ((Layout.uint 8).pair ((Layout.uint 8).pair (.bitField 4 (by omega))))).iso parts

def InternalPage.parts :
    InternalPage ≃ Unit × BitVec 8 × Header × (Fin kInternalCardinality → InternalEntry) × BitVec 8 where
  toFun p := ((), p.frontVersion, p.hdr, fun i => p.records.get (i.cast p.size.symm), p.rearVersion)
  invFun x := ⟨x.2.1, x.2.2.1, List.ofFn x.2.2.2.1, x.2.2.2.2, List.length_ofFn⟩
  left_inv p := by
    have records := List.ofFn_get p.records
    rw [List.ofFn_congr p.size] at records
    cases p
    simpa using records
  right_inv x := by simp

def InternalPage.layout : Layout InternalPage :=
  ((Layout.skip 8).pair ((Layout.bitField 8 le_rfl).pair (Header.layout.pair
    ((InternalEntry.layout.array kInternalCardinality).pair (.bitField 8 le_rfl))))).iso parts

def LeafPage.parts : LeafPage ≃ Unit × BitVec 8 × Header × (Fin kLeafCardinality → LeafEntry) × BitVec 8 where
  toFun p := ((), p.frontVersion, p.hdr, fun i => p.records.get (i.cast p.size.symm), p.rearVersion)
  invFun x := ⟨x.2.1, x.2.2.1, List.ofFn x.2.2.2.1, x.2.2.2.2, List.length_ofFn⟩
  left_inv p := by
    have records := List.ofFn_get p.records
    rw [List.ofFn_congr p.size] at records
    cases p
    simpa using records
  right_inv x := by simp

def LeafPage.layout : Layout LeafPage :=
  ((Layout.skip 8).pair ((Layout.bitField 8 le_rfl).pair (Header.layout.pair
    ((LeafEntry.layout.array kLeafCardinality).pair (.bitField 8 le_rfl))))).iso parts

/-! ## Places -/

def InternalPage.headerPart : Part InternalPage.layout Header.layout :=
  (Part.ofIso _ _).trans ((Part.snd _ _).trans ((Part.snd _ _).trans (Part.fst _ _)))

def LeafPage.headerPart : Part LeafPage.layout Header.layout :=
  (Part.ofIso _ _).trans ((Part.snd _ _).trans ((Part.snd _ _).trans (Part.fst _ _)))

def LeafPage.recordPart (i : Fin kLeafCardinality) : Part LeafPage.layout LeafEntry.layout :=
  (Part.ofIso _ _).trans ((Part.snd _ _).trans ((Part.snd _ _).trans ((Part.snd _ _).trans ((Part.fst _ _).trans
    (Part.index _ i)))))

def LeafPage.recordOffset (i : Nat) : Nat := 8 + 1 + headerSize + i * leafEntrySize

theorem internalPage_size : InternalPage.layout.size ≤ kInternalPageSize := by decide
theorem leafPage_size : LeafPage.layout.size ≤ kLeafPageSize := by decide

theorem headerPart_offset : LeafPage.headerPart.offset = InternalPage.headerPart.offset := rfl

theorem recordPart_offset (i : Fin kLeafCardinality) :
    (LeafPage.recordPart i).offset = LeafPage.recordOffset i := by
  change 0 + (8 + (1 + (headerSize + (0 + i * leafEntrySize)))) = _
  rw [LeafPage.recordOffset]
  omega

theorem LeafPage.eq_of_parts {p q : LeafPage} (front : p.frontVersion = q.frontVersion) (hdr : p.hdr = q.hdr)
    (records : p.records = q.records) (rear : p.rearVersion = q.rearVersion) : p = q := by
  cases p
  cases q
  simp_all only

theorem InternalPage.eq_of_parts {p q : InternalPage} (front : p.frontVersion = q.frontVersion) (hdr : p.hdr = q.hdr)
    (records : p.records = q.records) (rear : p.rearVersion = q.rearVersion) : p = q := by
  cases p
  cases q
  simp_all only

theorem LeafPage.ofFn_records (p : LeafPage) :
    List.ofFn (fun i : Fin kLeafCardinality => p.records.get (i.cast p.size.symm)) = p.records :=
  congrArg LeafPage.records (LeafPage.parts.symm_apply_apply p)

theorem recordPart_set (i : Fin kLeafCardinality) (p : LeafPage) (r : LeafEntry) :
    (LeafPage.recordPart i).set p r = p.setRecord i r := by
  have records : List.ofFn (Function.update (fun i : Fin kLeafCardinality => p.records.get (i.cast p.size.symm)) i r) =
      p.records.set i r := by
    refine List.ext_getElem (by simp [p.size]) fun j less less' => ?_
    rw [List.getElem_ofFn, List.getElem_set, Function.update_apply]
    by_cases here : i.val = j
    · rw [if_pos here, if_pos (Fin.ext here.symm)]
    · rw [if_neg here, if_neg fun same => here (congrArg Fin.val same).symm]
      rfl
  exact LeafPage.eq_of_parts rfl rfl records rfl

/-! ## What is left of a page -/

theorem LeafPage.trim_records (p : LeafPage) :
    (LeafPage.layout.trim p).records = p.records.map LeafEntry.layout.trim := by
  conv_rhs => rw [← p.ofFn_records, List.map_ofFn]
  rfl

theorem InternalPage.ofFn_records (p : InternalPage) :
    List.ofFn (fun i : Fin kInternalCardinality => p.records.get (i.cast p.size.symm)) = p.records :=
  congrArg InternalPage.records (InternalPage.parts.symm_apply_apply p)

theorem InternalPage.trim_records (p : InternalPage) :
    (InternalPage.layout.trim p).records = p.records.map InternalEntry.layout.trim := by
  conv_rhs => rw [← p.ofFn_records, List.map_ofFn]
  rfl

theorem LeafPage.trim_setRecord (p : LeafPage) (i : Nat) (r : LeafEntry) :
    LeafPage.layout.trim (p.setRecord i r) = (LeafPage.layout.trim p).setRecord i (LeafEntry.layout.trim r) := by
  refine eq_of_parts rfl rfl ?_ rfl
  rw [trim_records]
  change (p.records.set i r).map LeafEntry.layout.trim = (LeafPage.layout.trim p).records.set i (LeafEntry.layout.trim r)
  rw [trim_records, List.map_set]

def Page.trim : Page → Page
  | .internal p => .internal (InternalPage.layout.trim p)
  | .leaf p => .leaf (LeafPage.layout.trim p)

/-! ## Memory -/

abbrev Bytes := NodeID → Memory

/-- A page as `page_search` takes it: the leftmost pointer tells the kinds apart. -/
def readPage (b : Bytes) (a : GlobalAddress) : Page :=
  let m := b a.nodeID
  if (Header.layout.read m (a.offset + LeafPage.headerPart.offset)).leftmostPtr = .null then
    .leaf (LeafPage.layout.read m a.offset)
  else .internal (InternalPage.layout.read m a.offset)

theorem readPage_congr {b b' : Bytes} {a : GlobalAddress}
    (same : ∀ i < kLeafPageSize, b a.nodeID (a.offset + i) = b' a.nodeID (a.offset + i)) :
    readPage b a = readPage b' a := by
  have leaf : LeafPage.layout.read (b a.nodeID) a.offset = LeafPage.layout.read (b' a.nodeID) a.offset :=
    Layout.read_congr _ _ _ _ _ fun i less => same i (less.trans_le leafPage_size)
  have internal : InternalPage.layout.read (b a.nodeID) a.offset = InternalPage.layout.read (b' a.nodeID) a.offset :=
    Layout.read_congr _ _ _ _ _ fun i less => same i (less.trans_le internalPage_size)
  simp only [readPage, LeafPage.headerPart.read_part, leaf, internal]

theorem readPage_leaf {b : Bytes} {a : GlobalAddress} {p : LeafPage}
    (read : LeafPage.layout.read (b a.nodeID) a.offset = p) (leftmost : p.hdr.leftmostPtr = .null) :
    readPage b a = .leaf p := by
  rw [readPage, LeafPage.headerPart.read_part, read]
  exact if_pos leftmost

theorem readPage_internal {b : Bytes} {a : GlobalAddress} {p : InternalPage}
    (read : InternalPage.layout.read (b a.nodeID) a.offset = p) (leftmost : p.hdr.leftmostPtr ≠ .null) :
    readPage b a = .internal p := by
  rw [readPage, headerPart_offset, InternalPage.headerPart.read_part, read]
  exact if_neg leftmost

theorem leaf_of_readPage {b : Bytes} {a : GlobalAddress} {p : LeafPage} (read : readPage b a = .leaf p) :
    LeafPage.layout.read (b a.nodeID) a.offset = p ∧ p.hdr.leftmostPtr = .null := by
  rw [readPage, LeafPage.headerPart.read_part] at read
  split at read
  · rename_i leftmost
    cases read
    exact ⟨rfl, leftmost⟩
  · cases read

end Sherman
