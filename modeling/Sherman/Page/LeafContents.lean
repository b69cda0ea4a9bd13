import Sherman.Page.LeafSpec
import Sherman.Tree.Machine

namespace Sherman
namespace LeafPage

/-- The write of one entry leaves the page the write of the whole page would leave. -/
def EntryWrites (p p' : LeafPage) (i : Nat) : Prop :=
  ∀ a, (Write.entry a i (p'.records.getD i default)).apply (some (.leaf p)) =
    (Write.page a (.leaf p')).apply (some (.leaf p))

structure Kept (p : LeafPage) (k : Key) (v : Value) (i : Nat) (p' : LeafPage) : Prop where
  entry : EntryWrites p p' i
  ok : p'.Ok
  hdr : p'.hdr = p.hdr
  binds : Rebinds k v p.Holds p'.Holds

structure Parted (p : LeafPage) (k : Key) (v : Value) (a : GlobalAddress) (page sibling : LeafPage) (s : Key) :
    Prop where
  inside : p.hdr.lowest < s ∧ s < p.hdr.highest
  ok : page.Ok ∧ sibling.Ok
  fences : page.hdr.lowest = p.hdr.lowest ∧ page.hdr.highest = s ∧
    sibling.hdr.lowest = s ∧ sibling.hdr.highest = p.hdr.highest
  links : page.hdr.siblingPtr = a ∧ sibling.hdr.siblingPtr = p.hdr.siblingPtr
  lower : ∀ k' v', page.Holds k' v' → k' < s
  upper : ∀ k' v', sibling.Holds k' v' → s ≤ k'
  binds : Rebinds k v p.Holds fun k' v' => page.Holds k' v' ∨ sibling.Holds k' v'

theorem entryWrites_setRecord {p : LeafPage} {i : Nat} (bound : i < kLeafCardinality) (r : LeafEntry) :
    EntryWrites p (p.setRecord i r) i := by
  intro a
  have read : (p.setRecord i r).records.getD i default = r := by
    have := p.size
    simp [setRecord, this, bound]
  rw [read]
  rfl

theorem Ok.scan_absent {p : LeafPage} (ok : p.Ok) {k : Key} (missed : (p.scan k).updateIndex = none) :
    p.scan k = ⟨p.records.countP LeafEntry.used, p.records.findIdx? fun r => !r.used, none⟩ := by
  have absent : ∀ x ∈ p.records, x.value ≠ kValueNull → x.key ≠ k := by
    rintro r mem nonnull rfl
    obtain ⟨l, l', split⟩ := List.append_of_mem mem
    have distinct := ok.distinct
    rw [split, List.pairwise_append] at distinct
    have found := (scanFrom_found (fun x hx used => distinct.2.2 x hx r (by simp) used nonnull)
      rfl nonnull 0 0 none : (scanFrom r.key (l ++ r :: l') 0 0 none).updateIndex = _ ∧ _).1
    rw [← split] at found
    rw [scan, found] at missed
    cases missed
  rw [scan, scanFrom_absent absent]
  simp

theorem Ok.store_full {p p' : LeafPage} (ok : p.Ok) {k : Key} {v : Value} {i : Nat} (nonnull : v ≠ kValueNull)
    (h : p.store k v = .ok (i, p', kLeafCardinality)) : p'.records.countP LeafEntry.used = kLeafCardinality := by
  simp only [LeafPage.store] at h
  split at h
  · cases h
  · rename_i notFull
    split at h
    · simp only [Except.ok.injEq, Prod.mk.injEq] at h
      exact absurd h.2.2 notFull
    · rename_i missed
      have scanned := ok.scan_absent missed
      rw [scanned] at h
      split at h
      · cases h
      · rename_i j empty
        obtain ⟨l, r, l', split, rfl, unused, -⟩ := findIdx?_split empty
        simp only [Except.ok.injEq, Prod.mk.injEq] at h
        obtain ⟨-, rfl, count⟩ := h
        have rewritten : ((p.records.getD l.length default).rewrite k v).used = true := by
          simpa [LeafEntry.rewrite] using nonnull
        rw [split, List.countP_append, List.countP_cons] at count
        rw [setRecord_split split, List.countP_append, List.countP_cons, rewritten]
        simp only [Bool.not_eq_true'] at unused
        simp only [unused, Bool.false_eq_true, if_false, if_true] at count ⊢
        omega

/-- A store rebinds the key in the page or in the page and its sibling together; it splits exactly when the
page becomes full. A delete unbinds the key. -/
theorem leaf_page_contents (p : LeafPage) (ok : p.Ok) (k : Key) (low : p.hdr.lowest ≤ k) (high : k < p.hdr.highest) :
    (∀ v, v ≠ kValueNull → ∃ i p' cnt, p.store k v = .ok (i, p', cnt) ∧
      (cnt = kLeafCardinality ↔ p'.records.countP LeafEntry.used = kLeafCardinality) ∧
      (cnt ≠ kLeafCardinality → Kept p k v i p') ∧
      (cnt = kLeafCardinality → ∀ a, ∃ page sibling s, p'.split a = .ok (page, sibling, s) ∧
        Parted p k v a page.setConsistent sibling.setConsistent s)) ∧
    match p.del k with
    | none => ∀ v, ¬ p.Holds k v
    | some (i, p') => Kept p k kValueNull i p' ∧ ∃ v, p.Holds k v := by
  refine ⟨fun v nonnull => ?_, ?_⟩
  · obtain ⟨i, p', cnt, result, stored⟩ := ok.store v low high
    obtain ⟨r, written, bound⟩ := stored.slot
    have hdr : p'.hdr = p.hdr := by rw [written]; rfl
    refine ⟨i, p', cnt, result, ⟨?_, fun full => ?_⟩, fun notFull => ?_, fun full a => ?_⟩
    · rintro rfl
      exact ok.store_full nonnull result
    · by_contra notFull
      exact absurd full (stored.ok notFull).space.ne
    · exact ⟨written ▸ entryWrites_setRecord bound r, stored.ok notFull, hdr, stored.rebinds⟩
    · obtain ⟨page, sibling, s, split, halves⟩ := (stored.full full).split a
      have pageHdr := halves.page_hdr
      have siblingHdr := halves.sibling_hdr
      rw [hdr] at pageHdr siblingHdr
      refine ⟨page, sibling, s, split, ⟨?_, ⟨halves.page_ok, halves.sibling_ok⟩,
        ⟨pageHdr.1, pageHdr.2.1, siblingHdr.1, siblingHdr.2.1⟩, ⟨pageHdr.2.2, siblingHdr.2.2⟩,
        fun k' v' holds => ?_, fun k' v' holds => ?_, fun k' v' => ?_⟩⟩
      · exact hdr ▸ ⟨halves.above, halves.below⟩
      · have := (halves.page_ok.holds_range holds).2
        exact this.trans_eq pageHdr.2.1
      · have := (halves.sibling_ok.holds_range holds).1
        exact siblingHdr.1.symm.trans_le this
      · exact (halves.holds k' v').symm.trans (stored.rebinds k' v')
  · split
    · rename_i absent
      exact del_none absent
    · rename_i i p' deleted
      obtain ⟨⟨r, written, bound⟩, ok', rebinds, held⟩ := ok.del deleted
      exact ⟨⟨written ▸ entryWrites_setRecord bound r, ok', by rw [written]; rfl, rebinds⟩, held⟩

def nearlyFull : LeafPage :=
  { (LeafPage.new 0).setConsistent with
    records := (List.range 54).map fun i => ⟨1, 60 - i, if i = 25 then kValueNull else 1, 1⟩
    size := by simp [kLeafCardinality_eq] }

theorem nearlyFull_ok : nearlyFull.Ok where
  level := rfl
  leftmost := rfl
  consistent := rfl
  fence := new_ok.fence
  highest_le := new_ok.highest_le
  versions := by decide +kernel
  range := by decide +kernel
  distinct := by decide +kernel
  space := by decide +kernel

theorem nearlyFull_fills : (match nearlyFull.store 64 9 with
    | .ok (_, _, cnt) => decide (cnt = kLeafCardinality)
    | .error _ => false) = true := by
  decide +kernel

theorem leaf_page_contents_nearlyFull : ∃ i p' page sibling s,
    nearlyFull.store 64 9 = .ok (i, p', kLeafCardinality) ∧ p'.split ⟨0, 8⟩ = .ok (page, sibling, s) ∧
    (page.setConsistent.Holds 64 9 ∨ sibling.setConsistent.Holds 64 9) ∧
    (page.setConsistent.Holds 40 1 ∨ sibling.setConsistent.Holds 40 1) := by
  obtain ⟨i, p', cnt, result, -, -, parts⟩ :=
    (leaf_page_contents nearlyFull nearlyFull_ok 64 (by decide) (by decide)).1 9 (by decide)
  have fills := nearlyFull_fills
  rw [result, decide_eq_true_eq] at fills
  subst fills
  obtain ⟨page, sibling, s, split, parted⟩ := parts rfl ⟨0, 8⟩
  exact ⟨i, p', page, sibling, s, result, split, (parted.binds 64 9).mpr (.inl ⟨rfl, rfl, by decide⟩),
    (parted.binds 40 1).mpr (.inr ⟨by decide, by unfold Holds; decide +kernel⟩)⟩

end LeafPage
end Sherman
