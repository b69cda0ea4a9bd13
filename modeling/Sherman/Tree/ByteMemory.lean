import Mathlib.Data.Finset.Prod
import Sherman.Alloc.Disjoint
import Sherman.Page.Bytes
import Sherman.Tree.Aborting
import Sherman.Tree.EntryWrites
import Sherman.Tree.Isolation
import Sherman.Tree.Occupancy

/-!
# The tree in the memories of the nodes

The nodes have bytes, not pages, and a one-sided write copies bytes. Pages at disjoint addresses are never mixed
up, and what `page_search` makes of the bytes at an address is the page that was written there.
-/

namespace Sherman

open Shared Concurrency Packed

def Write.copy (buffer : Memory) : Write → Bytes → Bytes
  | .page a (.internal p), b => Function.update b a.nodeID
      (Packed.copy kInternalPageSize (InternalPage.layout.write buffer 0 p) 0 (b a.nodeID) a.offset)
  | .page a (.leaf p), b => Function.update b a.nodeID
      (Packed.copy kLeafPageSize (LeafPage.layout.write buffer 0 p) 0 (b a.nodeID) a.offset)
  | .entry a i r, b => Function.update b a.nodeID
      (Packed.copy leafEntrySize (LeafEntry.layout.write buffer (LeafPage.recordOffset i) r) (LeafPage.recordOffset i)
        (b a.nodeID) (a.offset + LeafPage.recordOffset i))
  | .unlock _, b => b

def bytesAfter (s : State) (b : Bytes) (buffer : Memory) : Action Client Op Choice Env → Bytes
  | .interfere (.execute i) => match s.shared.pending[i]? with
      | some x => x.write.copy buffer b
      | none => b
  | _ => b

def bytesRun (cfg : Config) (s : State) (b : Bytes) : List (Action Client Op Choice Env × Memory) → Bytes
  | [] => b
  | (a, buffer) :: as => match (system cfg).step s a with
      | none => b
      | some s' => bytesRun cfg s' (bytesAfter s b buffer a) as

/-- The address fits into a `GlobalAddress` with the page behind it. -/
structure InRange (a : GlobalAddress) : Prop where
  nodeID : a.nodeID < 2 ^ 16
  offset : a.offset + kLeafPageSize ≤ 2 ^ 48

/-- What `DSM::alloc` promises of the pages it hands out. -/
def AllocatesApart (s : State) : Action Client Op Choice Env → Prop
  | .advance _ (.fresh a) =>
      InRange a ∧ ∀ b ∈ s.shared.allocated, Alloc.Apart a kLeafPageSize b kLeafPageSize
  | _ => True

/-- The first page is the second one as far as it fits into the fields. Only `last_index` of a leaf, which nobody
reads, can leave its range, and a slot that is not in use may hold any key. -/
inductive Page.Agrees : Page → Page → Prop where
  | internal {p q : InternalPage} (front : p.frontVersion = q.frontVersion) (hdr : p.hdr = q.hdr)
      (live : p.live = q.live) (rear : p.rearVersion = q.rearVersion) : Agrees (.internal p) (.internal q)
  | leaf {p q : LeafPage} (front : p.frontVersion = q.frontVersion)
      (hdr : p.hdr = { q.hdr with lastIndex := Int.bmod q.hdr.lastIndex (2 ^ 16) })
      (records : p.records = q.records.map LeafEntry.layout.trim)
      (used : ∀ r ∈ q.records, r.value ≠ kValueNull →
        LeafEntry.layout.trim r = { r with value := r.value % 2 ^ 64 })
      (rear : p.rearVersion = q.rearVersion) : Agrees (.leaf p) (.leaf q)

/-! ## Copies -/

section
variable {b : Bytes} {a c : GlobalAddress} {buffer : Memory} {w : Write}

theorem update_bytes (m : Memory) (i : Nat) (same : c.nodeID = a.nodeID → m i = b c.nodeID i) :
    Function.update b a.nodeID m c.nodeID i = b c.nodeID i := by
  by_cases here : c.nodeID = a.nodeID
  · rw [here, Function.update_self, same here, here]
  · rw [Function.update_of_ne here]

theorem readPage_copy_other (apart : Alloc.Apart c kLeafPageSize a kLeafPageSize) (target : w.target = some a)
    (at_ : EntryAt (some a) w) : readPage (w.copy buffer b) c = readPage b c := by
  have outside : ∀ off n, off + n ≤ kLeafPageSize → c.nodeID = a.nodeID → ∀ i < kLeafPageSize,
      c.offset + i < a.offset + off ∨ a.offset + off + n ≤ c.offset + i := by
    intro off n room same i less
    rcases apart with other | before | after
    · exact absurd same other
    · exact .inl (by omega)
    · exact .inr (by omega)
  refine readPage_congr fun i less => ?_
  cases w with
  | unlock la => rfl
  | page d p =>
      cases target
      cases p with
      | internal p =>
          refine update_bytes _ _ fun same => ?_
          exact (copy_outside _ _ _ (outside 0 kLeafPageSize (Nat.zero_add _).le same i less)).trans (by rw [same])
      | leaf p =>
          refine update_bytes _ _ fun same => ?_
          exact (copy_outside _ _ _ (outside 0 kLeafPageSize (Nat.zero_add _).le same i less)).trans (by rw [same])
  | entry d j r =>
      cases target
      have room : LeafPage.recordOffset j + leafEntrySize ≤ kLeafPageSize := by
        have := at_.2
        rw [kLeafCardinality_eq] at this
        simp only [LeafPage.recordOffset, headerSize, leafEntrySize, kLeafPageSize]
        omega
      refine update_bytes _ _ fun same => ?_
      rw [copy_outside _ _ _ (outside _ _ room same i less), same]

theorem readPage_copy_leaf {p : LeafPage} (leftmost : p.hdr.leftmostPtr = .null) :
    readPage ((Write.page a (.leaf p)).copy buffer b) a = (Page.leaf p).trim := by
  refine readPage_leaf ?_ ?_
  · rw [Write.copy, Function.update_self, Layout.read_copy _ _ _ _ _ leafPage_size, Layout.read_write]
  · exact congrArg GlobalAddress.layout.trim leftmost

theorem readPage_copy_internal {p : InternalPage}
    (leftmost : GlobalAddress.layout.trim p.hdr.leftmostPtr ≠ .null) :
    readPage ((Write.page a (.internal p)).copy buffer b) a = (Page.internal p).trim := by
  refine readPage_internal ?_ leftmost
  rw [Write.copy, Function.update_self, Layout.read_copy _ _ _ _ _ internalPage_size, Layout.read_write]

theorem readPage_copy_entry {p : LeafPage} {i : Nat} {r : LeafEntry} (less : i < kLeafCardinality)
    (read : readPage b a = (Page.leaf p).trim) :
    readPage ((Write.entry a i r).copy buffer b) a = (Page.leaf (p.setRecord i r)).trim := by
  obtain ⟨before, leftmost⟩ := leaf_of_readPage read
  have offset := recordPart_offset ⟨i, less⟩
  refine readPage_leaf ?_ ?_
  · have change := (LeafPage.recordPart ⟨i, less⟩).read_copy (LeafEntry.layout.write buffer (LeafPage.recordOffset i) r)
      (LeafPage.recordOffset i) (b a.nodeID) a.offset
    rw [offset, Layout.read_write, recordPart_set, before, ← LeafPage.trim_setRecord] at change
    rw [Write.copy, Function.update_self]
    exact change
  · exact leftmost

end

/-! ## Addresses -/

structure PlacedApart (l : List GlobalAddress) : Prop where
  inRange : ∀ a ∈ l, InRange a
  apart : l.Pairwise fun a b => Alloc.Apart a kLeafPageSize b kLeafPageSize

theorem Alloc.Apart.symm {a b : GlobalAddress} {n m : Nat} (h : Alloc.Apart a n b m) : Alloc.Apart b m a n := by
  rcases h with h | h | h
  · exact .inl h.symm
  · exact .inr (.inr h)
  · exact .inr (.inl h)

theorem PlacedApart.of_ne {l : List GlobalAddress} (placed : PlacedApart l) {a b : GlobalAddress} (ha : a ∈ l)
    (hb : b ∈ l) (ne : a ≠ b) : Alloc.Apart a kLeafPageSize b kLeafPageSize :=
  haveI : Std.Symm fun a b : GlobalAddress => Alloc.Apart a kLeafPageSize b kLeafPageSize :=
    ⟨fun _ _ => Alloc.Apart.symm⟩
  placed.apart.forall ha hb ne

def GlobalAddress.slot (a : GlobalAddress) : Nat × Nat := (a.nodeID, a.offset / 1024)

theorem Alloc.Apart.slot_ne {a b : GlobalAddress} (apart : Alloc.Apart a kLeafPageSize b kLeafPageSize) :
    a.slot ≠ b.slot := by
  intro same
  have node := congrArg Prod.fst same
  have offset : a.offset / 1024 = b.offset / 1024 := congrArg Prod.snd same
  rcases apart with other | before | after
  · exact other node
  · simp only [kLeafPageSize] at before
    omega
  · simp only [kLeafPageSize] at after
    omega

def slots : Finset (Nat × Nat) := Finset.range (2 ^ 16) ×ˢ Finset.range (2 ^ 38)

theorem card_slots : slots.card = 2 ^ 54 := by
  rw [slots, Finset.card_product, Finset.card_range, Finset.card_range, ← Nat.pow_add]

theorem InRange.slot_lt {a : GlobalAddress} (h : InRange a) : a.slot.1 < 2 ^ 16 ∧ a.slot.2 < 2 ^ 38 := by
  refine ⟨h.nodeID, ?_⟩
  have room := h.offset
  simp only [kLeafPageSize] at room
  change a.offset / 1024 < 2 ^ 38
  omega

theorem PlacedApart.length_le {l : List GlobalAddress} (placed : PlacedApart l) : l.length ≤ 2 ^ 54 := by
  have nodup : l.Nodup := placed.apart.imp fun apart same => apart.slot_ne (congrArg GlobalAddress.slot same)
  calc l.length = l.toFinset.card := (List.toFinset_card_of_nodup nodup).symm
    _ ≤ slots.card := by
        refine Finset.card_le_card_of_injOn GlobalAddress.slot (fun a ha => ?_) fun a ha b hb same => ?_
        · rw [Finset.mem_coe] at ha ⊢
          rw [slots, Finset.mem_product, Finset.mem_range, Finset.mem_range]
          exact (placed.inRange a (List.mem_toFinset.mp ha)).slot_lt
        · rw [Finset.mem_coe] at ha hb
          by_contra other
          exact (placed.of_ne (List.mem_toFinset.mp ha) (List.mem_toFinset.mp hb) other).slot_ne same
    _ = 2 ^ 54 := card_slots

theorem InRange.trim {a : GlobalAddress} (h : InRange a) : GlobalAddress.layout.trim a = a := by
  have offset : a.offset < 256 ^ 6 := by
    have room := h.offset
    simp only [kLeafPageSize] at room
    omega
  have node : a.nodeID < 256 ^ 2 := h.nodeID.trans_eq (by decide)
  change GlobalAddress.mk (a.nodeID % 256 ^ 2) (a.offset % 256 ^ 6) = a
  rw [Nat.mod_eq_of_lt node, Nat.mod_eq_of_lt offset]

theorem null_trim : GlobalAddress.layout.trim .null = .null := rfl

/-! ## Pages of the tree -/

section
variable {s : Shared} {g : Ghost} {a : GlobalAddress}

theorem linked_trim (inv : TreeInv s g) (placed : PlacedApart s.allocated) {l : Nat} {x : Key}
    (linked : g.Linked a l x) : GlobalAddress.layout.trim a = a := by
  refine (placed.inRange a (not_not.mp fun fresh => ?_)).trim
  exact nomatch linked.1.symm.trans (inv.allocated a fresh).1

theorem sibling_trim (inv : TreeInv s g) (placed : PlacedApart s.allocated) {hdr : Header}
    (sibling : SiblingOk g.Linked hdr) : GlobalAddress.layout.trim hdr.siblingPtr = hdr.siblingPtr := by
  rcases sibling with ⟨-, null⟩ | ⟨-, linked⟩
  · rw [null, null_trim]
  · exact linked_trim inv placed linked

theorem level_le (inv : TreeInv s g) (placed : PlacedApart s.allocated) {l : Nat} {x : Key}
    (linked : g.Linked a l x) : l ≤ 11 := by
  obtain ⟨top, root, below⟩ := inv.root
  refine (below a l x linked).trans ?_
  by_contra high
  obtain ⟨height, rfl⟩ := Nat.exists_eq_add_of_le' (show 1 ≤ top by omega)
  have many : 2 * 31 ^ 11 ≤ 2 ^ 54 :=
    calc 2 * 31 ^ 11 ≤ 2 * 31 ^ height := Nat.mul_le_mul_left 2 (Nat.pow_le_pow_right (by decide) (by omega))
      _ ≤ (TreeInv.pages s g 0).card := inv.card_leaves root
      _ ≤ s.allocated.length := TreeInv.card_pages_le s g 0
      _ ≤ 2 ^ 54 := placed.length_le
  exact absurd many (by decide)

theorem header_agrees {hdr : Header} (leftmost : GlobalAddress.layout.trim hdr.leftmostPtr = hdr.leftmostPtr)
    (sibling : GlobalAddress.layout.trim hdr.siblingPtr = hdr.siblingPtr) (level : hdr.level < 256)
    (fence : hdr.lowest < hdr.highest) (highest : hdr.highest ≤ kKeyMax) :
    Header.layout.trim hdr = { hdr with lastIndex := Int.bmod hdr.lastIndex (2 ^ 16) } := by
  have high : hdr.highest < 256 ^ 8 := highest.trans_lt (by decide)
  have low : hdr.lowest < 256 ^ 8 := fence.trans high
  change Header.mk (GlobalAddress.layout.trim hdr.leftmostPtr) (GlobalAddress.layout.trim hdr.siblingPtr)
    (hdr.level % 256 ^ 1) (Int.bmod hdr.lastIndex (256 ^ 2)) (hdr.lowest % 256 ^ 8) (hdr.highest % 256 ^ 8) = _
  rw [leftmost, sibling, Nat.mod_eq_of_lt low, Nat.mod_eq_of_lt high, Nat.mod_eq_of_lt (by rwa [Nat.pow_one])]
  rfl

theorem leaf_agrees (inv : TreeInv s g) (placed : PlacedApart s.allocated) {p : LeafPage}
    (sound : PageSound g a (.leaf p)) : (Page.leaf p).trim.Agrees (.leaf p) := by
  have ok : p.Ok := sound.ok
  refine .leaf rfl (header_agrees ?_ (sibling_trim inv placed sound.points.sibling) ?_ ok.fence ok.highest_le)
    (LeafPage.trim_records p) (fun r member used => ?_) rfl
  · exact (congrArg GlobalAddress.layout.trim ok.leftmost).trans ok.leftmost.symm
  · exact lt_of_eq_of_lt ok.level (by decide)
  · have key : r.key < 256 ^ 8 := ((ok.range r member used).2.trans_le ok.highest_le).trans (by decide)
    change LeafEntry.mk r.fVersion (r.key % 256 ^ 8) (r.value % 256 ^ 8) r.rVersion = _
    rw [Nat.mod_eq_of_lt key, show (256 : Nat) ^ 8 = 2 ^ 64 by decide]

theorem internal_level (inv : TreeInv s g) (placed : PlacedApart s.allocated) {p : InternalPage}
    (sound : PageSound g a (.internal p)) : p.hdr.level ≤ 12 := by
  have below := level_le inv placed (sound.points.2 _ _ (.inl ⟨rfl, rfl⟩))
  omega

theorem internal_leftmost (inv : TreeInv s g) (placed : PlacedApart s.allocated) {p : InternalPage}
    (sound : PageSound g a (.internal p)) :
    GlobalAddress.layout.trim p.hdr.leftmostPtr = p.hdr.leftmostPtr ∧ p.hdr.leftmostPtr ≠ .null := by
  have child := sound.points.2 _ _ (.inl ⟨rfl, rfl⟩)
  exact ⟨linked_trim inv placed child, inv.ne_null child⟩

theorem internal_agrees (inv : TreeInv s g) (placed : PlacedApart s.allocated) {p : InternalPage}
    (sound : PageSound g a (.internal p)) : (Page.internal p).trim.Agrees (.internal p) := by
  have ok : p.Ok := sound.ok
  have room := ok.space
  rw [kInternalCardinality_eq] at room
  have index : Int.bmod p.hdr.lastIndex (2 ^ 16) = p.hdr.lastIndex := by
    have pos := ok.pos
    simp only [InternalPage.cnt] at pos room
    refine Int.bmod_eq_of_le ?_ ?_ <;> omega
  have hdr : Header.layout.trim p.hdr = p.hdr := by
    refine (header_agrees (internal_leftmost inv placed sound).1 (sibling_trim inv placed sound.points.sibling)
      (lt_of_le_of_lt (internal_level inv placed sound) (by decide)) ok.fence ok.highest_le).trans ?_
    rw [index]
  refine .internal rfl hdr ?_ rfl
  have cnt : (InternalPage.layout.trim p).cnt = p.cnt := congrArg (fun h : Header => (h.lastIndex + 1).toNat) hdr
  rw [InternalPage.live, InternalPage.trim_records, cnt, ← List.map_take]
  refine (List.map_congr_left fun r member => ?_).trans (List.map_id _)
  have key : r.key < 256 ^ 8 := ((ok.range r member).2.trans_le ok.highest_le).trans (by decide)
  have ptr := linked_trim inv placed (sound.points.2 _ _ (.inr ⟨r, member, rfl, rfl⟩))
  change InternalEntry.mk (r.key % 256 ^ 8) (GlobalAddress.layout.trim r.ptr) = r
  rw [Nat.mod_eq_of_lt key, ptr]

theorem trim_agrees (inv : TreeInv s g) (placed : PlacedApart s.allocated) {page : Page}
    (sound : PageSound g a page) : page.trim.Agrees page := by
  cases page with
  | leaf p => exact leaf_agrees inv placed sound
  | internal p => exact internal_agrees inv placed sound

end

/-! ## Runs -/

def HeldIn (s : Shared) (b : Bytes) : Prop := ∀ a page, s.mem a = some page → readPage b a = page.trim

section
variable {cfg : Config}

theorem perform_memory {t : Client} {v : Verb} {choice : Choice} {r : Resp v} {s s' : Shared}
    (step : perform cfg t v choice s = some (r, s')) : s'.mem = s.mem ∧
      (s'.allocated = s.allocated ∨ ∃ a, choice = .fresh a ∧ s'.allocated = a :: s.allocated) := by
  cases v with
  | alloc =>
      cases choice <;> simp only [perform] at step
      case fresh a =>
        split_ifs at step
        cases step
        exact ⟨rfl, .inr ⟨_, rfl, rfl⟩⟩
      all_goals cases step
  | canHandOver la =>
      cases choice <;> cases step
      exact ⟨rfl, .inl rfl⟩
  | _ =>
      simp only [perform] at step
      try split_ifs at step
      all_goals
        cases step
        exact ⟨rfl, .inl rfl⟩

theorem executed_at {s s' : Shared} {i : Nat} (h : interfere (.execute i) s = some s') :
    ∃ x, s.pending[i]? = some x ∧ s.Executed x s' := by
  simp only [interfere] at h
  split at h
  · cases h
  · rename_i x found
    split at h
    · rename_i first
      cases h
      obtain ⟨bound, here⟩ := List.getElem?_eq_some_iff.mp found
      refine ⟨x, found, ⟨s.pending.take i, s.pending.drop (i + 1), ?_, ?_, first⟩, _, rfl⟩
      · rw [← here, List.cons_getElem_drop_succ, List.take_append_drop]
      · rw [execute_pending, List.eraseIdx_eq_take_drop_succ]
    · cases h

variable {s s' : State} {a : Action Client Op Choice Env}

theorem step_memory (step : (system cfg).step s a = some s') :
    (∃ i x, a = .interfere (.execute i) ∧ s.shared.pending[i]? = some x ∧ s.shared.Executed x s'.shared) ∨
      ((∀ b buffer, bytesAfter s b buffer a = b) ∧ s'.shared.mem = s.shared.mem ∧
        (s'.shared.allocated = s.shared.allocated ∨
          ∃ t x, a = .advance t (.fresh x) ∧ s'.shared.allocated = x :: s.shared.allocated)) := by
  cases a with
  | invoke t op =>
      simp only [System.step] at step
      split at step
      · cases step
        exact .inr ⟨fun _ _ => rfl, rfl, .inl rfl⟩
      · cases step
  | advance t choice =>
      refine .inr ⟨fun _ _ => rfl, ?_⟩
      simp only [System.step] at step
      split at step
      · cases step
      · rename_i op m thread
        cases m with
        | ret r => cases step
        | fault error => cases step
        | call p next =>
            cases step
            exact ⟨rfl, .inl rfl⟩
        | verb v next =>
            simp only [System.advance] at step
            split at step
            · cases step
            · rename_i r σ performed
              cases step
              obtain ⟨mem, allocated⟩ := perform_memory performed
              refine ⟨mem, allocated.imp_right fun isFresh => ?_⟩
              obtain ⟨x, fresh, more⟩ := isFresh
              exact ⟨t, x, by rw [fresh], more⟩
  | respond t =>
      simp only [System.step] at step
      split at step
      · cases step
        exact .inr ⟨fun _ _ => rfl, rfl, .inl rfl⟩
      · cases step
  | interfere e =>
      simp only [System.step] at step
      split at step
      · cases step
      · rename_i σ interfered
        cases step
        cases e with
        | execute i =>
            obtain ⟨x, found, executed⟩ := executed_at interfered
            exact .inl ⟨i, x, rfl, found, executed⟩
        | deliver n i =>
            change interfere (.deliver n i) s.shared = some σ at interfered
            simp only [interfere] at interfered
            split at interfered
            · cases interfered
            · cases interfered
              exact .inr ⟨fun _ _ => rfl, rfl, .inl rfl⟩
        | evict n e =>
            cases interfered
            exact .inr ⟨fun _ _ => rfl, rfl, .inl rfl⟩

theorem PlacedApart.step (placed : PlacedApart s.shared.allocated) (apart : AllocatesApart s a)
    (step : (system cfg).step s a = some s') : PlacedApart s'.shared.allocated := by
  rcases step_memory step with ⟨i, x, -, -, executed⟩ | ⟨-, -, same | ⟨t, x, rfl, more⟩⟩
  · rwa [executed.allocated]
  · rwa [same]
  · rw [more]
    refine ⟨fun c member => ?_, List.pairwise_cons.mpr ⟨apart.2, placed.apart⟩⟩
    rcases List.mem_cons.mp member with rfl | old
    · exact apart.1
    · exact placed.inRange c old

theorem target_allocated {σ : Shared} {g : Ghost} (inv : Invariant .any cfg (σ, g)) {x : Posted}
    (pending : x ∈ σ.pending) {d : GlobalAddress} (target : x.write.target = some d) : d ∈ σ.allocated := by
  by_contra fresh
  have info := inv.lock.written x pending d target
  rw [(inv.tree.allocated d fresh).1] at info
  cases info

theorem HeldIn.execute {σ σ' : Shared} {g g' : Ghost} {b : Bytes} {x : Posted} (held : HeldIn σ b)
    (placed : PlacedApart σ.allocated) (inv : Invariant .any cfg (σ, g)) (entries : EntriesSound (σ, g))
    (inv' : TreeInv σ' g') (executed : σ.Executed x σ') (buffer : Memory) : HeldIn σ' (x.write.copy buffer b) := by
  intro c page mem
  have placed' : PlacedApart σ'.allocated := by rwa [executed.allocated]
  have sound := inv'.mem_sound c page mem
  have memory := executed.mem c
  rw [mem] at memory
  by_cases target : x.write.target = some c
  · rw [if_pos target] at memory
    cases write : x.write with
    | unlock la =>
        rw [write] at target
        cases target
    | page d p =>
        rw [write] at target memory
        cases target
        cases memory
        cases page with
        | leaf p => exact readPage_copy_leaf (LeafPage.Ok.leftmost sound.ok)
        | internal p =>
            obtain ⟨fits, nonnull⟩ := internal_leftmost inv' placed' sound
            exact readPage_copy_internal (fits.symm ▸ nonnull)
    | entry d i r =>
        rw [write] at target memory
        cases target
        obtain ⟨less, y, linked⟩ := entries x executed.mem_pending c i r write
        obtain ⟨old, oldMem, level, -⟩ := inv.tree.linked_mem linked
        cases old with
        | internal p => exact absurd level (InternalPage.Ok.level (inv.tree.mem_sound c _ oldMem).ok)
        | leaf p =>
            rw [oldMem] at memory
            cases memory
            exact readPage_copy_entry less (held c _ oldMem)
  · rw [if_neg target] at memory
    rw [← held c page memory.symm]
    cases written : x.write.target with
    | none =>
        cases write : x.write with
        | unlock la => rfl
        | page d p =>
            rw [write] at written
            cases written
        | entry d i r =>
            rw [write] at written
            cases written
    | some d =>
        refine readPage_copy_other ?_ written ?_
        · refine placed.of_ne (inv.tree.mem_allocated memory.symm) (target_allocated inv executed.mem_pending written) ?_
          exact fun same => target (same ▸ written)
        · cases write : x.write with
          | unlock la => trivial
          | page e p => trivial
          | entry e i r =>
              rw [write] at written
              cases written
              exact ⟨rfl, (entries x executed.mem_pending d i r write).1⟩

theorem Reachable.entriesSound (h : Reachable cfg s) :
    ∃ g, Invariant .any cfg (s.shared, g) ∧ EntriesSound (s.shared, g) := by
  obtain ⟨root, as, nonnull, keys, run⟩ := h
  exact entriesSound_of_run nonnull keys run

theorem HeldIn.step {b : Bytes} (held : HeldIn s.shared b) (h : Reachable cfg s) (h' : Reachable cfg s')
    (placed : PlacedApart s.shared.allocated) (step : (system cfg).step s a = some s') (buffer : Memory) :
    HeldIn s'.shared (bytesAfter s b buffer a) := by
  rcases step_memory step with ⟨i, x, rfl, found, executed⟩ | ⟨same, mem, -⟩
  · obtain ⟨g, inv, entries⟩ := h.entriesSound
    obtain ⟨g', inv', -⟩ := h'.entriesSound
    simp only [bytesAfter, found]
    exact held.execute placed inv entries inv'.tree executed buffer
  · intro c page found
    rw [same]
    exact held c page (mem ▸ found)

theorem HeldIn.run {as : List (Action Client Op Choice Env × Memory)} {b : Bytes} (held : HeldIn s.shared b)
    (h : Reachable cfg s) (placed : PlacedApart s.shared.allocated) (keys : KeysBelow (as.map Prod.fst))
    (apart : (system cfg).Throughout AllocatesApart s (as.map Prod.fst))
    (run : (system cfg).run s (as.map Prod.fst) = some s') :
    HeldIn s'.shared (bytesRun cfg s b as) ∧ Reachable cfg s' ∧ PlacedApart s'.shared.allocated := by
  induction as generalizing s b with
  | nil =>
      cases run
      exact ⟨held, h, placed⟩
  | cons first as ih =>
      obtain ⟨a, buffer⟩ := first
      obtain ⟨m, step, rest⟩ := (system cfg).run_cons.mp run
      have next := h.step (fun t op same => keys t op (List.mem_cons.mpr (.inl (Eq.symm same)))) step
      simp only [bytesRun, step]
      exact ih (held.step h next placed step buffer) next (placed.step apart.1 step)
        (fun t op member => keys t op (List.mem_cons_of_mem a member)) (apart.2 m step) rest

end

/-- However the writes of the clients interleave, the bytes at the address of a page are that page. -/
theorem bytes_agree (cfg : Config) (root : GlobalAddress) (nonnull : root ≠ .null) (range : InRange root)
    (b : Bytes) (buffer : Memory) (as : List (Action Client Op Choice Env × Memory)) (s : State)
    (keys : KeysBelow (as.map Prod.fst))
    (apart : (system cfg).Throughout AllocatesApart (State.init root) (as.map Prod.fst))
    (run : (system cfg).run (State.init root) (as.map Prod.fst) = some s) (a : GlobalAddress) (page : Page)
    (mem : s.shared.mem a = some page) :
    (readPage (bytesRun cfg (State.init root) ((Write.page root (.leaf rootLeaf)).copy buffer b) as) a).Agrees page := by
  have held : HeldIn (State.init root).shared ((Write.page root (.leaf rootLeaf)).copy buffer b) := by
    intro c page found
    obtain ⟨rfl, rfl⟩ := init_mem.mp found
    exact readPage_copy_leaf rfl
  have start : Reachable cfg (State.init root) := ⟨root, [], nonnull, nofun, rfl⟩
  have placed : PlacedApart (State.init root).shared.allocated :=
    ⟨List.forall_mem_singleton.mpr range, List.pairwise_singleton ..⟩
  obtain ⟨held', reached, placed'⟩ := held.run start placed keys apart run
  obtain ⟨g, inv, -⟩ := reached.entriesSound
  rw [held' a page mem]
  exact trim_agrees inv.tree placed' (inv.tree.mem_sound a page mem)

def storeOne : Schedule := insertToLock 0 5 7 ++ storeEntry 0

def blank : Memory := fun _ => 0

def allocates : Action Client Op Choice Env → Bool
  | .advance _ (.fresh _) => true
  | _ => false

theorem apart_of_not_allocates {cfg : Config} {s : State} {as : Schedule} (h : ∀ a ∈ as, allocates a = false) :
    (system cfg).Throughout AllocatesApart s as := by
  induction as generalizing s with
  | nil => trivial
  | cons a as ih =>
      refine ⟨?_, fun s' _ => ih fun b member => h b (List.mem_cons_of_mem a member)⟩
      have still := h a List.mem_cons_self
      unfold AllocatesApart
      split
      · cases still
      · trivial

theorem storeOne_page : ((system oneLock).run (State.init ⟨1, 8⟩) storeOne).bind (fun s => s.shared.mem ⟨1, 8⟩) =
    some (.leaf (rootLeaf.setRecord 0 ⟨1, 5, 7, 1⟩)) := by
  decide +kernel

theorem bytes_agree_insert : (readPage (bytesRun oneLock (State.init ⟨1, 8⟩)
      ((Write.page ⟨1, 8⟩ (.leaf rootLeaf)).copy blank fun _ => blank) (storeOne.map fun a => (a, blank))) ⟨1, 8⟩).Agrees
    (.leaf (rootLeaf.setRecord 0 ⟨1, 5, 7, 1⟩)) := by
  obtain ⟨s, run, mem⟩ := Option.bind_eq_some_iff.mp storeOne_page
  have actions : (storeOne.map fun a => (a, blank)).map Prod.fst = storeOne := by
    rw [List.map_map]
    exact List.map_id _
  refine bytes_agree oneLock ⟨1, 8⟩ (by decide) ⟨by decide, by decide⟩ (fun _ => blank) blank
    (storeOne.map fun a => (a, blank)) s ?_ ?_ ?_ ⟨1, 8⟩ _ mem
  · rw [actions]
    exact keysBelow_iff (by decide +kernel)
  · rw [actions]
    exact apart_of_not_allocates (by decide +kernel)
  · rwa [actions]

end Sherman
