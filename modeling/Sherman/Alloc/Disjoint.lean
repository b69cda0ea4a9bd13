import Mathlib.Data.List.Nodup
import Mathlib.Data.List.Pairwise
import Mathlib.Data.List.Perm.Basic
import Sherman.Alloc.Machine

namespace Sherman.Alloc

open Concurrency

variable {cl : Cluster}

structure Grant where
  thread : Thread
  addr : GlobalAddress
  size : Nat

def Event.chunk? : Event → Option (Thread × GlobalAddress)
  | chunk t addr => some (t, addr)
  | returned _ _ _ => none

def Event.grant? : Event → Option Grant
  | chunk _ _ => none
  | returned t addr size => some ⟨t, addr, size⟩

def chunks (h : List Event) : List (Thread × GlobalAddress) := h.filterMap Event.chunk?
def grants (h : List Event) : List Grant := h.filterMap Event.grant?

@[simp] theorem chunks_chunk (h : List Event) (t : Thread) (a : GlobalAddress) :
    chunks (h ++ [.chunk t a]) = chunks h ++ [(t, a)] := by simp [chunks, Event.chunk?]
@[simp] theorem chunks_returned (h : List Event) (t : Thread) (a : GlobalAddress) (n : Nat) :
    chunks (h ++ [.returned t a n]) = chunks h := by simp [chunks, Event.chunk?]
@[simp] theorem grants_chunk (h : List Event) (t : Thread) (a : GlobalAddress) :
    grants (h ++ [.chunk t a]) = grants h := by simp [grants, Event.grant?]
@[simp] theorem grants_returned (h : List Event) (t : Thread) (a : GlobalAddress) (n : Nat) :
    grants (h ++ [.returned t a n]) = grants h ++ [⟨t, a, n⟩] := by simp [grants, Event.grant?]

def Apart (a : GlobalAddress) (n : Nat) (b : GlobalAddress) (m : Nat) : Prop :=
  a.nodeID ≠ b.nodeID ∨ a.offset + n ≤ b.offset ∨ b.offset + m ≤ a.offset

def InChunk (a : GlobalAddress) (n : Nat) (c : GlobalAddress) : Prop :=
  a.nodeID = c.nodeID ∧ c.offset ≤ a.offset ∧ a.offset + n ≤ c.offset + kChunkSize

theorem Apart.inside {a b c d : GlobalAddress} {n m : Nat} (apart : Apart c kChunkSize d kChunkSize)
    (ha : InChunk a n c) (hb : InChunk b m d) : Apart a n b m := by
  obtain ⟨node, low, high⟩ := ha
  obtain ⟨node', low', high'⟩ := hb
  obtain h | h | h := apart
  · exact .inl (by rwa [node, node'])
  · exact .inr (.inl (by omega))
  · exact .inr (.inr (by omega))

/-! ## Chunks -/

def Cluster.perDirectory (cl : Cluster) : Nat := cl.dsmSize / nrDirectory

def Cluster.chunkAddr (cl : Cluster) (n d j : Nat) : GlobalAddress :=
  ⟨n, cl.perDirectory * d + j * kChunkSize⟩

structure Cluster.IsChunk (cl : Cluster) (n d j : Nat) (c : GlobalAddress) : Prop where
  addr : c = cl.chunkAddr n d j
  node : n < cl.machineNR
  directory : d < nrDirectory
  pos : 1 ≤ j
  fits : (j + 1) * kChunkSize ≤ cl.perDirectory

theorem kChunkSize_pos : 0 < kChunkSize := by decide

theorem Cluster.directory_end (cl : Cluster) {d : Nat} (h : d < nrDirectory) :
    cl.perDirectory * (d + 1) ≤ cl.dsmSize :=
  calc cl.perDirectory * (d + 1) ≤ cl.perDirectory * nrDirectory := Nat.mul_le_mul_left _ h
    _ ≤ cl.dsmSize := Nat.div_mul_le_self _ _

theorem Cluster.IsChunk.offset {n d j : Nat} {c : GlobalAddress} (h : cl.IsChunk n d j c) :
    kChunkSize ≤ c.offset ∧ cl.perDirectory * d ≤ c.offset ∧
      c.offset + kChunkSize ≤ cl.perDirectory * (d + 1) := by
  have one : 1 * kChunkSize ≤ j * kChunkSize := Nat.mul_le_mul_right _ h.pos
  have fits := h.fits
  rw [Nat.add_mul] at fits
  simp only [h.addr, chunkAddr, Nat.mul_add, Nat.mul_one]
  omega

theorem Cluster.IsChunk.offset_lt {n d j : Nat} {c : GlobalAddress} (h : cl.IsChunk n d j c) :
    c.offset + kChunkSize ≤ cl.dsmSize :=
  Nat.le_trans h.offset.2.2 (cl.directory_end h.directory)

theorem Cluster.IsChunk.apart {n d j n' d' j' : Nat} {c c' : GlobalAddress} (h : cl.IsChunk n d j c)
    (h' : cl.IsChunk n' d' j' c') (other : c ≠ c') : Apart c kChunkSize c' kChunkSize := by
  by_cases node : n = n'
  case neg => exact .inl (by rw [h.addr, h'.addr]; exact node)
  subst node
  obtain lt | rfl | gt := Nat.lt_trichotomy d d'
  · have := h.offset.2.2
    have := h'.offset.2.1
    have : cl.perDirectory * (d + 1) ≤ cl.perDirectory * d' := Nat.mul_le_mul_left _ lt
    exact .inr (.inl (by omega))
  · have diff : j ≠ j' := by rintro rfl; exact other (h.addr.trans h'.addr.symm)
    rw [h.addr, h'.addr]
    simp only [Apart, chunkAddr]
    obtain lt | gt := Nat.lt_or_gt_of_ne diff
    · have : (j + 1) * kChunkSize ≤ j' * kChunkSize := Nat.mul_le_mul_right _ lt
      rw [Nat.add_mul] at this
      exact .inr (.inl (by omega))
    · have : (j' + 1) * kChunkSize ≤ j * kChunkSize := Nat.mul_le_mul_right _ gt
      rw [Nat.add_mul] at this
      exact .inr (.inr (by omega))
  · have := h'.offset.2.2
    have := h.offset.2.1
    have : cl.perDirectory * (d' + 1) ≤ cl.perDirectory * d := Nat.mul_le_mul_left _ gt
    exact .inr (.inr (by omega))

theorem Cluster.IsChunk.unique {n d j n' d' j' : Nat} {c : GlobalAddress}
    (h : cl.IsChunk n d j c) (h' : cl.IsChunk n' d' j' c) : n = n' ∧ d = d' ∧ j = j' := by
  have eq := h.addr.symm.trans h'.addr
  simp only [chunkAddr, GlobalAddress.mk.injEq] at eq
  have low := h.offset
  have low' := h'.offset
  have pos := kChunkSize_pos
  have same : d = d' := by
    obtain lt | same | gt := Nat.lt_trichotomy d d'
    · have : cl.perDirectory * (d + 1) ≤ cl.perDirectory * d' := Nat.mul_le_mul_left _ lt
      omega
    · exact same
    · have : cl.perDirectory * (d' + 1) ≤ cl.perDirectory * d := Nat.mul_le_mul_left _ gt
      omega
  subst same
  exact ⟨eq.1, rfl, Nat.eq_of_mul_eq_mul_right pos (Nat.add_left_cancel eq.2)⟩

/-! ## The invariant -/

def State.issued (s : State) (h : List Event) : List GlobalAddress :=
  (chunks h).map Prod.snd ++ s.replies.map Prod.snd

structure LocalAllocator.Sound (l : LocalAllocator) : Prop where
  node : l.cur.nodeID = l.head.nodeID
  low : l.head.offset ≤ l.cur.offset
  high : l.cur.offset ≤ l.head.offset + kChunkSize

def State.Granted (s : State) (h : List Event) (g : Grant) : Prop :=
  ∃ c, (g.thread, c) ∈ chunks h ∧ InChunk g.addr g.size c ∧
    ∀ t, (s.threads t).allocator.logHeads ≠ [] → (s.threads t).allocator.head = c →
      g.addr.offset + g.size ≤ (s.threads t).allocator.cur.offset

structure Sound (cl : Cluster) (s : State) (h : List Event) : Prop where
  start : ∀ n d, (s.directories n d).start = ⟨n, cl.perDirectory * d % 2 ^ 48⟩
  len : ∀ n d, (s.directories n d).bitmapLen = cl.perDirectory / kChunkSize
  tail : ∀ n d, 1 ≤ (s.directories n d).bitmapTail
  issued : ∀ c ∈ s.issued h, ∃ n d j, cl.IsChunk n d j c ∧ j < (s.directories n d).bitmapTail
  nodup : (s.issued h).Nodup
  targets : ∀ t, (s.threads t).nextTargetNode < cl.machineNR ∧
    (s.threads t).nextTargetDirID < nrDirectory
  requests : ∀ r ∈ s.requests, r.2.1 < cl.machineNR ∧ r.2.2 < nrDirectory
  waiting : ∀ t size, (s.threads t).waiting = some size → 0 < size ∧ size ≤ kChunkSize
  heads : ∀ t, (s.threads t).allocator.logHeads ≠ [] →
    (t, (s.threads t).allocator.head) ∈ chunks h ∧ (s.threads t).allocator.Sound
  granted : ∀ g ∈ grants h, s.Granted h g
  apart : (grants h).Pairwise fun g g' => Apart g.addr g.size g'.addr g'.size

def ValidSize : Action → Prop
  | .alloc _ size => 0 < size ∧ size ≤ kChunkSize
  | _ => True

theorem init_sound (cl : Cluster) : Sound cl (.init cl) [] := by
  constructor
  case targets =>
    exact fun t => ⟨Nat.mod_lt _ cl.machine_pos, Nat.mod_lt _ (by decide)⟩
  all_goals simp [State.init, Cluster.directory, GlobalAllocator.new, Cluster.perDirectory, chunks,
    grants, State.issued, LocalAllocator.new]

theorem Sound.owner {s : State} {h : List Event} (sound : Sound cl s h) {t u : Thread}
    {c : GlobalAddress} (ht : (t, c) ∈ chunks h) (hu : (u, c) ∈ chunks h) : t = u := by
  have nodup := (List.nodup_append.mp sound.nodup).1
  exact congrArg Prod.fst (List.inj_on_of_nodup_map nodup ht hu rfl)

theorem Sound.chunk {s : State} {h : List Event} (sound : Sound cl s h) {t : Thread}
    {c : GlobalAddress} (ht : (t, c) ∈ chunks h) : ∃ n d j, cl.IsChunk n d j c := by
  obtain ⟨n, d, j, is, -⟩ :=
    sound.issued c (List.mem_append_left _ (List.mem_map.mpr ⟨(t, c), ht, rfl⟩))
  exact ⟨n, d, j, is⟩

/-! ## Steps -/

theorem Sound.malloc {s : State} {h : List Event} (sound : Sound cl s h) {t : Thread} {size : Nat}
    (fits : ((s.threads t).allocator.malloc size).2.1 = false) :
    Sound cl (s.setThread t
        { s.threads t with allocator := ((s.threads t).allocator.malloc size).2.2 })
      (h ++ [.returned t ((s.threads t).allocator.malloc size).1 size]) := by
  generalize allocator : (s.threads t).allocator = l at *
  have room : l.logHeads ≠ [] ∧ l.cur.offset + size ≤ l.head.offset + kChunkSize := by
    simp only [LocalAllocator.malloc] at fits
    split at fits
    · cases fits
    · rename_i h'
      rw [not_or, Nat.not_lt] at h'
      exact h'
  have result : l.malloc size = (l.cur, false, { l with cur := addOffset l.cur size }) := by
    rw [LocalAllocator.malloc, if_neg]
    rw [not_or, Nat.not_lt]
    exact room
  rw [result]
  obtain ⟨mine, ok⟩ := sound.heads t (by rw [allocator]; exact room.1)
  rw [allocator] at mine ok
  obtain ⟨n, d, j, is⟩ := sound.chunk mine
  have small : l.cur.offset + size < 2 ^ 48 := by
    have := is.offset_lt
    have := cl.size_lt
    omega
  have offset : (addOffset l.cur size).offset = l.cur.offset + size := Nat.mod_eq_of_lt small
  refine ⟨sound.start, sound.len, sound.tail, ?_, ?_, fun u => ?_, sound.requests, fun u n => ?_,
    fun u some => ?_, fun g member => ?_, ?_⟩
  · simpa [State.issued] using sound.issued
  · simpa [State.issued] using sound.nodup
  · by_cases other : u = t
    · subst other; simpa using sound.targets u
    · simpa [State.setThread_other _ other] using sound.targets u
  · by_cases other : u = t
    · subst other; simpa using sound.waiting u n
    · simpa [State.setThread_other _ other] using sound.waiting u n
  · by_cases other : u = t
    · subst other
      simp only [State.setThread_same, chunks_returned]
      exact ⟨mine, ok.node, by simp only [offset]; have := ok.low; omega,
        by simp only [offset]; exact room.2⟩
    · simp only [State.setThread_other _ other, chunks_returned] at some ⊢
      exact sound.heads u some
  · rw [grants_returned, List.mem_append, List.mem_singleton] at member
    simp only [State.Granted, chunks_returned]
    obtain old | rfl := member
    · obtain ⟨c, owned, inside, before⟩ := sound.granted g old
      refine ⟨c, owned, inside, fun u some head => ?_⟩
      by_cases other : u = t
      · subst other
        simp only [State.setThread_same] at some head ⊢
        have := before u (by rw [allocator]; exact some) (by rw [allocator]; exact head)
        rw [allocator] at this
        rw [offset]
        omega
      · simp only [State.setThread_other _ other] at some head ⊢
        exact before u some head
    · refine ⟨l.head, mine, ⟨ok.node, ok.low, room.2⟩, fun u some head => ?_⟩
      by_cases other : u = t
      · subst other
        simp [offset]
      · simp only [State.setThread_other _ other] at some head ⊢
        have theirs := (sound.heads u some).1
        rw [head] at theirs
        exact absurd (sound.owner theirs mine) other
  · rw [grants_returned, List.pairwise_append]
    refine ⟨sound.apart, List.pairwise_singleton _ _, fun g member g' last => ?_⟩
    rw [List.mem_singleton] at last
    subst last
    obtain ⟨c, owned, inside, before⟩ := sound.granted g member
    by_cases head : l.head = c
    · have := before t (by rw [allocator]; exact room.1) (by rw [allocator]; exact head)
      rw [allocator] at this
      exact .inr (.inl this)
    · obtain ⟨n', d', j', is'⟩ := sound.chunk owned
      exact (is'.apart is (Ne.symm head)).inside inside ⟨ok.node, ok.low, room.2⟩

theorem Sound.receive {s : State} {h : List Event} (sound : Sound cl s h) {i : Nat} {t : Thread}
    {c : GlobalAddress} (found : s.replies[i]? = some (t, c)) {l : Local}
    (allocator : l.allocator = (s.threads t).allocator.setChunk c) (waiting : l.waiting = none)
    (targets : l.nextTargetNode < cl.machineNR ∧ l.nextTargetDirID < nrDirectory) :
    Sound cl ({ s with replies := s.replies.eraseIdx i }.setThread t l) (h ++ [.chunk t c]) := by
  have perm : (({ s with replies := s.replies.eraseIdx i } : State).setThread t l).issued
      (h ++ [.chunk t c]) |>.Perm (s.issued h) := by
    obtain ⟨bound, eq⟩ := List.getElem?_eq_some_iff.mp found
    simp only [State.issued, chunks_chunk, List.map_append, List.map_cons, List.map_nil,
      State.setThread_replies, List.append_assoc, List.singleton_append]
    refine List.Perm.append_left _ ?_
    have := (List.getElem_cons_eraseIdx_perm bound).map Prod.snd
    rwa [List.map_cons, eq] at this
  refine ⟨sound.start, sound.len, sound.tail, fun d member => sound.issued d (perm.mem_iff.mp member),
    perm.nodup_iff.mpr sound.nodup, fun u => ?_, sound.requests, fun u n some => ?_,
    fun u some => ?_, fun g member => ?_, by simpa using sound.apart⟩
  · by_cases other : u = t
    · subst other; simpa using targets
    · simpa [State.setThread_other _ other] using sound.targets u
  · by_cases other : u = t
    · subst other; simp [waiting] at some
    · rw [State.setThread_other _ other] at some; exact sound.waiting u n some
  · rw [chunks_chunk]
    by_cases other : u = t
    · subst other
      rw [State.setThread_same, allocator]
      exact ⟨List.mem_append_right _ (by simp [LocalAllocator.setChunk]), rfl, Nat.le_refl _,
        Nat.le_add_right _ _⟩
    · rw [State.setThread_other _ other] at some ⊢
      exact ⟨List.mem_append_left _ (sound.heads u some).1, (sound.heads u some).2⟩
  · rw [grants_chunk] at member
    obtain ⟨d, owned, inside, before⟩ := sound.granted g member
    refine ⟨d, by rw [chunks_chunk]; exact List.mem_append_left _ owned, inside, fun u some head => ?_⟩
    by_cases other : u = t
    · -- the new chunk is not one of the old ones
      subst other
      rw [State.setThread_same, allocator] at head
      have nodup := List.nodup_append.mp sound.nodup
      refine absurd rfl (nodup.2.2 d (List.mem_map.mpr ⟨_, owned, rfl⟩) d ?_)
      rw [← head]
      exact List.mem_map.mpr ⟨_, List.mem_of_getElem? found, rfl⟩
    · rw [State.setThread_other _ other] at some head ⊢
      exact before u some head

theorem malloc_setChunk (l : LocalAllocator) (c : GlobalAddress) {size : Nat}
    (small : size ≤ kChunkSize) : ((l.setChunk c).malloc size).2.1 = false := by
  rw [LocalAllocator.malloc, if_neg]
  simp only [LocalAllocator.setChunk, List.append_eq_nil_iff, List.cons_ne_nil, and_false, false_or,
    Nat.not_lt]
  omega

theorem Sound.step {s s' : State} {h : List Event} {a : Action} (sound : Sound cl s h)
    (valid : ValidSize a) (step : step cl s a = some s') : Sound cl s' (h ++ events cl s a) := by
  cases a with
  | alloc t size =>
      simp only [Alloc.step] at step
      split at step
      · cases step
      rename_i awake
      simp only [events]
      split at step
      case isTrue need =>
        cases step
        rw [if_pos need, List.append_nil]
        refine ⟨sound.start, sound.len, sound.tail, sound.issued, sound.nodup, fun u => ?_,
          fun r member => ?_, fun u n some => ?_, fun u some => ?_, fun g member => ?_, sound.apart⟩
        · by_cases other : u = t
          · subst other; simpa using sound.targets u
          · simpa [State.setThread_other _ other] using sound.targets u
        · rw [State.setThread_requests, List.mem_append, List.mem_singleton] at member
          obtain old | rfl := member
          · exact sound.requests r old
          · exact sound.targets t
        · by_cases other : u = t
          · subst other
            simp only [State.setThread_same, Option.some.injEq] at some
            exact some ▸ valid
          · rw [State.setThread_other _ other] at some; exact sound.waiting u n some
        · by_cases other : u = t
          · subst other
            simp only [State.setThread_same] at some ⊢
            exact sound.heads u some
          · rw [State.setThread_other _ other] at some ⊢
            exact sound.heads u some
        · obtain ⟨c, owned, inside, before⟩ := sound.granted g member
          refine ⟨c, owned, inside, fun u some head => ?_⟩
          by_cases other : u = t
          · subst other
            simp only [State.setThread_same] at some head ⊢
            exact before u some head
          · rw [State.setThread_other _ other] at some head ⊢
            exact before u some head
      case isFalse fits =>
        cases step
        rw [if_neg fits]
        exact sound.malloc (by simpa using fits)
  | serve i =>
      simp only [Alloc.step] at step
      simp only [events, List.append_nil]
      split at step
      · cases step
      rename_i t n d found
      split at step
      · cases step
      rename_i c g served
      cases step
      simp only [GlobalAllocator.allocChunk] at served
      split at served
      · cases served
      rename_i room
      split at served
      case isFalse => cases served
      simp only [Option.some.injEq, Prod.mk.injEq] at served
      obtain ⟨addr, rfl⟩ := served
      obtain ⟨node, directory⟩ : n < cl.machineNR ∧ d < nrDirectory :=
        sound.requests _ (List.mem_of_getElem? found)
      have len := sound.len n d
      have is : cl.IsChunk n d (s.directories n d).bitmapTail c := by
        have fits : ((s.directories n d).bitmapTail + 1) * kChunkSize ≤ cl.perDirectory := by
          refine (Nat.le_div_iff_mul_le kChunkSize_pos).mp ?_
          omega
        refine ⟨?_, node, directory, sound.tail n d, fits⟩
        have total := cl.directory_end directory
        have size := cl.size_lt
        rw [Nat.add_mul] at fits
        rw [Nat.mul_add] at total
        have base : cl.perDirectory * d % 2 ^ 48 = cl.perDirectory * d := Nat.mod_eq_of_lt (by omega)
        rw [← addr, sound.start n d, addOffset, Cluster.chunkAddr, base]
        refine congrArg (GlobalAddress.mk n) (Nat.mod_eq_of_lt ?_)
        change cl.perDirectory * d + (s.directories n d).bitmapTail * kChunkSize < 2 ^ 48
        omega
      have lookup : ∀ m e, Function.update s.directories n (Function.update (s.directories n) d
          { s.directories n d with
            bitmap := Function.update (s.directories n d).bitmap (s.directories n d).bitmapTail true
            bitmapTail := (s.directories n d).bitmapTail + 1 }) m e =
          if m = n ∧ e = d then { s.directories n d with
            bitmap := Function.update (s.directories n d).bitmap (s.directories n d).bitmapTail true
            bitmapTail := (s.directories n d).bitmapTail + 1 } else s.directories m e := by
        intro m e
        by_cases hm : m = n
        · subst hm
          by_cases he : e = d <;> simp [he]
        · simp [hm]
      have more : ∀ {j m e}, j < (s.directories m e).bitmapTail →
          j < (if m = n ∧ e = d then { s.directories n d with
            bitmap := Function.update (s.directories n d).bitmap (s.directories n d).bitmapTail true
            bitmapTail := (s.directories n d).bitmapTail + 1 } else s.directories m e).bitmapTail := by
        intro j m e lt
        split
        case isTrue here => obtain ⟨rfl, rfl⟩ := here; exact Nat.lt_succ_of_lt lt
        case isFalse => exact lt
      have grown : ∀ x, x ∈ s.issued h ++ [c] ↔
          x ∈ (chunks h).map Prod.snd ++ (s.replies ++ [(t, c)]).map Prod.snd := by
        intro x
        simp only [State.issued, List.map_append, List.append_assoc, List.map_cons, List.map_nil]
      refine ⟨fun m e => ?_, fun m e => ?_, fun m e => ?_, fun x member => ?_, ?_, sound.targets,
        fun r member => sound.requests r (List.mem_of_mem_eraseIdx member), sound.waiting, sound.heads,
        sound.granted, sound.apart⟩
      · simp only [lookup]
        split
        case isTrue here => obtain ⟨rfl, rfl⟩ := here; exact sound.start m e
        case isFalse => exact sound.start m e
      · simp only [lookup]
        split
        case isTrue here => obtain ⟨rfl, rfl⟩ := here; exact sound.len m e
        case isFalse => exact sound.len m e
      · simp only [lookup]
        split
        case isTrue here => exact Nat.le_add_left 1 _
        case isFalse => exact sound.tail m e
      · simp only [lookup]
        obtain old | new := List.mem_append.mp ((grown x).mpr member)
        · obtain ⟨m, e, j, is', lt⟩ := sound.issued x old
          exact ⟨m, e, j, is', more lt⟩
        · rw [List.mem_singleton] at new
          subst new
          exact ⟨n, d, _, is, by simp⟩
      · have same : ({ s with
            directories := Function.update s.directories n (Function.update (s.directories n) d
              { s.directories n d with
                bitmap :=
                  Function.update (s.directories n d).bitmap (s.directories n d).bitmapTail true
                bitmapTail := (s.directories n d).bitmapTail + 1 })
            requests := s.requests.eraseIdx i
            replies := s.replies ++ [(t, c)] } : State).issued h = s.issued h ++ [c] := by
          simp only [State.issued, List.map_append, List.append_assoc, List.map_cons, List.map_nil]
        rw [same, List.nodup_append]
        refine ⟨sound.nodup, List.nodup_singleton c, fun x old y new => ?_⟩
        rw [List.mem_singleton] at new
        rintro rfl
        subst new
        obtain ⟨m, e, j, is', lt⟩ := sound.issued x old
        obtain ⟨rfl, rfl, rfl⟩ := is'.unique is
        exact Nat.lt_irrefl _ lt
  | receive i =>
      simp only [Alloc.step] at step
      simp only [events]
      split at step
      · cases step
      rename_i t c found
      split at step
      · cases step
      rename_i size waits
      cases step
      obtain ⟨-, small⟩ := sound.waiting t size waits
      have arrived := sound.receive found (l := { (s.threads t).retry cl c size |>.2 with
        allocator := (s.threads t).allocator.setChunk c }) rfl rfl (by
          obtain ⟨node, directory⟩ := sound.targets t
          simp only [Local.retry]
          split
          case isTrue => exact ⟨Nat.mod_lt _ cl.machine_pos, by decide⟩
          case isFalse inner => exact ⟨node, by omega⟩)
      have fits := malloc_setChunk (s.threads t).allocator c small
      have := @Sound.malloc cl _ _ arrived t size (by rw [State.setThread_same]; exact fits)
      simpa [Local.retry] using this

/-! ## Runs -/

theorem rootPtrPtr_inChunk (treeID : BitVec 16) :
    InChunk (rootPtrPtr treeID) 8 ⟨0, 0⟩ := by
  have := treeID.isLt
  refine ⟨rfl, Nat.zero_le _, ?_⟩
  simp only [rootPtrPtr, kRootPointerStoreOffset, kChunkSize]
  omega

theorem rootPtrPtr_apart {treeID treeID' : BitVec 16} (other : treeID ≠ treeID') :
    Apart (rootPtrPtr treeID) 8 (rootPtrPtr treeID') 8 := by
  have : treeID.toNat ≠ treeID'.toNat := fun same => other (BitVec.eq_of_toNat_eq same)
  simp only [Apart, rootPtrPtr]
  omega

/-- What `DSM::alloc` returns: ranges that do not meet, each inside a chunk of the calling thread that
lies in the memory of a node and is not the first chunk of that node; the root pointers live in that
first chunk. -/
theorem alloc_disjoint (cl : Cluster) (as : List Action) (s : State)
    (run : (machine cl).run (.init cl) as = some s) (sizes : ∀ a ∈ as, ValidSize a) :
    (grants ((machine cl).history (events cl) (.init cl) as)).Pairwise
      (fun g g' => Apart g.addr g.size g'.addr g'.size) ∧
    (∀ g ∈ grants ((machine cl).history (events cl) (.init cl) as),
      g.addr ≠ .null ∧ kChunkSize ≤ g.addr.offset ∧
      ∃ c, (g.thread, c) ∈ chunks ((machine cl).history (events cl) (.init cl) as) ∧
        InChunk g.addr g.size c ∧ c.nodeID < cl.machineNR ∧ c.offset + kChunkSize ≤ cl.dsmSize) ∧
    (∀ treeID, InChunk (rootPtrPtr treeID) 8 ⟨0, 0⟩) ∧
    ∀ treeID treeID', treeID ≠ treeID' → Apart (rootPtrPtr treeID) 8 (rootPtrPtr treeID') 8 := by
  have sound : Sound cl s ((machine cl).history (events cl) (.init cl) as) :=
    Machine.run_history (I := Sound cl) (fun _ _ _ _ sound valid step => sound.step valid step)
      (init_sound cl) (Machine.throughout_of_forall sizes) run
  refine ⟨sound.apart, fun g member => ?_, rootPtrPtr_inChunk, fun _ _ => rootPtrPtr_apart⟩
  obtain ⟨c, owned, inside, -⟩ := sound.granted g member
  obtain ⟨n, d, j, is⟩ := sound.chunk owned
  have pos := kChunkSize_pos
  have low := inside.2.1
  have far := is.offset.1
  refine ⟨?_, by omega, c, owned, inside, ?_, is.offset_lt⟩
  · intro null
    rw [null] at low
    simp only [GlobalAddress.null] at low
    omega
  · rw [is.addr]
    exact is.node

def small : Cluster where
  machineNR := 2
  dsmSize := 2 * kChunkSize
  machine_pos := by decide
  machine_le := by decide
  size_lt := by decide

theorem alloc_disjoint_first : ∃ s, (machine small).run (.init small)
      [.alloc ⟨0, 0⟩ 1024, .serve 0, .receive 0, .alloc ⟨0, 0⟩ 1024] = some s ∧
    (grants ((machine small).history (events small) (.init small)
      [.alloc ⟨0, 0⟩ 1024, .serve 0, .receive 0, .alloc ⟨0, 0⟩ 1024])).Pairwise
      (fun g g' => Apart g.addr g.size g'.addr g'.size) :=
  ⟨_, rfl, (alloc_disjoint small _ _ rfl (by simp [ValidSize, kChunkSize])).1⟩

end Sherman.Alloc
