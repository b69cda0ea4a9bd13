import Sherman.Concurrency.Transition
import Sherman.Tree.RangeQuery

namespace Sherman.LeafFetch

open Concurrency

/-- The loop's inputs, and the page that the read of each leaf finds. -/
structure Query where
  leaves : List GlobalAddress
  delivered : Nat → LeafPage
  fromKey : Key
  toKey : Key

structure Read where
  index : Nat
  addr : GlobalAddress
  slot : Nat
  deriving DecidableEq

/-- At the tests of the loop, in `poll_rdma_cq(number)` with `count` completions polled, scanning the pages of
slots `k` to `number`, or before `read`; `last` is the half behind the loop. -/
inductive Pc where
  | head
  | poll (count : Nat) (number : Int) (last : Bool)
  | scan (k : Nat) (number : Int) (last : Bool)
  | read
  | finished
  deriving DecidableEq

structure State where
  pc : Pc
  i : Nat
  cqCnt : Int
  pending : List Read
  completions : Nat
  rangeBuffer : Nat → LeafPage
  valueBuffer : List Value

def State.init (rangeBuffer : Nat → LeafPage) : State := ⟨.head, 0, 0, [], 0, rangeBuffer, []⟩

inductive Action where
  | client
  | dma (r : Read) (page : LeafPage)
  | complete (r : Read)

inductive Event where
  | test
  | post (r : Read)
  | complete (r : Read)
  | poll
  | scan (slot : Nat)
  deriving DecidableEq

namespace Event

def slot : Event → Option Nat
  | post r | complete r => some r.slot
  | scan slot => some slot
  | test | poll => none

def posted : Event → Option Read
  | post r => some r
  | _ => none

end Event

namespace Query
variable (q : Query)

def scan (page : LeafPage) : List Value := (page.recordsIn q.fromKey q.toKey).map (·.value)

def read (i : Nat) : Read := ⟨i, q.leaves.getD i .null, i % kParaFetch⟩

def machine : Machine State Action where
  step s
    | .client => match s.pc with
        | .head =>
            if s.i < q.leaves.length then
              if 0 < s.i ∧ s.i % kParaFetch = 0 then some { s with pc := .poll 0 kParaFetch false }
              else some { s with pc := .read }
            else if s.cqCnt ≠ 0 then some { s with pc := .poll 0 s.cqCnt true }
            else some { s with pc := .finished }
        | .poll count number last => match s.completions with
            | 0 => none
            | completions + 1 =>
                let s := { s with completions := completions }
                if ((count + 1 : Nat) : Int) < number then some { s with pc := .poll (count + 1) number last }
                else if last then some { s with pc := .scan 0 number last }
                else some { s with cqCnt := s.cqCnt - kParaFetch, pc := .scan 0 number last }
        | .scan k number last =>
            if (k : Int) < number then
              some { s with
                valueBuffer := s.valueBuffer ++ q.scan (s.rangeBuffer k)
                pc := .scan (k + 1) number last }
            else some { s with pc := if last then .finished else .read }
        | .read => match q.leaves[s.i]? with
            | none => none
            | some addr =>
                some { s with
                  pending := s.pending ++ [⟨s.i, addr, s.i % kParaFetch⟩]
                  cqCnt := s.cqCnt + 1
                  i := s.i + 1
                  pc := .head }
        | .finished => none
    | .dma r page =>
        if r ∈ s.pending then some { s with rangeBuffer := Function.update s.rangeBuffer r.slot page } else none
    | .complete r =>
        if r ∈ s.pending then
          some { s with
            pending := s.pending.erase r
            completions := s.completions + 1
            rangeBuffer := Function.update s.rangeBuffer r.slot (q.delivered r.index) }
        else none

def event (s : State) : Action → List Event
  | .client => match s.pc with
      | .head | .finished => [.test]
      | .poll .. => [.poll]
      | .scan k number _ => if (k : Int) < number then [.scan k] else [.test]
      | .read => [.post (q.read s.i)]
  | .dma .. => []
  | .complete r => [.complete r]

def events (pending : List Read) (scanned j : Nat) : List Event :=
  .post (q.read j) :: ((if q.read j ∈ pending then [] else [.complete (q.read j)]) ++
    if j < scanned then [.scan (j % kParaFetch)] else [])

def slotted (i k : Nat) : List Nat := (List.range i).filter (· % kParaFetch = k)

end Query

/-- What the loop has done at its end: one read for each leaf in order, one poll for each, and in each slot a post,
the completion of this read and the scan, again and again. The values are those of the records of the pages read
that are used, consistent and in the range. -/
structure Fetched (q : Query) (s : State) (h : List Event) : Prop where
  posts : h.filterMap Event.posted = (List.range q.leaves.length).map q.read
  polls : h.count .poll = q.leaves.length
  slots : ∀ k, h.filter (·.slot = some k) = (Query.slotted q.leaves.length k).flatMap fun j =>
    [.post (q.read j), .complete (q.read j), .scan k]
  values : s.valueBuffer = (List.range q.leaves.length).flatMap fun j =>
    ((q.delivered j).records.filter fun r =>
      r.value ≠ kValueNull ∧ r.fVersion = r.rVersion ∧ q.fromKey ≤ r.key ∧ r.key ≤ q.toKey).map (·.value)

/-! ## The batch in flight -/

def Pc.tests : Pc → Nat
  | head => 0
  | finished => 2
  | _ => 1

def AtPc (q : Query) (base scanned : Nat) (s : State) : Pc → Prop
  | .head => scanned = base ∧ s.cqCnt = (s.i - base : Nat) ∧ (s.i = 0 ∨ base < s.i) ∧
      s.completions + s.pending.length = s.i - base
  | .poll count number last => scanned = base ∧ s.cqCnt = (s.i - base : Nat) ∧ number = (s.i - base : Nat) ∧
      count < s.i - base ∧ s.completions + s.pending.length + count = s.i - base ∧
      if last then s.i = q.leaves.length else s.i = base + kParaFetch ∧ s.i < q.leaves.length
  | .scan k number last =>
      scanned = base + k ∧ number = (s.i - base : Nat) ∧ s.completions = 0 ∧ s.pending = [] ∧
      if last then s.i = q.leaves.length else s.cqCnt = 0 ∧ s.i = base + kParaFetch ∧ s.i < q.leaves.length
  | .read => scanned = base ∧ s.cqCnt = (s.i - base : Nat) ∧ s.i < q.leaves.length ∧ s.i < base + kParaFetch ∧
      s.completions + s.pending.length = s.i - base
  | .finished => scanned = q.leaves.length ∧ s.i = q.leaves.length ∧ s.pending = [] ∧ s.completions = 0

structure Batch (q : Query) (base scanned : Nat) (s : State) (h : List Event) : Prop where
  aligned : base % kParaFetch = 0
  begun : base ≤ scanned ∧ scanned ≤ s.i
  window : s.i ≤ base + kParaFetch ∧ s.i ≤ q.leaves.length
  distinct : s.pending.Nodup
  pending : ∀ r ∈ s.pending, ∃ j, scanned ≤ j ∧ j < s.i ∧ r = q.read j
  buffer : ∀ j, base ≤ j → j < s.i → q.read j ∉ s.pending → s.rangeBuffer (j % kParaFetch) = q.delivered j
  values : s.valueBuffer = (List.range scanned).flatMap fun j => q.scan (q.delivered j)
  posts : h.filterMap Event.posted = (List.range s.i).map q.read
  polls : h.count .poll + s.pending.length + s.completions = s.i
  slots : ∀ k, h.filter (·.slot = some k) = (Query.slotted s.i k).flatMap (q.events s.pending scanned)
  steps : h.length + 2 * s.pending.length + s.completions ≤ 4 * s.i + scanned + base / kParaFetch + s.pc.tests
  phase : AtPc q base scanned s s.pc

variable {q : Query} {base base' scanned i j k : Nat} {s t : State} {h : List Event} {pc : Pc}

theorem read_inj (same : q.read i = q.read j) : i = j := congrArg Read.index same

theorem slotted_succ (i k : Nat) :
    Query.slotted (i + 1) k = Query.slotted i k ++ if i % kParaFetch = k then [i] else [] := by
  simp only [Query.slotted, List.range_succ, List.filter_append, List.filter_singleton, cond_eq_ite,
    decide_eq_true_eq]

theorem mem_slotted : j ∈ Query.slotted i k ↔ j < i ∧ j % kParaFetch = k := by simp [Query.slotted]

theorem slotted_last (less : j < i) (near : i ≤ j + kParaFetch) :
    Query.slotted i (j % kParaFetch) = Query.slotted j (j % kParaFetch) ++ [j] := by
  induction i, less using Nat.le_induction with
  | base => rw [slotted_succ, if_pos rfl]
  | succ i less ih =>
      have other : i % kParaFetch ≠ j % kParaFetch := by
        simp only [kParaFetch] at near ⊢
        omega
      rw [slotted_succ, if_neg other, List.append_nil, ih (by omega)]

theorem events_pending (mem : q.read j ∈ s.pending) (late : scanned ≤ j) :
    q.events s.pending scanned j = [.post (q.read j)] := by
  simp [Query.events, mem, Nat.not_lt.mpr late]

theorem posts_append {e : Event} (other : e.posted = none) :
    (h ++ [e]).filterMap Event.posted = h.filterMap Event.posted := by
  rw [List.filterMap_append, List.filterMap_cons_none other, List.filterMap_nil, List.append_nil]

theorem slots_extend {f g : Nat → List Event} {e : Event}
    (slots : ∀ k, h.filter (·.slot = some k) = (Query.slotted i k).flatMap f) (less : j < i)
    (near : i ≤ j + kParaFetch) (slot : e.slot = some (j % kParaFetch)) (grown : g j = f j ++ [e])
    (same : ∀ m, m ≠ j → g m = f m) (k : Nat) :
    (h ++ [e]).filter (·.slot = some k) = (Query.slotted i k).flatMap g := by
  have others : ∀ l : List Nat, j ∉ l → l.flatMap g = l.flatMap f := fun l out =>
    List.flatMap_congr fun m mem => same m fun eq => out (eq ▸ mem)
  rw [List.filter_append, slots, List.filter_singleton, slot]
  by_cases own : j % kParaFetch = k
  · subst own
    have earlier : j ∉ Query.slotted j (j % kParaFetch) := fun mem => lt_irrefl j (mem_slotted.mp mem).1
    rw [slotted_last less near, List.flatMap_append, List.flatMap_append, others _ earlier]
    simp [grown]
  · have out : j ∉ Query.slotted i k := fun mem => own (mem_slotted.mp mem).2
    rw [others _ out]
    simp [own]

theorem init_batch (q : Query) (rangeBuffer : Nat → LeafPage) : Batch q 0 0 (.init rangeBuffer) [] where
  aligned := rfl
  begun := ⟨le_rfl, le_rfl⟩
  window := ⟨Nat.zero_le _, Nat.zero_le _⟩
  distinct := List.nodup_nil
  pending _ mem := by cases mem
  buffer j _ less := absurd less (Nat.not_lt_zero j)
  values := rfl
  posts := rfl
  polls := rfl
  slots _ := rfl
  steps := le_rfl
  phase := ⟨rfl, rfl, .inl rfl, rfl⟩

/-! ## The steps -/

theorem Batch.test (b : Batch q base scanned s h) (aligned : base' % kParaFetch = 0)
    (later : base ≤ base' ∧ base' ≤ scanned) (phase : AtPc q base' scanned { s with pc := pc } pc)
    (tests : base / kParaFetch + s.pc.tests + 1 ≤ base' / kParaFetch + pc.tests) :
    Batch q base' scanned { s with pc := pc } (h ++ [.test]) where
  aligned := aligned
  begun := ⟨later.2, b.begun.2⟩
  window := ⟨b.window.1.trans (Nat.add_le_add_right later.1 _), b.window.2⟩
  distinct := b.distinct
  pending := b.pending
  buffer j low := b.buffer j (later.1.trans low)
  values := b.values
  posts := (posts_append rfl).trans b.posts
  polls := by simpa using b.polls
  slots k := by simpa [Event.slot] using b.slots k
  steps := by
    have := b.steps
    simp only [List.length_append, List.length_singleton]
    omega
  phase := phase

theorem Batch.poll {completions : Nat} (b : Batch q base scanned s h) (cqCnt : Int)
    (found : s.completions = completions + 1)
    (phase : AtPc q base scanned { s with completions := completions, cqCnt := cqCnt, pc := pc } pc)
    (tests : s.pc.tests ≤ pc.tests) :
    Batch q base scanned { s with completions := completions, cqCnt := cqCnt, pc := pc } (h ++ [.poll]) where
  aligned := b.aligned
  begun := b.begun
  window := b.window
  distinct := b.distinct
  pending := b.pending
  buffer := b.buffer
  values := b.values
  posts := (posts_append rfl).trans b.posts
  polls := by
    have := b.polls
    simp only [List.count_append, List.count_singleton_self]
    omega
  slots k := by simpa [Event.slot] using b.slots k
  steps := by
    have := b.steps
    simp only [List.length_append, List.length_singleton]
    omega
  phase := phase

theorem Batch.scan {number : Int} {last : Bool} (b : Batch q base scanned s h) (at' : s.pc = .scan k number last)
    (less : (k : Int) < number) :
    Batch q base (scanned + 1)
      { s with valueBuffer := s.valueBuffer ++ q.scan (s.rangeBuffer k), pc := .scan (k + 1) number last }
      (h ++ [.scan k]) := by
  have phase := b.phase
  rw [at'] at phase
  obtain ⟨rfl, rfl, polled, none, rest⟩ := phase
  have aligned := b.aligned
  have begun := b.begun
  have window := b.window
  have inBatch : base + k < s.i := by omega
  have slot : (base + k) % kParaFetch = k := by
    simp only [kParaFetch] at aligned window ⊢
    omega
  have content := b.buffer (base + k) (by omega) inBatch (by simp [none])
  rw [slot] at content
  refine ⟨aligned, ⟨by omega, inBatch⟩, window, b.distinct, by simp [none], b.buffer, ?_, ?_, ?_, ?_, ?_,
    ⟨rfl, rfl, polled, none, rest⟩⟩
  · rw [List.range_succ, List.flatMap_append, ← b.values, content]
    simp
  · exact (posts_append rfl).trans b.posts
  · simpa using b.polls
  · refine slots_extend b.slots inBatch (window.1.trans (by omega)) (by simp [Event.slot, slot]) ?_ fun m other => ?_
    · simp [Query.events, none, slot]
    · have : m < base + k + 1 ↔ m < base + k := by omega
      simp only [Query.events, this]
  · have := b.steps
    rw [at'] at this
    simp only [List.length_append, List.length_singleton, Pc.tests] at this ⊢
    omega

theorem Batch.read (b : Batch q base scanned s h) (at' : s.pc = .read) {addr : GlobalAddress}
    (leaf : q.leaves[s.i]? = some addr) :
    Batch q base scanned
      { s with
        pending := s.pending ++ [⟨s.i, addr, s.i % kParaFetch⟩]
        cqCnt := s.cqCnt + 1
        i := s.i + 1
        pc := .head }
      (h ++ [.post (q.read s.i)]) := by
  have phase := b.phase
  rw [at'] at phase
  obtain ⟨rfl, cqCnt, more, room, outstanding⟩ := phase
  have begun := b.begun
  have posted : (⟨s.i, addr, s.i % kParaFetch⟩ : Read) = q.read s.i := by
    rw [Query.read, List.getD_eq_getElem?_getD, leaf, Option.getD_some]
  have fresh : q.read s.i ∉ s.pending := by
    intro mem
    obtain ⟨j, -, less, same⟩ := b.pending _ mem
    exact less.ne (read_inj same).symm
  have status : ∀ j, j ≠ s.i → (q.read j ∈ s.pending ++ [q.read s.i] ↔ q.read j ∈ s.pending) := by
    intro j other
    have : q.read j ≠ q.read s.i := fun same => other (read_inj same)
    simp [this]
  rw [posted]
  refine ⟨b.aligned, ⟨begun.1, begun.2.trans (Nat.le_succ _)⟩, ⟨room, more⟩, ?_, ?_, ?_, b.values,
    ?_, ?_, ?_, ?_, ?_⟩
  · exact b.distinct.append (List.nodup_singleton _) (List.disjoint_singleton.mpr fresh)
  · intro r mem
    rcases List.mem_append.mp mem with mem | mem
    · obtain ⟨j, low, less, same⟩ := b.pending r mem
      exact ⟨j, low, less.trans (Nat.lt_succ_self _), same⟩
    · exact ⟨s.i, begun.2, Nat.lt_succ_self _, List.mem_singleton.mp mem⟩
  · intro j low less done
    by_cases newest : j = s.i
    · exact absurd (newest ▸ List.mem_append_right _ (List.mem_singleton.mpr rfl)) done
    · exact b.buffer j low (Nat.lt_of_le_of_ne (Nat.le_of_lt_succ less) newest) (mt (status j newest).mpr done)
  · simp only [List.filterMap_append, b.posts, List.range_succ, List.map_append]
    rfl
  · have := b.polls
    simp only [List.count_append, List.length_append, List.length_singleton]
    simp
    omega
  · intro k
    have same : (Query.slotted s.i k).flatMap (q.events (s.pending ++ [q.read s.i]) scanned) =
        (Query.slotted s.i k).flatMap (q.events s.pending scanned) :=
      List.flatMap_congr fun j mem => by simp only [Query.events, status j (mem_slotted.mp mem).1.ne]
    have slot : (Event.post (q.read s.i)).slot = some (s.i % kParaFetch) := rfl
    rw [List.filter_append, b.slots, slotted_succ, List.flatMap_append, same]
    have new : q.events (s.pending ++ [q.read s.i]) scanned s.i = [.post (q.read s.i)] :=
      events_pending (s := { s with pending := s.pending ++ [q.read s.i] }) (by simp) begun.2
    by_cases own : s.i % kParaFetch = k <;> simp [own, new, slot]
  · have := b.steps
    rw [at'] at this
    simp only [List.length_append, List.length_singleton, Pc.tests] at this ⊢
    omega
  · refine ⟨rfl, ?_, .inr (by simp only; omega), ?_⟩
    · simp only [cqCnt]
      omega
    · simp only [List.length_append, List.length_singleton]
      omega

theorem Batch.slot_ne (b : Batch q base scanned s h) {r : Read} (mem : r ∈ s.pending) (low : base ≤ j)
    (less : j < s.i) (other : q.read j ≠ r) : j % kParaFetch ≠ r.slot := by
  obtain ⟨m, late, before, rfl⟩ := b.pending r mem
  have window := b.window.1
  have begun := b.begun.1
  have : j ≠ m := fun same => other (congrArg q.read same)
  simp only [Query.read, kParaFetch] at window ⊢
  omega

theorem Batch.dma (b : Batch q base scanned s h) {r : Read} (mem : r ∈ s.pending) (page : LeafPage) :
    Batch q base scanned { s with rangeBuffer := Function.update s.rangeBuffer r.slot page } h where
  aligned := b.aligned
  begun := b.begun
  window := b.window
  distinct := b.distinct
  pending := b.pending
  buffer j low less done := by
    have other : q.read j ≠ r := fun same => done (same ▸ mem)
    simp only [Function.update_of_ne (b.slot_ne mem low less other)]
    exact b.buffer j low less done
  values := b.values
  posts := b.posts
  polls := b.polls
  slots := b.slots
  steps := b.steps
  phase := by
    have phase := b.phase
    cases at' : s.pc <;> simpa only [AtPc, at'] using phase

theorem AtPc.complete {r : Read} {rangeBuffer : Nat → LeafPage} (phase : AtPc q base scanned s pc)
    (mem : r ∈ s.pending) :
    AtPc q base scanned { s with
      pending := s.pending.erase r, completions := s.completions + 1, rangeBuffer := rangeBuffer } pc := by
  have total : s.completions + 1 + (s.pending.erase r).length = s.completions + s.pending.length := by
    have := List.length_pos_of_mem mem
    rw [List.length_erase_of_mem mem]
    omega
  cases pc with
  | head =>
      obtain ⟨start, cqCnt, first, outstanding⟩ := phase
      exact ⟨start, cqCnt, first, total.trans outstanding⟩
  | poll count number last =>
      obtain ⟨start, cqCnt, all, less, outstanding, rest⟩ := phase
      exact ⟨start, cqCnt, all, less, (congrArg (· + count) total).trans outstanding, rest⟩
  | scan k number last =>
      obtain ⟨-, -, -, none, -⟩ := phase
      rw [none] at mem
      cases mem
  | read =>
      obtain ⟨start, cqCnt, more, room, outstanding⟩ := phase
      exact ⟨start, cqCnt, more, room, total.trans outstanding⟩
  | finished =>
      obtain ⟨-, -, none, -⟩ := phase
      rw [none] at mem
      cases mem

theorem Batch.complete (b : Batch q base scanned s h) {r : Read} (mem : r ∈ s.pending) :
    Batch q base scanned
      { s with
        pending := s.pending.erase r
        completions := s.completions + 1
        rangeBuffer := Function.update s.rangeBuffer r.slot (q.delivered r.index) }
      (h ++ [.complete r]) := by
  obtain ⟨m, late, before, rfl⟩ := b.pending r mem
  have window := b.window
  have begun := b.begun
  have length : (s.pending.erase (q.read m)).length + 1 = s.pending.length := by
    have := List.length_pos_of_mem mem
    rw [List.length_erase_of_mem mem]
    omega
  have status : ∀ j, j ≠ m → (q.read j ∈ s.pending.erase (q.read m) ↔ q.read j ∈ s.pending) :=
    fun j other => List.mem_erase_of_ne fun eq => other (read_inj eq)
  refine ⟨b.aligned, begun, window, b.distinct.erase _, ?_, fun j low less done => ?_, b.values, ?_, ?_, ?_, ?_,
    b.phase.complete mem⟩
  · exact fun r' mem' => b.pending r' (List.mem_of_mem_erase mem')
  · by_cases own : j = m
    · subst own
      simp [Query.read]
    · have still : q.read j ∉ s.pending := mt (status j own).mpr done
      have other : q.read j ≠ q.read m := fun eq => still (eq ▸ mem)
      simp only [Function.update_of_ne (b.slot_ne mem low less other)]
      exact b.buffer j low less still
  · exact (posts_append rfl).trans b.posts
  · have := b.polls
    simp
    omega
  · refine slots_extend b.slots before (window.1.trans (by omega)) rfl ?_ fun j other => ?_
    · have gone : q.read m ∉ s.pending.erase (q.read m) := b.distinct.not_mem_erase
      rw [events_pending mem late]
      simp [Query.events, gone, Nat.not_lt.mpr late]
    · simp only [Query.events, status j other]
  · have := b.steps
    simp only [List.length_append, List.length_singleton]
    omega

theorem Batch.head_step (b : Batch q base scanned s h) (at' : s.pc = .head)
    (step : q.machine.step s .client = some t) : ∃ base' scanned', Batch q base' scanned' t (h ++ [.test]) := by
  have window := b.window
  have begun := b.begun
  have aligned := b.aligned
  have phase := b.phase
  rw [at'] at phase
  obtain ⟨rfl, cqCnt, first, outstanding⟩ := phase
  simp only [Query.machine, at'] at step
  split at step
  · rename_i more
    split at step
    · rename_i full
      cases step
      have whole : s.i = scanned + kParaFetch := by
        simp only [kParaFetch] at aligned full window ⊢
        omega
      refine ⟨_, _, b.test aligned ⟨le_rfl, begun.1⟩ ⟨rfl, cqCnt, ?_, ?_, ?_, ?_⟩ ?_⟩
      · simp only [whole]
        omega
      · simp only [whole, kParaFetch]
        omega
      · simp only
        omega
      · exact ⟨whole, more⟩
      · simp [at', Pc.tests]
    · rename_i room
      cases step
      refine ⟨_, _, b.test aligned ⟨le_rfl, begun.1⟩ ⟨rfl, cqCnt, more, ?_, outstanding⟩ ?_⟩
      · simp only [kParaFetch] at aligned room window ⊢
        omega
      · simp [at', Pc.tests]
  · rename_i all
    split at step
    · rename_i some'
      cases step
      refine ⟨_, _, b.test aligned ⟨le_rfl, begun.1⟩ ⟨rfl, cqCnt, cqCnt, ?_, ?_, ?_⟩ ?_⟩
      · simp only
        omega
      · simp only
        omega
      · simp only [if_true]
        omega
      · simp [at', Pc.tests]
    · -- nothing is outstanding, so there was no leaf
      cases step
      refine ⟨_, _, b.test aligned ⟨le_rfl, begun.1⟩ ⟨?_, ?_, ?_, ?_⟩ ?_⟩
      · omega
      · simp only
        omega
      · exact List.length_eq_zero_iff.mp (by simp only; omega)
      · simp only
        omega
      · simp [at', Pc.tests]

theorem Batch.poll_step {count : Nat} {number : Int} {last : Bool} (b : Batch q base scanned s h)
    (at' : s.pc = .poll count number last) (step : q.machine.step s .client = some t) :
    ∃ base' scanned', Batch q base' scanned' t (h ++ [.poll]) := by
  have phase := b.phase
  rw [at'] at phase
  obtain ⟨rfl, cqCnt, rfl, less, outstanding, rest⟩ := phase
  simp only [Query.machine, at'] at step
  split at step
  · cases step
  · rename_i completions found
    split at step
    · rename_i more
      cases step
      refine ⟨_, _, b.poll s.cqCnt found ⟨rfl, cqCnt, rfl, ?_, ?_, rest⟩ (by simp [at', Pc.tests])⟩
      · simp only
        omega
      · simp only
        omega
    · rename_i done
      have polled : completions = 0 ∧ s.pending.length = 0 := by omega
      have none : s.pending = [] := List.length_eq_zero_iff.mp polled.2
      cases last with
      | true =>
          cases step
          exact ⟨_, _, b.poll s.cqCnt found ⟨rfl, rfl, polled.1, none, rest⟩ (by simp [at', Pc.tests])⟩
      | false =>
          cases step
          refine ⟨_, _, b.poll _ found ⟨rfl, rfl, polled.1, none, ?_, rest⟩ (by simp [at', Pc.tests])⟩
          have := rest.1
          simp only [kParaFetch] at this ⊢
          omega

theorem Batch.scan_end {number : Int} {last : Bool} (b : Batch q base scanned s h)
    (at' : s.pc = .scan k number last) (done : ¬ (k : Int) < number) :
    ∃ base', Batch q base' scanned { s with pc := if last then .finished else .read } (h ++ [.test]) := by
  have begun := b.begun
  have window := b.window
  have phase := b.phase
  rw [at'] at phase
  obtain ⟨rfl, rfl, polled, none, rest⟩ := phase
  have all : base + k = s.i := by omega
  cases last with
  | true =>
      refine ⟨_, b.test b.aligned ⟨le_rfl, begun.1⟩ ⟨all.trans rest, rest, none, polled⟩ ?_⟩
      simp [at', Pc.tests]
  | false =>
      -- the next batch begins
      obtain ⟨cqCnt, whole, more⟩ := rest
      have start : (base + k) % kParaFetch = 0 := by rw [all, whole, Nat.add_mod_right, b.aligned]
      refine ⟨_, b.test start ⟨begun.1, le_rfl⟩ ⟨rfl, ?_, more, ?_, ?_⟩ ?_⟩
      · simp only [cqCnt, all]
        omega
      · simp only [all, kParaFetch]
        omega
      · simp only [polled, none, all, List.length_nil]
        omega
      · simp only [at', Pc.tests, all, whole, kParaFetch, Bool.false_eq_true, if_false]
        omega

theorem Batch.step (b : Batch q base scanned s h) {a : Action} (step : q.machine.step s a = some t) :
    ∃ base' scanned', Batch q base' scanned' t (h ++ q.event s a) := by
  cases a with
  | client =>
      cases at' : s.pc with
      | head =>
          have event : q.event s .client = [.test] := by simp only [Query.event, at']
          exact event ▸ b.head_step at' step
      | poll count number last =>
          have event : q.event s .client = [.poll] := by simp only [Query.event, at']
          exact event ▸ b.poll_step at' step
      | scan k number last =>
          simp only [Query.machine, at'] at step
          split at step
          · rename_i less
            cases step
            have event : q.event s .client = [.scan k] := by simp only [Query.event, at', if_pos less]
            exact ⟨_, _, event ▸ b.scan at' less⟩
          · rename_i done
            cases step
            have event : q.event s .client = [.test] := by simp only [Query.event, at', if_neg done]
            obtain ⟨base', next⟩ := b.scan_end at' done
            exact ⟨_, _, event ▸ next⟩
      | read =>
          have event : q.event s .client = [.post (q.read s.i)] := by simp only [Query.event, at']
          simp only [Query.machine, at'] at step
          split at step
          · cases step
          · rename_i addr leaf
            cases step
            exact ⟨_, _, event ▸ b.read at' leaf⟩
      | finished =>
          simp only [Query.machine, at'] at step
          cases step
  | dma r page =>
      simp only [Query.machine] at step
      split at step
      · rename_i mem
        cases step
        simp only [Query.event, List.append_nil]
        exact ⟨_, _, b.dma mem page⟩
      · cases step
  | complete r =>
      simp only [Query.machine] at step
      split at step
      · rename_i mem
        cases step
        exact ⟨_, _, b.complete mem⟩
      · cases step

theorem run_batch {rangeBuffer : Nat → LeafPage} {as : List Action}
    (run : q.machine.run (.init rangeBuffer) as = some s) :
    ∃ base scanned, Batch q base scanned s (q.machine.history q.event (.init rangeBuffer) as) := by
  have start : ∃ base scanned, Batch q base scanned (.init rangeBuffer) [] := ⟨0, 0, init_batch q rangeBuffer⟩
  have may : q.machine.Throughout (fun _ _ => True) (.init rangeBuffer) as :=
    Machine.throughout_of_forall (p := fun _ => True) fun _ _ => trivial
  have last := Machine.run_history (I := fun s h => ∃ base scanned, Batch q base scanned s h)
    (fun s h a t ⟨base, scanned, b⟩ _ step => b.step step) start may run
  simpa using last

/-! ## The whole loop -/

theorem Batch.fetched (b : Batch q base scanned s h) (finished : s.pc = .finished) : Fetched q s h := by
  have phase := b.phase
  rw [finished] at phase
  obtain ⟨rfl, all, none, polled⟩ := phase
  refine ⟨all ▸ b.posts, ?_, fun k => ?_, b.values⟩
  · have := b.polls
    rw [none, List.length_nil, polled] at this
    omega
  · rw [b.slots, all]
    refine List.flatMap_congr fun j mem => ?_
    obtain ⟨less, slot⟩ := mem_slotted.mp mem
    simp [Query.events, none, less, slot]

theorem Batch.live (b : Batch q base scanned s h) (unfinished : s.pc ≠ .finished) :
    (∃ t, q.machine.step s .client = some t) ∨ ∃ r t, q.machine.step s (.complete r) = some t := by
  have phase := b.phase
  simp only [Query.machine]
  cases at' : s.pc with
  | head =>
      left
      simp only
      split
      · split <;> exact ⟨_, rfl⟩
      · split <;> exact ⟨_, rfl⟩
  | poll count number last =>
      cases found : s.completions with
      | zero =>
          -- the NIC has reads to complete
          rw [at'] at phase
          obtain ⟨-, -, -, less, outstanding, -⟩ := phase
          obtain ⟨r, mem⟩ := List.exists_mem_of_length_pos (l := s.pending) (by omega)
          exact .inr ⟨r, _, if_pos mem⟩
      | succ completions =>
          left
          simp only
          split
          · exact ⟨_, rfl⟩
          · split <;> exact ⟨_, rfl⟩
  | scan k number last =>
      left
      simp only
      split <;> exact ⟨_, rfl⟩
  | read =>
      left
      rw [at'] at phase
      obtain ⟨-, -, more, -⟩ := phase
      simp only [List.getElem?_eq_getElem more]
      exact ⟨_, rfl⟩
  | finished => exact absurd at' unfinished

def Action.visible : Action → Bool
  | dma .. => false
  | _ => true

theorem length_history {as : List Action} (run : q.machine.run s as = some t) :
    (q.machine.history q.event s as).length = as.countP Action.visible := by
  induction as generalizing s with
  | nil => rfl
  | cons a as ih =>
      obtain ⟨u, step, rest⟩ := q.machine.run_cons.mp run
      have one : (q.event s a).length = if a.visible then 1 else 0 := by
        cases a with
        | client =>
            simp only [Query.event, Action.visible, if_true]
            split <;> first | rfl | (split <;> rfl)
        | dma | complete => rfl
      simp only [Machine.history, step, List.length_append, List.countP_cons, ih rest, one]
      omega

theorem Batch.bound (b : Batch q base scanned s h) : h.length ≤ 6 * q.leaves.length + 2 := by
  have steps := b.steps
  have begun := b.begun
  have window := b.window
  have tests : s.pc.tests ≤ 2 := by cases s.pc <;> simp [Pc.tests]
  have batches := Nat.div_le_self base kParaFetch
  omega

/-- For any leaves, pages and order of completions: the loop comes to its end, within a bound on the steps that are
not writes of the NIC, and has then fetched every leaf. -/
theorem fetch_sound (q : Query) (rangeBuffer : Nat → LeafPage) (as : List Action) (s : State)
    (run : q.machine.run (.init rangeBuffer) as = some s) :
    (s.pc = .finished → Fetched q s (q.machine.history q.event (.init rangeBuffer) as)) ∧
      (s.pc ≠ .finished →
        (∃ t, q.machine.step s .client = some t) ∨ ∃ r t, q.machine.step s (.complete r) = some t) ∧
      as.countP Action.visible ≤ 6 * q.leaves.length + 2 := by
  obtain ⟨base, scanned, b⟩ := run_batch run
  exact ⟨b.fetched, b.live, length_history run ▸ b.bound⟩

def threeRecords (k : Key) (v : Value) : LeafPage :=
  { LeafPage.new 0 with
    records := ⟨1, k, v, 1⟩ :: ⟨2, k + 1, v, 1⟩ :: ⟨3, k + 2, v, 3⟩ :: List.replicate (kLeafCardinality - 3) default
    size := by simp [kLeafCardinality_eq] }

def twoLeaves : Query := ⟨[⟨1, 1024⟩, ⟨2, 1024⟩], fun j => threeRecords (7 * j + 2) (j + 5), 3, 10⟩

theorem fetch_sound_two :
    let as := [.client, .client, .client, .client, .complete (twoLeaves.read 1), .client, .dma (twoLeaves.read 0) (.new 0),
      .client, .complete (twoLeaves.read 0), .client, .client, .client, .client]
    ∃ s, twoLeaves.machine.run (.init fun _ => .new 0) as = some s ∧ s.valueBuffer = [5, 6] ∧
      Fetched twoLeaves s (twoLeaves.machine.history twoLeaves.event (.init fun _ => .new 0) as) :=
  ⟨_, rfl, by decide, (fetch_sound twoLeaves (fun _ => .new 0)
    [.client, .client, .client, .client, .complete (twoLeaves.read 1), .client, .dma (twoLeaves.read 0) (.new 0),
      .client, .complete (twoLeaves.read 0), .client, .client, .client, .client] _ rfl).1 rfl⟩

theorem Fetched.rangeQuery {cache : IndexCache} {read : GlobalAddress → Option Page} (f : Fetched q s h)
    (leaves : q.leaves = (cache.searchRangeFromCache q.fromKey q.toKey).flatMap (·.leaves q.fromKey q.toKey))
    (delivered : ∀ j addr, q.leaves[j]? = some addr → read addr = some (.leaf (q.delivered j))) :
    s.valueBuffer = rangeQuery cache read q.fromKey q.toKey := by
  have pages : q.leaves.map read = (List.range q.leaves.length).map fun j => some (.leaf (q.delivered j)) := by
    refine List.ext_getElem (by simp) fun j less _ => ?_
    rw [List.length_map] at less
    simpa using delivered j _ (List.getElem?_eq_getElem less)
  rw [Sherman.rangeQuery, rangeRecords, fetch_eq, ← leaves, List.nil_append, pages, f.values, List.flatMap_map,
    List.map_flatMap]
  rfl

end Sherman.LeafFetch
