import Mathlib.Data.Prod.Lex
import Sherman.Cache.Lookup
import Sherman.SkipList.Running

namespace Sherman.SkipList

open Concurrency

section
variable {K : Type} [LinearOrder K]

theorem protocol_linearizes : Protocol.Linearizes Op.apply World.keys World.calls (protocol K) where
  invoke _ _ _ _ h := h
  verb _ _ _ _ _ _ h := h.effects
  respond _ _ _ _ _ _ _ h := h
  interfere e := e.elim

def State.init (K : Type) : Concurrency.State (signature K) Tid (Op K) (Result K) (Shared K) := ⟨Shared.init K, fun _ => .idle⟩

def Ghost.init (K : Type) : Ghost K := ⟨fun _ => ∅, fun _ => none, fun _ => none⟩

theorem init_inv : Inv (Shared.init K, Ghost.init K) where
  links _ := .empty
  nested _ := subset_rfl
  maxHeight := ⟨le_rfl, Nat.le_add_left 1 20⟩
  allocated _ x h := absurd h (Finset.notMem_empty x)
  building _ _ h := nomatch h
  own _ _ _ _ h := nomatch h

theorem init_good : (protocol K).Good (system K) (State.init K) (Ghost.init K) :=
  ⟨init_inv, fun _ => ⟨rfl, rfl⟩⟩

theorem may_always (s : Concurrency.State (signature K) Tid (Op K) (Result K) (Shared K)) (as : List (Action Tid (Op K) Choice Empty)) :
    (system K).Throughout (protocol K).May s as := by
  induction as generalizing s with
  | nil => trivial
  | cons a as ih =>
      refine ⟨?_, fun s' _ => ih s'⟩
      cases a with
      | invoke t op => trivial
      | advance t choice =>
          simp only [Protocol.May]
          split <;> trivial
      | respond t => trivial
      | interfere e => trivial

theorem skipList_linearizable (K : Type) [LinearOrder K] (as : List (Action Tid (Op K) Choice Empty)) :
    Linearizable Op.apply ∅ (fun _ => none) ((system K).history (State.init K) as) :=
  protocol_linearizes.linearizable_run (protocol_sound K) init_good (may_always (State.init K) as)

/-- No assertion of the source fails: the levels are sorted, no search overshoots, no splice is stale in a
way that `Insert` does not notice, and the height stays in its bounds. -/
theorem skipList_asserts (K : Type) [LinearOrder K] (as : List (Action Tid (Op K) Choice Empty))
    (s : Concurrency.State (signature K) Tid (Op K) (Result K) (Shared K)) (t : Tid) (op : Op K) (which : Fault)
    (run : (system K).run (State.init K) as = some s) : s.threads t ≠ .running op (.fault which) := by
  intro stopped
  obtain ⟨g, good⟩ := Protocol.good_run (protocol_sound K) init_good (may_always (State.init K) as) run
  exact good.fault stopped

/-- Two threads insert 9 and 7 in turn, with towers of height 2 and 1: the exchange of the first one fails once. -/
def insertBoth : List (Action Tid (Op Nat) Choice Empty) :=
  [.invoke 0 (.insertConcurrently 9), .invoke 1 (.insertConcurrently 7), .advance 0 (.draws [0]), .advance 1 (.draws [])] ++
  (List.replicate 7 [.advance 0 .none, .advance 1 .none]).flatten ++ List.replicate 13 (.advance 0 .none) ++
  [.respond 0, .respond 1]

theorem skipList_asserts_both : ∃ s, (system Nat).run (State.init Nat) insertBoth = some s ∧
    s.shared.next .head 0 = some ⟨1, 7⟩ ∧ s.shared.next (.node ⟨1, 7⟩) 0 = some ⟨0, 9⟩ ∧
    s.shared.next .head 1 = some ⟨0, 9⟩ ∧ ∀ t op which, s.threads t ≠ .running op (.fault which) :=
  ⟨_, rfl, rfl, rfl, rfl, fun t op which => skipList_asserts Nat insertBoth _ t op which rfl⟩

end

/-! ## The entries of the index cache -/

abbrev Range := Key ×ₗ Keyᵒᵈ

def range (fromKey toKey : Key) : Range := toLex (toKey, OrderDual.toDual fromKey)

def Range.fromKey (r : Range) : Key := OrderDual.ofDual (ofLex r).2

def Range.toKey (r : Range) : Key := (ofLex r).1

def entryRange (e : CacheEntry) : Range := range e.fromKey e.toKey

theorem less_iff_range {a b : CacheEntry} : a.less b = true ↔ entryRange a < entryRange b := by
  rw [CacheEntry.less_iff, entryRange, entryRange, range, range, Prod.Lex.toLex_lt_toLex]
  exact Iff.rfl

theorem sameRange_iff_range {a b : CacheEntry} : a.sameRange b = true ↔ entryRange a = entryRange b := by
  simp only [CacheEntry.sameRange, decide_eq_true_eq, entryRange, range, EmbeddingLike.apply_eq_iff_eq, Prod.mk.injEq]
  exact and_comm

def Range.entry (r : Range) : CacheEntry := ⟨r.fromKey, r.toKey, none⟩

theorem entryRange_entry (r : Range) : entryRange r.entry = r := rfl

/-- `add_entry` and `find_entry` on the sorted list of entries. -/
def cacheApply : Op Range → IndexCache → Result Range × IndexCache
  | .insertConcurrently r, cache => match cache.addEntry r.entry with
      | some cache' => (.inserted true, cache')
      | none => (.inserted false, cache)
  | .seek r, cache => (.key ((cache.findEntry r.fromKey r.toKey).map entryRange), cache)

structure Entries (keys : Finset Range) (cache : IndexCache) : Prop where
  ordered : cache.Pairwise fun a b => a.less b = true
  ranges : ∀ r, r ∈ keys ↔ ∃ e ∈ cache, entryRange e = r

theorem findEntry_leastFrom {keys : Finset Range} {cache : IndexCache} (h : Entries keys cache) (r : Range) :
    (cache.findEntry r.fromKey r.toKey).map entryRange = leastFrom keys r := by
  have passes : ∀ e : CacheEntry, (decide ¬ (e.less r.entry = true)) = true ↔ r ≤ entryRange e := by
    intro e
    rw [decide_eq_true_iff, less_iff_range, entryRange_entry, not_lt]
  cases found : cache.findEntry r.fromKey r.toKey with
  | none =>
      refine (leastFrom_eq_none fun z member le => ?_).symm
      obtain ⟨e, inside, rfl⟩ := (h.ranges z).mp member
      exact List.find?_eq_none.mp found e inside ((passes e).mpr le)
  | some e =>
      obtain ⟨stop, front, back, rfl, before⟩ := List.find?_eq_some_iff_append.mp found
      refine (leastFrom_eq_some ((h.ranges _).mpr ⟨e, by simp, rfl⟩) ((passes e).mp stop) fun z member le => ?_).symm
      obtain ⟨x, inside, rfl⟩ := (h.ranges z).mp member
      rcases List.mem_append.mp inside with early | late
      · have := before x early
        rw [Bool.not_eq_true', Bool.eq_false_iff] at this
        exact absurd ((passes x).mpr le) this
      · rcases List.mem_cons.mp late with rfl | later
        · exact le_rfl
        · have ordered := (List.pairwise_cons.mp (List.pairwise_append.mp h.ordered).2.1).1 x later
          exact le_of_lt (less_iff_range.mp ordered)

theorem cacheApply_simulates (op : Op Range) (keys : Finset Range) (cache : IndexCache) (h : Entries keys cache) :
    (cacheApply op cache).1 = (op.apply keys).1 ∧ Entries (op.apply keys).2 (cacheApply op cache).2 := by
  cases op with
  | seek r => exact ⟨congrArg Result.key (findEntry_leastFrom h r), h⟩
  | insertConcurrently r =>
      have there : cache.any r.entry.sameRange = true ↔ r ∈ keys := by
        rw [List.any_eq_true, h.ranges]
        refine exists_congr fun e => and_congr_right fun _ => ?_
        rw [sameRange_iff_range, entryRange_entry, eq_comm]
      simp only [cacheApply, Op.apply]
      cases added : cache.addEntry r.entry with
      | none =>
          have member : r ∈ keys := by
            by_contra absent
            rw [IndexCache.addEntry, if_neg (mt there.mp absent)] at added
            cases added
          simp only [member, not_true_eq_false, decide_false, Finset.insert_eq_of_mem, true_and]
          exact h
      | some cache' =>
          have absent : r ∉ keys := by
            intro member
            rw [IndexCache.addEntry, if_pos (there.mpr member)] at added
            cases added
          simp only [absent, not_false_eq_true, decide_true, true_and]
          refine ⟨IndexCache.ordered_addEntry h.ordered added, fun z => ?_⟩
          rw [Finset.mem_insert, h.ranges]
          simp only [IndexCache.mem_addEntry added]
          constructor
          · rintro (rfl | ⟨e, inside, rfl⟩)
            · exact ⟨_, .inr rfl, rfl⟩
            · exact ⟨e, .inl inside, rfl⟩
          · rintro ⟨e, inside | rfl, rfl⟩
            · exact .inr ⟨e, inside, rfl⟩
            · exact .inl rfl

/-- The concurrent `add_entry` and `find_entry` of the index cache are those of the sorted list. -/
theorem addEntry_findEntry_linearizable (as : List (Action Tid (Op Range) Choice Empty)) :
    Linearizable cacheApply [] (fun _ => none) ((system Range).history (State.init Range) as) :=
  Linearizable.simulate cacheApply_simulates ⟨.nil, fun r => by simp⟩ (skipList_linearizable Range as)

end Sherman.SkipList
