import Mathlib.Data.Nat.ModEq
import Sherman.Buffer.Machine

namespace Sherman.Buffer

open Concurrency

/-- Bytes land in the page buffer taken last: the page writes that wait were posted some other number
of calls ago than a multiple of eight. -/
def PageFree (s : State) : Prop :=
  ∀ x ∈ s.pending, ∀ i bytes calls, x.kind = .write (.page i) bytes calls →
    ¬ s.pageCalls ≡ calls [MOD kPageBufferCnt]

def CasFree (s : State) : Prop :=
  ∀ x ∈ s.pending, ∀ i bytes calls, x.kind = .write (.cas i) bytes calls →
    ¬ s.casCalls ≡ calls [MOD kCasBufferCnt]

/-- The rotation has not come back to a write that waits, and no read of `range_query` lands on one. -/
def Rotates (s : State) : Action → Prop
  | .thread => match s.todo with
      | .read _ _ :: _ | .makePage _ :: _ => PageFree s
      | .cas _ _ :: _ => CasFree s
      | _ => True
  | .execute i => match s.pending[i]? with
      | some ⟨_, .read dest _⟩ =>
          ∀ x ∈ s.pending, ∀ source bytes calls, x.kind = .write source bytes calls → source ≠ dest
      | _ => True

inductive Source : Slot → Bytes → Nat → Prop
  | page (bytes calls) : Source (.page (calls % kPageBufferCnt)) bytes calls
  | cas (calls) : Source (.cas (calls % kCasBufferCnt)) 0 calls

structure Kept (s : State) : Prop where
  pageCur : s.buf.pageBufferCur = s.pageCalls % kPageBufferCnt
  casCur : s.buf.casBufferCur = s.casCalls % kCasBufferCnt
  source : ∀ x ∈ s.pending, ∀ slot bytes calls, x.kind = .write slot bytes calls →
    Source slot bytes calls ∧ s.buf.content slot = bytes

theorem init_kept (ops : List Operation) : Kept (.init ops) where
  pageCur := rfl
  casCur := rfl
  source _ member := nomatch member

theorem Kept.fill {s : State} (kept : Kept s) {slot : Slot} {b : Bytes}
    (apart : ∀ x ∈ s.pending, ∀ source bytes calls, x.kind = .write source bytes calls →
      source = slot → bytes = b) : Kept (s.fill slot b) where
  pageCur := kept.pageCur
  casCur := kept.casCur
  source x member source bytes calls kind := by
    obtain ⟨from_, content⟩ := kept.source x member source bytes calls kind
    refine ⟨from_, ?_⟩
    by_cases same : source = slot
    · subst same
      simp only [State.fill, RdmaBuffer.fill, Function.update_self]
      exact (apart x member source bytes calls kind rfl).symm
    · simp only [State.fill, RdmaBuffer.fill, Function.update_of_ne same]
      exact content

theorem Kept.fillPage {s : State} (kept : Kept s) (free : PageFree s) (b : Bytes) :
    Kept (s.fill s.buf.pageBuffer b) := by
  refine kept.fill fun x member source bytes calls kind same => ?_
  obtain ⟨from_, -⟩ := kept.source x member source bytes calls kind
  cases from_ with
  | page =>
      simp only [RdmaBuffer.pageBuffer, kept.pageCur, Slot.page.injEq] at same
      exact absurd same.symm (free x member _ _ _ kind)
  | cas => cases same

theorem Kept.fillCas {s : State} (kept : Kept s) (free : CasFree s) (b : Bytes) :
    Kept (s.fill s.buf.casBuffer b) := by
  refine kept.fill fun x member source bytes calls kind same => ?_
  obtain ⟨from_, -⟩ := kept.source x member source bytes calls kind
  cases from_ with
  | page => cases same
  | cas =>
      simp only [RdmaBuffer.casBuffer, kept.casCur, Slot.cas.injEq] at same
      exact absurd same.symm (free x member _ _ _ kind)

theorem Kept.zeroCas {s : State} (kept : Kept s) : Kept (s.fill s.buf.casBuffer 0) := by
  refine kept.fill fun x member source bytes calls kind same => ?_
  obtain ⟨from_, -⟩ := kept.source x member source bytes calls kind
  cases from_ with
  | page => cases same
  | cas => rfl

theorem Kept.fillSibling {s : State} (kept : Kept s) (b : Bytes) :
    Kept (s.fill s.buf.siblingBuffer b) := by
  refine kept.fill fun x member source bytes calls kind same => ?_
  obtain ⟨from_, -⟩ := kept.source x member source bytes calls kind
  cases from_ with
  | page => cases same
  | cas => cases same

theorem Kept.post {s : State} (kept : Kept s) {n : NodeID} {k : Kind}
    (ok : ∀ slot bytes calls, k = .write slot bytes calls →
      Source slot bytes calls ∧ s.buf.content slot = bytes) : Kept (s.post n k) where
  pageCur := kept.pageCur
  casCur := kept.casCur
  source x member slot bytes calls kind := by
    rcases List.mem_append.mp member with old | new
    · exact kept.source x old slot bytes calls kind
    · rw [List.mem_singleton.mp new] at kind
      exact ok slot bytes calls kind

theorem Kept.postPage {s : State} (kept : Kept s) (n : NodeID) : Kept (s.postPage n) := by
  refine kept.post fun slot bytes calls kind => ?_
  cases kind
  refine ⟨?_, rfl⟩
  rw [RdmaBuffer.pageBuffer, kept.pageCur]
  exact .page _ _

theorem Kept.postCas {s : State} (kept : Kept s) (n : NodeID) : Kept (s.postCas n) := by
  refine kept.zeroCas.post fun slot bytes calls kind => ?_
  cases kind
  refine ⟨?_, ?_⟩
  · rw [RdmaBuffer.casBuffer, kept.casCur]
    exact .cas _
  · simp only [State.fill, RdmaBuffer.fill, Function.update_self]

theorem Kept.todo {s : State} (kept : Kept s) (rest : List Step) : Kept { s with todo := rest } :=
  ⟨kept.pageCur, kept.casCur, kept.source⟩

theorem next_cur {cur calls n : Nat} (at_ : cur = calls % n) : (cur + 1) % n = (calls + 1) % n := by
  rw [at_, Nat.mod_add_mod]

theorem Kept.perform {s s' : State} {x : Step} (kept : Kept s)
    (page : ∀ n b, x = .read n b ∨ x = .makePage b → PageFree s)
    (cas : ∀ n b, x = .cas n b → CasFree s) (step : s.perform x = some s') : Kept s' := by
  cases x with
  | getPageBuffer =>
      simp only [State.perform, Option.some.injEq] at step
      subst step
      exact ⟨next_cur kept.pageCur, kept.casCur, kept.source⟩
  | getCasBuffer =>
      simp only [State.perform, Option.some.injEq] at step
      subst step
      exact ⟨kept.pageCur, next_cur kept.casCur, kept.source⟩
  | getSiblingBuffer =>
      simp only [State.perform, Option.some.injEq] at step
      subst step
      exact ⟨kept.pageCur, kept.casCur, kept.source⟩
  | read n b =>
      simp only [State.perform] at step
      split at step
      · cases step
        exact kept.fillPage (page n b (.inl rfl)) b
      · cases step
  | cas n b =>
      simp only [State.perform] at step
      split at step
      · cases step
        exact kept.fillCas (cas n b rfl) b
      · cases step
  | makePage b =>
      cases step
      exact kept.fillPage (page 0 b (.inr rfl)) b
  | makeSibling b =>
      cases step
      exact kept.fillSibling b
  | write n =>
      simp only [State.perform] at step
      split at step
      · cases step
        exact kept
      · cases step
  | writeUnlock n =>
      simp only [State.perform] at step
      split at step
      · cases step
        exact kept.zeroCas
      · cases step
  | postUnlock n =>
      cases step
      exact kept.postCas n
  | postBatch n =>
      cases step
      exact (kept.postPage n).postCas n
  | postRead i n b =>
      cases step
      exact kept.post fun slot bytes calls kind => nomatch kind
  | poll =>
      simp only [State.perform] at step
      split at step
      · cases step
      · cases step
        exact kept

theorem Kept.execute {s s' : State} {i : Nat} (kept : Kept s) (rotates : Rotates s (.execute i))
    (step : machine.step s (.execute i) = some s') :
    Kept s' ∧ ∀ e ∈ event s (.execute i), e.written = e.posted := by
  simp only [machine, Buffer.step] at step
  split at step
  · cases step
  · rename_i x found
    have member := List.mem_of_getElem? found
    have smaller : Kept { s with pending := s.pending.eraseIdx i } :=
      ⟨kept.pageCur, kept.casCur, fun y rest => kept.source y (List.mem_of_mem_eraseIdx rest)⟩
    obtain ⟨n, kind⟩ := x
    split at step
    · cases kind with
      | write source bytes calls =>
          cases step
          refine ⟨smaller, fun e executed => ?_⟩
          simp only [event, found, List.mem_singleton] at executed
          subst executed
          exact (kept.source _ member source bytes calls rfl).2
      | read dest bytes =>
          cases step
          simp only [Rotates, found] at rotates
          refine ⟨smaller.fill fun y rest source bytes' calls kind same => ?_, fun e executed => ?_⟩
          · exact absurd same (rotates y (List.mem_of_mem_eraseIdx rest) source bytes' calls kind)
          · simp [event, found] at executed
    · cases step

theorem Kept.step {s s' : State} {a : Action} (kept : Kept s) (rotates : Rotates s a)
    (step : machine.step s a = some s') : Kept s' ∧ ∀ e ∈ event s a, e.written = e.posted := by
  cases a with
  | execute i => exact kept.execute rotates step
  | thread =>
      refine ⟨?_, fun e executed => nomatch executed⟩
      simp only [machine, Buffer.step] at step
      split at step
      · cases step
      · rename_i x rest todo
        simp only [Rotates, todo] at rotates
        refine (kept.todo rest).perform (fun n b is => ?_) (fun n b is => ?_) step
        · obtain rfl | rfl := is
          · exact rotates
          · exact rotates
        · subst is
          exact rotates

/-- An unsignalled write takes the bytes it was posted with from its slot, in every run in which the
rotation does not come back to the slot of a write that waits. -/
theorem buffers_kept (ops : List Operation) (as : List Action) (s : State)
    (run : machine.run (.init ops) as = some s) (rotates : machine.Throughout Rotates (.init ops) as) :
    ∀ e ∈ machine.history event (.init ops) as, e.written = e.posted := by
  have step : ∀ s (h : List Executed) a s', (Kept s ∧ ∀ e ∈ h, e.written = e.posted) → Rotates s a →
      machine.step s a = some s' → Kept s' ∧ ∀ e ∈ h ++ event s a, e.written = e.posted := by
    intro s h a s' kept rotates step
    obtain ⟨next, executed⟩ := kept.1.step rotates step
    refine ⟨next, fun e member => ?_⟩
    rcases List.mem_append.mp member with old | new
    · exact kept.2 e old
    · exact executed e new
  exact (Machine.run_history (h := []) step ⟨init_kept ops, fun e member => nomatch member⟩ rotates run).2

/-! ## Nine page buffers later -/

def splitting : Operation where
  steps := getRootPtr none ++ pageSearches [(1, [10])] ++
    (lockAndReadPage 2 [0] 20 ++ splitAndUnlock 1 22 2 21 false ++ [] ++
      (lockAndReadPage 1 [0] 10 ++ .makePage 11 :: writePageAndUnlock 1 false false))
  run := .update none [(1, [10])] (.splitUp 2 [0] 20 21 false 1 22
    ⟨[], [], rfl, .inl rfl, .inl rfl⟩ (.stored 1 [0] 10 11 false))

def searching : Operation where
  steps := getRootPtr none ++ pageSearches [(1, [11]), (1, [30])]
  run := .search none [(1, [11]), (1, [30])]

def rotates (s : State) : Action → Bool
  | .thread => match s.todo with
      | .read _ _ :: _ | .makePage _ :: _ => s.pending.all fun x => match x.kind with
          | .write (.page _) _ calls => s.pageCalls % kPageBufferCnt ≠ calls % kPageBufferCnt
          | _ => true
      | .cas _ _ :: _ => s.pending.all fun x => match x.kind with
          | .write (.cas _) _ calls => s.casCalls % kCasBufferCnt ≠ calls % kCasBufferCnt
          | _ => true
      | _ => true
  | .execute i => match s.pending[i]? with
      | some ⟨_, .read dest _⟩ => s.pending.all fun x => match x.kind with
          | .write source _ _ => source ≠ dest
          | _ => true
      | _ => true

theorem rotates_sound (s : State) (a : Action) (h : rotates s a = true) : Rotates s a := by
  have pageFree : (s.pending.all fun x => match x.kind with
      | .write (.page _) _ calls => s.pageCalls % kPageBufferCnt ≠ calls % kPageBufferCnt
      | _ => true) = true → PageFree s := by
    intro all x member i bytes calls kind
    have passes := List.all_eq_true.mp all x member
    rw [kind] at passes
    exact of_decide_eq_true passes
  cases a with
  | thread =>
      simp only [rotates] at h
      simp only [Rotates]
      split at h
      · exact pageFree h
      · exact pageFree h
      · intro x member i bytes calls kind
        have passes := List.all_eq_true.mp h x member
        rw [kind] at passes
        exact of_decide_eq_true passes
      · trivial
  | execute i =>
      simp only [rotates] at h
      simp only [Rotates]
      split at h
      · intro x member source bytes calls kind
        have passes := List.all_eq_true.mp h x member
        rw [kind] at passes
        exact of_decide_eq_true passes
      · trivial

theorem buffers_kept_split : ∃ s, machine.run (.init [splitting, searching, searching, searching])
      (List.replicate 31 .thread ++ [.execute 0, .execute 0]) = some s ∧
    machine.history event (.init [splitting, searching, searching, searching])
      (List.replicate 31 .thread ++ [.execute 0, .execute 0]) = [⟨.page 2, 21, 21⟩, ⟨.cas 2, 0, 0⟩] ∧
    ∀ e ∈ machine.history event (.init [splitting, searching, searching, searching])
      (List.replicate 31 .thread ++ [.execute 0, .execute 0]), e.written = e.posted := by
  have run : ∃ s, machine.run (.init [splitting, searching, searching, searching])
      (List.replicate 31 .thread ++ [.execute 0, .execute 0]) = some s := ⟨_, rfl⟩
  obtain ⟨s, run⟩ := run
  exact ⟨s, run, rfl, buffers_kept _ _ s run (Machine.throughout_of_passes rotates_sound rfl)⟩

/-- The leaf is overwritten with the page of a later search. -/
theorem buffers_overwritten : ¬ ∀ (ops : List Operation) (as : List Action) (s : State),
    machine.run (.init ops) as = some s →
    ∀ e ∈ machine.history event (.init ops) as, e.written = e.posted := by
  intro kept
  have run : ∃ s, machine.run (.init [splitting, searching, searching, searching, searching])
      (List.replicate 35 .thread ++ [.execute 0]) = some s := ⟨_, rfl⟩
  obtain ⟨s, run⟩ := run
  have executed : machine.history event (.init [splitting, searching, searching, searching, searching])
      (List.replicate 35 .thread ++ [.execute 0]) = [⟨.page 2, 21, 11⟩] := rfl
  have same := kept _ _ s run ⟨.page 2, 21, 11⟩ (by rw [executed]; exact List.mem_singleton_self _)
  exact absurd same (by decide)

end Sherman.Buffer
