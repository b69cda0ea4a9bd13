import Sherman.Concurrency.DoWhile

/-!
# Polling completions

`pollWithCQ` of `src/rdma/Operation.cpp`. The results of `ibv_poll_cq`, errors among them, are added up, and
only the status of the last completion is looked at.
-/

namespace Sherman.Rdma

open Concurrency

abbrev Status := Nat

def IBV_WC_SUCCESS : Status := 0

/-- What one `ibv_poll_cq(cq, 1, wc)` does: it finds nothing, takes a completion, or returns `-1 - code`. -/
inductive PollResult where
  | empty
  | completion (status : Status)
  | error (code : Nat)
  deriving DecidableEq

namespace PollResult

def newCount : PollResult → Int
  | empty => 0
  | completion _ => 1
  | error code => -1 - code

def taken : PollResult → Nat
  | completion _ => 1
  | _ => 0

def IsError (r : PollResult) : Prop := ∃ code, r = error code

def Bad (r : PollResult) : Prop := ∃ status, r = completion status ∧ status ≠ IBV_WC_SUCCESS

end PollResult

structure Poll where
  count : Int
  wc : Option Status
  deriving DecidableEq

def Poll.next (s : Poll) (r : PollResult) : Poll where
  count := s.count + r.newCount
  wc := match r with
    | .completion status => some status
    | _ => s.wc

structure Outcome where
  value : Int
  calls : Nat
  deriving DecidableEq

def Poll.outcome (s : Poll) (calls : Nat) : Outcome :=
  if s.count < 0 then ⟨-1, calls⟩
  else if s.wc = some IBV_WC_SUCCESS then ⟨s.count, calls⟩
  else ⟨-1, calls⟩

def pollWithCQ (pollNumber : Int) (results : Nat → PollResult) (fuel : Nat) : Option Outcome :=
  (doWhile Poll.next (fun s => s.count < pollNumber) results fuel 0 ⟨0, none⟩).map fun (calls, s) => s.outcome calls

def Returns (pollNumber : Int) (results : Nat → PollResult) (o : Outcome) : Prop :=
  ∃ fuel, pollWithCQ pollNumber results fuel = some o

def Polled (pollNumber : Int) (results : Nat → PollResult) (j : Nat) : Prop :=
  ∀ o, Returns pollNumber results o → j < o.calls

def completions (results : Nat → PollResult) : Nat → Nat
  | 0 => 0
  | i + 1 => completions results i + (results i).taken

/-- A success stands for `n` successful completions and no error, every failure met is returned, and an error
does not make the loop take more completions. -/
structure Reports (n : Nat) (results : Nat → PollResult) : Prop where
  success : ∀ o, Returns n results o → o.value = n →
    completions results o.calls = n ∧ ∀ j < o.calls, ¬ (results j).IsError ∧ ¬ (results j).Bad
  failure : ∀ j, Polled n results j → (results j).IsError ∨ (results j).Bad →
    ∃ o, Returns n results o ∧ o.value = -1
  bounded : ∀ j i, Polled n results j → (results j).IsError → (∀ m < i, Polled n results m) →
    completions results i ≤ n

/-- No error comes before the `n`-th completion, and if one of the first `n` completions is bad, the last of them
comes and is bad. -/
structure Clean (n : Nat) (results : Nat → PollResult) : Prop where
  noError : ∀ j, completions results j < n → ¬ (results j).IsError
  last : ∀ j, completions results j < n → (results j).Bad →
    ∃ k, completions results k + 1 = n ∧ (results k).Bad

variable {n : Nat} {results : Nat → PollResult} {o : Outcome} {i j k : Nat}

/-! ## The rounds -/

def polls (results : Nat → PollResult) : Nat → Poll := iterates Poll.next results ⟨0, none⟩

theorem polls_succ (results : Nat → PollResult) (i : Nat) : polls results (i + 1) = (polls results i).next (results i) :=
  rfl

theorem taken_le_one (r : PollResult) : r.taken ≤ 1 := by cases r <;> simp [PollResult.taken]

theorem newCount_le (r : PollResult) : r.newCount ≤ r.taken := by
  cases r with
  | empty => exact Int.le_refl _
  | completion status => exact Int.le_refl _
  | error code => simp only [PollResult.newCount, PollResult.taken]; omega

theorem newCount_eq {r : PollResult} (h : ¬ r.IsError) : r.newCount = r.taken := by
  cases r with
  | empty => rfl
  | completion status => rfl
  | error code => exact absurd ⟨code, rfl⟩ h

theorem newCount_error {r : PollResult} (h : r.IsError) : r.newCount + 1 ≤ r.taken := by
  obtain ⟨code, rfl⟩ := h
  simp only [PollResult.newCount, PollResult.taken]
  omega

theorem completions_mono (le : i ≤ j) : completions results i ≤ completions results j := by
  induction le with
  | refl => exact le_rfl
  | step _ ih => exact ih.trans (Nat.le_add_right _ _)

theorem count_le (results : Nat → PollResult) (i : Nat) : (polls results i).count ≤ completions results i := by
  induction i with
  | zero => exact Int.le_refl _
  | succ i ih =>
      have := newCount_le (results i)
      simp only [polls_succ, Poll.next, completions]
      omega

theorem count_lt (error : (results j).IsError) (before : j < i) : (polls results i).count < completions results i := by
  induction i with
  | zero => cases before
  | succ i ih =>
      have first := count_le results i
      have step := newCount_le (results i)
      simp only [polls_succ, Poll.next, completions]
      rcases Nat.lt_or_eq_of_le (Nat.le_of_lt_succ before) with before | rfl
      · have := ih before
        omega
      · have := newCount_error error
        omega

theorem count_eq (clean : ∀ j < i, ¬ (results j).IsError) : (polls results i).count = completions results i := by
  induction i with
  | zero => rfl
  | succ i ih =>
      have first := ih fun j hj => clean j (Nat.lt_succ_of_lt hj)
      have step := newCount_eq (clean i (Nat.lt_succ_self i))
      simp only [polls_succ, Poll.next, completions]
      omega

theorem outcome_value {s : Poll} (enough : 0 ≤ s.count) (calls : Nat) :
    (s.outcome calls).value = if s.wc = some IBV_WC_SUCCESS then s.count else -1 := by
  rw [Poll.outcome, if_neg (Int.not_lt.mpr enough)]
  split_ifs
  · rfl
  · rfl

theorem outcome_calls (s : Poll) (calls : Nat) : (s.outcome calls).calls = calls := by
  unfold Poll.outcome
  split_ifs <;> rfl

theorem returns_iff : Returns n results o ↔ 0 < o.calls ∧ n ≤ (polls results o.calls).count ∧
    (∀ j, 0 < j → j < o.calls → (polls results j).count < n) ∧ o = (polls results o.calls).outcome o.calls := by
  have loop := @doWhile_iff _ _ Poll.next (fun s => s.count < (n : Int)) results ⟨0, none⟩
  simp only [decide_eq_true_eq, decide_eq_false_iff_not, Int.not_lt] at loop
  constructor
  · rintro ⟨fuel, result⟩
    obtain ⟨⟨calls, s⟩, ends, rfl⟩ := Option.map_eq_some_iff.mp result
    obtain ⟨pos, rfl, enough, before⟩ := loop.mp ⟨fuel, ends⟩
    rw [outcome_calls]
    exact ⟨pos, enough, before, rfl⟩
  · rintro ⟨pos, enough, before, same⟩
    obtain ⟨fuel, ends⟩ := loop.mpr ⟨pos, rfl, enough, before⟩
    exact ⟨fuel, Option.map_eq_some_iff.mpr ⟨_, ends, same.symm⟩⟩

theorem polled_iff (pos : 0 < n) : Polled n results j ↔ ∀ i ≤ j, (polls results i).count < n := by
  constructor
  · intro polled i le
    by_contra enough
    rcases Nat.eq_zero_or_pos i with rfl | later
    · exact enough (Int.natCast_pos.mpr pos)
    · obtain ⟨calls, s, fuel, early, ends⟩ := @doWhile_returns _ _ Poll.next (fun s => s.count < (n : Int)) results
        ⟨0, none⟩ i later (decide_eq_false enough)
      have reached := polled _ ⟨fuel, Option.map_eq_some_iff.mpr ⟨_, ends, rfl⟩⟩
      rw [outcome_calls] at reached
      exact absurd (early.trans le) (Nat.not_le.mpr reached)
  · intro few o returns
    obtain ⟨-, enough, -⟩ := returns_iff.mp returns
    by_contra late
    exact absurd (few o.calls (Nat.not_lt.mp late)) (Int.not_lt.mpr enough)

theorem Polled.earlier (h : Polled n results j) (le : i ≤ j) : Polled n results i :=
  fun o returns => le.trans_lt (h o returns)

theorem polled_of_completions (pos : 0 < n) (few : completions results j < n) : Polled n results j := by
  refine (polled_iff pos).mpr fun i le => ?_
  have := count_le results i
  have : completions results i ≤ completions results j := completions_mono le
  omega

theorem Clean.noError_polled (h : Clean n results) (pos : 0 < n) (polled : Polled n results j) :
    completions results j < n ∧ ¬ (results j).IsError := by
  induction j using Nat.strong_induction_on with
  | h j ih =>
      have count := count_eq fun i (before : i < j) => (ih i before (polled.earlier before.le)).2
      have few := (polled_iff pos).mp polled j le_rfl
      have : completions results j < n := by omega
      exact ⟨this, h.noError j this⟩

/-! ## What a call returns -/

theorem returns_clean (pos : 0 < n) (returns : Returns n results o) (clean : ∀ j < o.calls, ¬ (results j).IsError) :
    completions results o.calls = n ∧ ∃ k status, o.calls = k + 1 ∧ completions results k + 1 = n ∧
      results k = .completion status ∧ o.value = if status = IBV_WC_SUCCESS then (n : Int) else -1 := by
  obtain ⟨calls, enough, before, value⟩ := returns_iff.mp returns
  obtain ⟨k, last⟩ := Nat.exists_eq_add_of_lt calls
  rw [Nat.zero_add] at last
  have count := count_eq clean
  have countBefore : (polls results k).count = completions results k := count_eq fun j hj => clean j (by omega)
  have few : (polls results k).count < n := by
    rcases Nat.eq_zero_or_pos k with rfl | later
    · exact Int.natCast_pos.mpr pos
    · exact before k later (by omega)
  have step : completions results o.calls = completions results k + (results k).taken := by rw [last]; rfl
  have one := taken_le_one (results k)
  have total : completions results o.calls = n := by omega
  refine ⟨total, k, ?_⟩
  cases result : results k with
  | empty => simp only [result, PollResult.taken] at step; omega
  | error code => simp only [result, PollResult.taken] at step; omega
  | completion status =>
      simp only [result, PollResult.taken] at step
      refine ⟨status, last, by omega, rfl, ?_⟩
      have wc : (polls results o.calls).wc = some status := by
        rw [last, polls_succ]
        simp only [Poll.next, result]
      rw [value, outcome_value (by omega), wc, count, total]
      simp only [Option.some.injEq]

theorem completion_unique {status status' : Status} (first : results j = .completion status)
    (second : results k = .completion status') (same : completions results j = completions results k) : j = k := by
  have later : ∀ {i m : Nat} {status : Status}, results i = .completion status →
      completions results i = completions results m → m ≤ i := by
    intro i m status result same
    by_contra before
    have : completions results (i + 1) ≤ completions results m := completions_mono (Nat.not_le.mp before)
    simp only [completions, result, PollResult.taken] at this
    omega
  exact le_antisymm (later second same.symm) (later first same)

theorem polled_of_returns (pos : 0 < n) (returns : Returns n results o) (before : j < o.calls) : Polled n results j := by
  obtain ⟨-, -, few, -⟩ := returns_iff.mp returns
  refine (polled_iff pos).mpr fun i le => ?_
  rcases Nat.eq_zero_or_pos i with rfl | later
  · exact Int.natCast_pos.mpr pos
  · exact few i later (le.trans_lt before)

theorem Clean.reports (h : Clean n results) (pos : 0 < n) : Reports n results := by
  have clean : ∀ o, Returns n results o → ∀ j < o.calls, completions results j < n ∧ ¬ (results j).IsError :=
    fun o returns j before => h.noError_polled pos (polled_of_returns pos returns before)
  refine ⟨fun o returns value => ?_, fun j polled fails => ?_, fun j i polled error => ?_⟩
  · obtain ⟨total, k, status, last, count, result, outcome⟩ :=
      returns_clean pos returns fun j before => (clean o returns j before).2
    refine ⟨total, fun j before => ⟨(clean o returns j before).2, fun bad => ?_⟩⟩
    -- the last completion would be bad too
    obtain ⟨m, count', status', result', notSuccess⟩ := h.last j (clean o returns j before).1 bad
    obtain rfl := completion_unique result result' (by omega)
    rw [result, PollResult.completion.injEq] at result'
    rw [result', if_neg notSuccess] at outcome
    omega
  · obtain ⟨few, noError⟩ := h.noError_polled pos polled
    obtain ⟨k, count, status, result, notSuccess⟩ := h.last j few (fails.resolve_left noError)
    have reached : Polled n results k := polled_of_completions pos (by omega)
    have free : ∀ i < k + 1, ¬ (results i).IsError := fun i hi =>
      (h.noError_polled pos (reached.earlier (Nat.le_of_lt_succ hi))).2
    have total := count_eq free
    simp only [completions, result, PollResult.taken] at total
    have wc : (polls results (k + 1)).wc = some status := by
      rw [polls_succ]
      simp only [Poll.next, result]
    refine ⟨(polls results (k + 1)).outcome (k + 1), returns_iff.mpr ?_, ?_⟩
    · rw [outcome_calls]
      exact ⟨Nat.succ_pos k, by omega, fun i _ hi => (polled_iff pos).mp reached i (Nat.le_of_lt_succ hi), rfl⟩
    · rw [outcome_value (by omega), wc, if_neg (by simpa using notSuccess)]
  · exact absurd error (h.noError_polled pos polled).2

theorem Reports.clean (h : Reports n results) (pos : 0 < n) : Clean n results := by
  have noError : ∀ j, Polled n results j → ¬ (results j).IsError := by
    intro j polled error
    obtain ⟨o, returns, -⟩ := h.failure j polled (.inl error)
    have taken := h.bounded j o.calls polled error fun m before => polled_of_returns pos returns before
    have lost := count_lt error (polled o returns)
    obtain ⟨-, enough, -⟩ := returns_iff.mp returns
    omega
  refine ⟨fun j few => noError j (polled_of_completions pos few), fun j few bad => ?_⟩
  obtain ⟨o, returns, value⟩ := h.failure j (polled_of_completions pos few) (.inr bad)
  obtain ⟨-, k, status, -, count, result, outcome⟩ :=
    returns_clean pos returns fun i before => noError i (polled_of_returns pos returns before)
  refine ⟨k, count, status, result, fun success => ?_⟩
  rw [outcome, if_pos success] at value
  omega

/-- `pollWithCQ` reports every failure exactly on the sequences in which no error comes before the last completion
it waits for, and a bad completion only together with a bad last one. -/
theorem pollWithCQ_reports_iff (n : Nat) (pos : 0 < n) (results : Nat → PollResult) :
    Reports n results ↔ Clean n results :=
  ⟨fun h => h.clean pos, fun h => h.reports pos⟩

def badLast (j : Nat) : PollResult :=
  if j = 1 then .completion IBV_WC_SUCCESS else if j = 3 then .completion 12 else .empty

theorem badLast_cases (j : Nat) : badLast j = .empty ∨ badLast j = .completion IBV_WC_SUCCESS ∨ badLast j = .completion 12 := by
  unfold badLast
  split
  · exact .inr (.inl rfl)
  · split
    · exact .inr (.inr rfl)
    · exact .inl rfl

theorem pollWithCQ_reports_iff_bad : Reports 2 badLast := by
  refine (pollWithCQ_reports_iff 2 (by decide) badLast).mpr ⟨fun j _ ⟨code, error⟩ => ?_, fun _ _ _ => ?_⟩
  · rcases badLast_cases j with h | h | h <;> cases h.symm.trans error
  · exact ⟨3, rfl, 12, rfl, by decide⟩

/-- A bad completion in front of a good one, and an error in front of two. -/
theorem pollWithCQ_hides :
    (Returns 2 (fun j => if j = 0 then .completion 12 else .completion IBV_WC_SUCCESS) ⟨2, 2⟩ ∧
      ¬ Reports 2 fun j => if j = 0 then .completion 12 else .completion IBV_WC_SUCCESS) ∧
    Returns 1 (fun j => if j = 0 then .error 0 else .completion IBV_WC_SUCCESS) ⟨1, 3⟩ ∧
      ¬ Reports 1 fun j => if j = 0 then .error 0 else .completion IBV_WC_SUCCESS := by
  refine ⟨⟨⟨2, rfl⟩, fun reports => ?_⟩, ⟨3, rfl⟩, fun reports => ?_⟩
  · exact ((reports.success ⟨2, 2⟩ ⟨2, rfl⟩ rfl).2 0 (by decide)).2 ⟨12, rfl, by decide⟩
  · exact ((reports.success ⟨1, 3⟩ ⟨3, rfl⟩ rfl).2 0 (by decide)).1 ⟨0, rfl⟩

end Sherman.Rdma
