import Mathlib.Data.List.Perm.Basic
import Sherman.Coroutine.Machine

namespace Sherman.Coroutine

open Concurrency

namespace State

def Started (s : State) (coroCnt : Nat) (id : Nat) : Prop :=
  match s.master with
  | .start i => id < i
  | _ => id < coroCnt

/-- The verbs of a coroutine that it has not been woken up for. -/
def verbs (s : State) (id : Nat) : Nat := (s.outstanding ++ s.cq).count id

def rechecks (s : State) (id : Nat) : Nat := s.hotWaitQueue.count id

end State

inductive Ready (id : Nat) : List Effect → Nat → Nat → Prop
  | next : Ready id [] 0 0
  | unsignalled : Ready id [.post false 0] 0 0
  | message : Ready id [.message] 0 0
  | request : Ready id [.message, .pollRpc] 0 0
  | reply : Ready id [.pollRpc] 0 0
  | verb : Ready id [.post true id, .yield .verb] 0 0
  | posted : Ready id [.yield .verb] 1 0
  | lock : Ready id [.hotWaitPush id, .yield .lock] 0 0
  | pushed : Ready id [.yield .lock] 0 1

def Waits (s : State) (id : Nat) : Prop :=
  (s.place id = some .verb ∧ s.verbs id = 1 ∧ s.rechecks id = 0) ∨
    (s.place id = some .lock ∧ s.verbs id = 0 ∧ s.rechecks id = 1)

def Dormant (s : State) (id : Nat) : Prop :=
  s.place id = none ∧ s.verbs id = 0 ∧ s.rechecks id = 0

structure Worker (coroCnt : Nat) (s : State) (id : Nat) : Prop where
  runs : s.running = some id →
    s.Started coroCnt id ∧ s.place id = none ∧ Ready id (s.todo id) (s.verbs id) (s.rechecks id)
  waits : s.running ≠ some id → s.todo id = [] ∧
    (s.Started coroCnt id ∧ Waits s id ∨ ¬ s.Started coroCnt id ∧ Dormant s id)

structure Disciplined (coroCnt : Nat) (s : State) : Prop where
  start : ∀ i, s.master = .start i → i ≤ coroCnt
  worker : ∀ id, Worker coroCnt s id

theorem init_disciplined (coroCnt : Nat) : Disciplined coroCnt .init where
  start i eq := by
    cases eq
    exact Nat.zero_le _
  worker id := {
    runs running := nomatch running
    waits _ := ⟨rfl, .inr ⟨Nat.not_lt_zero id, rfl, rfl, rfl⟩⟩ }

theorem ready_effects (id : Nat) (c : Call) : Ready id (c.effects id) 0 0 := by
  cases c with
  | getRootPtr => exact .verb
  | pageSearch => exact .verb
  | acquireLocalLock => exact .lock
  | tryLockAddr => exact .verb
  | lockAndReadPage => exact .verb
  | unlockAddr async =>
      cases async with
      | true => exact .unsignalled
      | false => exact .verb
  | writePageAndUnlock handOver async =>
      cases handOver with
      | true => exact .verb
      | false =>
          cases async with
          | true => exact .unsignalled
          | false => exact .verb
  | storeAlloc needChunk =>
      cases needChunk with
      | true => exact .request
      | false => exact .next
  | storeSibling => exact .verb
  | newRootAlloc needChunk =>
      cases needChunk with
      | true => exact .request
      | false => exact .next
  | newRootWrite => exact .verb
  | newRootCas => exact .verb
  | broadcastNewRoot => exact .message

section
variable {coroCnt : Nat} {s s' : State}

theorem Worker.frame {id r : Nat} (ok : Worker coroCnt s id) (other : id ≠ r)
    (runs : s.running = some r) (running : s'.running = some r ∨ s'.running = none)
    (master : s'.master = s.master) (place : s'.place id = s.place id) (todo : s'.todo id = s.todo id)
    (verbs : s'.verbs id = s.verbs id) (rechecks : s'.rechecks id = s.rechecks id) :
    Worker coroCnt s' id := by
  have idle : s.running ≠ some id := by
    rw [runs]
    exact fun same => other (Option.some.inj same).symm
  obtain ⟨empty, status⟩ := ok.waits idle
  refine ⟨fun now => ?_, fun _ => ?_⟩
  · obtain same | none := running
    · rw [same] at now
      exact absurd (Option.some.inj now).symm other
    · rw [none] at now
      cases now
  · rw [todo, State.Started, master, Waits, Dormant, place, verbs, rechecks]
    exact ⟨empty, status⟩

theorem Disciplined.runs (ok : Disciplined coroCnt s) {id : Nat} (running : s.running = some id) :
    s.Started coroCnt id ∧ s.place id = none ∧ Ready id (s.todo id) (s.verbs id) (s.rechecks id) :=
  (ok.worker id).runs running

theorem Disciplined.call (ok : Disciplined coroCnt s) {id : Nat} (running : s.running = some id)
    (empty : s.todo id = []) (c : Call) :
    Disciplined coroCnt { s with todo := Function.update s.todo id (c.effects id) } where
  start := ok.start
  worker i := by
    obtain ⟨started, place, ready⟩ := ok.runs running
    rw [empty] at ready
    by_cases same : i = id
    · subst same
      refine ⟨fun _ => ⟨started, place, ?_⟩, fun idle => absurd running idle⟩
      simp only [Function.update_self]
      change Ready i _ (s.verbs i) (s.rechecks i)
      generalize s.verbs i = v at *
      generalize s.rechecks i = h at *
      cases ready
      exact ready_effects i c
    · exact (ok.worker i).frame same running (.inl running) rfl rfl (Function.update_of_ne same _ _)
        rfl rfl

theorem Disciplined.goOn (ok : Disciplined coroCnt s) {id : Nat} (running : s.running = some id)
    (master : s'.master = s.master) (still : s'.running = some id) (place : s'.place = s.place)
    (ready : Ready id (s'.todo id) (s'.verbs id) (s'.rechecks id))
    (others : ∀ i, i ≠ id →
      s'.todo i = s.todo i ∧ s'.verbs i = s.verbs i ∧ s'.rechecks i = s.rechecks i) :
    Disciplined coroCnt s' where
  start := by
    rw [master]
    exact ok.start
  worker i := by
    by_cases same : i = id
    · subst same
      obtain ⟨started, none, -⟩ := ok.runs running
      refine ⟨fun _ => ⟨?_, ?_, ready⟩, fun idle => absurd still idle⟩
      · rw [State.Started, master]
        exact started
      · rw [place]
        exact none
    · obtain ⟨todo, verbs, rechecks⟩ := others i same
      exact (ok.worker i).frame same running (.inl still) master (by rw [place]) todo verbs rechecks

theorem Disciplined.yield (ok : Disciplined coroCnt s) {id : Nat} (running : s.running = some id)
    {place : Place} (todo : s.todo id = [.yield place]) :
    Disciplined coroCnt { s with
      todo := Function.update s.todo id []
      running := none
      place := Function.update s.place id (some place) } where
  start := ok.start
  worker i := by
    obtain ⟨started, -, ready⟩ := ok.runs running
    by_cases same : i = id
    · subst same
      refine ⟨fun now => (nomatch now), fun _ => ⟨Function.update_self .., .inl ⟨started, ?_⟩⟩⟩
      rw [todo] at ready
      simp only [Waits, Function.update_self]
      change (_ ∧ s.verbs i = _ ∧ s.rechecks i = _) ∨ (_ ∧ s.verbs i = _ ∧ s.rechecks i = _)
      generalize s.verbs i = v at *
      generalize s.rechecks i = h at *
      cases ready with
      | posted => exact .inl ⟨rfl, rfl, rfl⟩
      | pushed => exact .inr ⟨rfl, rfl, rfl⟩
    · exact (ok.worker i).frame same running (.inr rfl) rfl (Function.update_of_ne same _ _)
        (Function.update_of_ne same _ _) rfl rfl

theorem Disciplined.work (ok : Disciplined coroCnt s) {id : Nat} (running : s.running = some id)
    {e : Effect} {rest : List Effect} (todo : s.todo id = e :: rest)
    (step : State.perform { s with todo := Function.update s.todo id rest } id e = some s') :
    Disciplined coroCnt s' := by
  obtain ⟨-, -, ready⟩ := ok.runs running
  rw [todo] at ready
  generalize verbs : s.verbs id = v at ready
  generalize rechecks : s.rechecks id = h at ready
  have counts : ∀ i, i ≠ id → ([id] : List Nat).count i = 0 := fun i other =>
    List.count_eq_zero.mpr fun member => other (List.mem_singleton.mp member)
  cases ready with
  | unsignalled =>
      cases step
      refine ok.goOn running rfl running rfl ?_ fun i other => ⟨Function.update_of_ne other _ _, rfl, rfl⟩
      change Ready id (Function.update s.todo id [] id) (s.verbs id) (s.rechecks id)
      rw [Function.update_self, verbs, rechecks]
      exact .next
  | message =>
      cases step
      refine ok.goOn running rfl running rfl ?_ fun i other => ⟨Function.update_of_ne other _ _, rfl, rfl⟩
      change Ready id (Function.update s.todo id [] id) (s.verbs id) (s.rechecks id)
      rw [Function.update_self, verbs, rechecks]
      exact .next
  | request =>
      cases step
      refine ok.goOn running rfl running rfl ?_ fun i other => ⟨Function.update_of_ne other _ _, rfl, rfl⟩
      change Ready id (Function.update s.todo id _ id) (s.verbs id) (s.rechecks id)
      rw [Function.update_self, verbs, rechecks]
      exact .reply
  | reply =>
      cases step
      refine ok.goOn running rfl running rfl ?_ fun i other => ⟨Function.update_of_ne other _ _, rfl, rfl⟩
      change Ready id (Function.update s.todo id [] id) (s.verbs id) (s.rechecks id)
      rw [Function.update_self, verbs, rechecks]
      exact .next
  | verb =>
      cases step
      have more : ∀ i, (s.outstanding ++ [id] ++ s.cq).count i = s.verbs i + [id].count i := by
        intro i
        simp only [State.verbs, List.count_append]
        omega
      refine ok.goOn running rfl running rfl ?_ fun i other => ⟨Function.update_of_ne other _ _, ?_, rfl⟩
      · change Ready id (Function.update s.todo id _ id) ((s.outstanding ++ [id] ++ s.cq).count id)
          (s.rechecks id)
        rw [Function.update_self, more, verbs, rechecks, List.count_singleton_self]
        exact .posted
      · change (s.outstanding ++ [id] ++ s.cq).count i = _
        rw [more, counts i other, Nat.add_zero]
  | posted =>
      cases step
      exact ok.yield running todo
  | lock =>
      cases step
      refine ok.goOn running rfl running rfl ?_ fun i other => ⟨Function.update_of_ne other _ _, rfl, ?_⟩
      · change Ready id (Function.update s.todo id _ id) (s.verbs id) ((s.hotWaitQueue ++ [id]).count id)
        rw [Function.update_self, verbs, List.count_append, List.count_singleton_self]
        change Ready id _ 0 (s.rechecks id + 1)
        rw [rechecks]
        exact .pushed
      · change (s.hotWaitQueue ++ [id]).count i = s.hotWaitQueue.count i
        rw [List.count_append, counts i other, Nat.add_zero]
  | pushed =>
      cases step
      exact ok.yield running todo

theorem Disciplined.resume (ok : Disciplined coroCnt s) {id : Nat} (idle : s.running = none)
    (start : ∀ i, s'.master = .start i → i ≤ coroCnt) (running : s'.running = some id)
    (place : s'.place = Function.update s.place id none) (todo : s'.todo = s.todo)
    (started : s'.Started coroCnt id) (verbs : s'.verbs id = 0) (rechecks : s'.rechecks id = 0)
    (others : ∀ i, i ≠ id → (s'.Started coroCnt i ↔ s.Started coroCnt i) ∧
      s'.verbs i = s.verbs i ∧ s'.rechecks i = s.rechecks i) : Disciplined coroCnt s' where
  start := start
  worker i := by
    obtain ⟨empty, status⟩ := (ok.worker i).waits (by rw [idle]; exact fun h => nomatch h)
    by_cases same : i = id
    · subst same
      refine ⟨fun _ => ⟨started, ?_, ?_⟩, fun other => absurd running other⟩
      · rw [place, Function.update_self]
      · rw [todo, empty, verbs, rechecks]
        exact .next
    · obtain ⟨alike, verbs, rechecks⟩ := others i same
      refine ⟨fun now => ?_, fun _ => ?_⟩
      · rw [running] at now
        exact absurd (Option.some.inj now).symm same
      · rw [todo, alike, Waits, Dormant, place, Function.update_of_ne same, verbs, rechecks]
        exact ⟨empty, status⟩

theorem Disciplined.pass (ok : Disciplined coroCnt s) {m : Master}
    (start : ∀ i, m = .start i → i ≤ coroCnt)
    (started : ∀ id, State.Started { s with master := m } coroCnt id ↔ s.Started coroCnt id) :
    Disciplined coroCnt { s with master := m } where
  start := start
  worker id := by
    obtain ⟨runs, waits⟩ := ok.worker id
    refine ⟨fun running => ?_, fun idle => ?_⟩
    · obtain ⟨begun, rest⟩ := runs running
      exact ⟨(started id).mpr begun, rest⟩
    · obtain ⟨empty, status⟩ := waits idle
      rw [started id]
      exact ⟨empty, status⟩

theorem Disciplined.polled (ok : Disciplined coroCnt s) (idle : s.running = none) {id : Nat}
    (member : id ∈ s.cq) : s.Started coroCnt id ∧ s.place id = some .verb ∧ s.verbs id = 1 ∧
      s.rechecks id = 0 := by
  have pos : 0 < s.verbs id := List.count_pos_iff.mpr (List.mem_append_right _ member)
  obtain ⟨-, ⟨started, verb | ⟨-, none, -⟩⟩ | ⟨-, -, none, -⟩⟩ :=
    (ok.worker id).waits (by rw [idle]; exact fun h => nomatch h)
  · exact ⟨started, verb⟩
  · omega
  · omega

theorem Disciplined.hot (ok : Disciplined coroCnt s) (idle : s.running = none) {id : Nat}
    (member : id ∈ s.hotWaitQueue) : s.Started coroCnt id ∧ s.place id = some .lock ∧
      s.verbs id = 0 ∧ s.rechecks id = 1 := by
  have pos : 0 < s.rechecks id := List.count_pos_iff.mpr member
  obtain ⟨-, ⟨started, ⟨-, -, none⟩ | lock⟩ | ⟨-, -, -, none⟩⟩ :=
    (ok.worker id).waits (by rw [idle]; exact fun h => nomatch h)
  · omega
  · exact ⟨started, lock⟩
  · omega

theorem started_of_master {id : Nat} (past : ∀ i, s.master ≠ .start i) :
    s.Started coroCnt id ↔ id < coroCnt := by
  rw [State.Started]
  split
  · rename_i i eq
    exact absurd eq (past i)
  · rfl

theorem Disciplined.master (ok : Disciplined coroCnt s) (idle : s.running = none) :
    ∃ s', (machine coroCnt).step s .master = some s' ∧ Disciplined coroCnt s' ∧
      ∀ e ∈ event s .master, e.place = some e.reason := by
  cases at_ : s.master with
  | start i =>
      have le := ok.start i at_
      have before : ∀ id, s.Started coroCnt id ↔ id < i := fun id => by rw [State.Started, at_]
      by_cases more : i < coroCnt
      · have fresh : ¬ s.Started coroCnt i := by
          rw [before]
          omega
        obtain ⟨-, ⟨begun, -⟩ | ⟨-, -, verbs, rechecks⟩⟩ :=
          (ok.worker i).waits (by rw [idle]; exact fun h => nomatch h)
        · exact absurd begun fresh
        · refine ⟨State.resume { s with master := .start (i + 1) } i, ?_, ?_, ?_⟩
          · simp only [machine, Coroutine.step, idle, at_, if_pos more]
          · refine ok.resume idle (fun j eq => ?_) rfl rfl rfl (Nat.lt_succ_self i) verbs rechecks
              fun j other => ⟨?_, rfl, rfl⟩
            · cases eq
              exact more
            · rw [before]
              change j < i + 1 ↔ j < i
              omega
          · simp [event, idle, at_]
      · refine ⟨{ s with master := .poll }, ?_, ok.pass (fun j eq => nomatch eq) (fun id => ?_), ?_⟩
        · simp only [machine, Coroutine.step, idle, at_, if_neg more]
        · rw [before]
          change id < coroCnt ↔ id < i
          omega
        · simp [event, idle, at_]
  | poll =>
      have begun : ∀ id, s.Started coroCnt id ↔ id < coroCnt := fun id =>
        started_of_master fun i eq => by rw [at_] at eq; cases eq
      cases cq : s.cq with
      | nil =>
          refine ⟨{ s with master := .hotWait }, ?_, ok.pass (fun j eq => nomatch eq) (fun id => ?_), ?_⟩
          · simp only [machine, Coroutine.step, idle, at_, cq]
          · rw [begun]
            rfl
          · simp [event, idle, at_, cq]
      | cons id rest =>
          obtain ⟨started, place, verbs, rechecks⟩ :=
            ok.polled idle (cq ▸ List.mem_cons_self : id ∈ s.cq)
          have inside := (begun id).mp started
          have fewer : ∀ i, s.verbs i = (s.outstanding ++ rest).count i + [id].count i := by
            intro i
            rw [State.verbs, cq, List.count_append, List.count_append, ← List.singleton_append,
              List.count_append]
            omega
          refine ⟨State.resume { s with master := .hotWait, cq := rest } id, ?_, ?_, ?_⟩
          · simp only [machine, Coroutine.step, idle, at_, cq, if_pos inside]
          · refine ok.resume idle (fun j eq => nomatch eq) rfl rfl rfl inside ?_ rechecks
              fun i other => ⟨?_, ?_, rfl⟩
            · have := fewer id
              rw [verbs, List.count_singleton_self] at this
              change (s.outstanding ++ rest).count id = 0
              omega
            · rw [begun]
              rfl
            · rw [fewer, List.count_eq_zero.mpr fun member => other (List.mem_singleton.mp member)]
              rfl
          · simp [event, idle, at_, cq, place]
  | hotWait =>
      have begun : ∀ id, s.Started coroCnt id ↔ id < coroCnt := fun id =>
        started_of_master fun i eq => by rw [at_] at eq; cases eq
      cases hot : s.hotWaitQueue with
      | nil =>
          refine ⟨{ s with master := .poll }, ?_, ok.pass (fun j eq => nomatch eq) (fun id => ?_), ?_⟩
          · simp only [machine, Coroutine.step, idle, at_, hot]
          · rw [begun]
            rfl
          · simp [event, idle, at_, hot]
      | cons id rest =>
          obtain ⟨started, place, verbs, rechecks⟩ :=
            ok.hot idle (hot ▸ List.mem_cons_self : id ∈ s.hotWaitQueue)
          have inside := (begun id).mp started
          have fewer : ∀ i, s.rechecks i = rest.count i + [id].count i := by
            intro i
            rw [State.rechecks, hot, ← List.singleton_append, List.count_append]
            omega
          refine ⟨State.resume { s with master := .poll, hotWaitQueue := rest } id, ?_, ?_, ?_⟩
          · simp only [machine, Coroutine.step, idle, at_, hot, if_pos inside]
          · refine ok.resume idle (fun j eq => nomatch eq) rfl rfl rfl inside verbs ?_
              fun i other => ⟨?_, rfl, ?_⟩
            · have := fewer id
              rw [rechecks, List.count_singleton_self] at this
              change rest.count id = 0
              omega
            · rw [begun]
              rfl
            · rw [fewer, List.count_eq_zero.mpr fun member => other (List.mem_singleton.mp member)]
              rfl
          · simp [event, idle, at_, hot, place]

theorem Disciplined.complete (ok : Disciplined coroCnt s) {i : Nat} {id : Nat}
    (found : s.outstanding[i]? = some id) :
    Disciplined coroCnt { s with outstanding := s.outstanding.eraseIdx i, cq := s.cq ++ [id] } where
  start := ok.start
  worker j := by
    have same : (s.outstanding.eraseIdx i ++ (s.cq ++ [id])).count j = s.verbs j := by
      obtain ⟨inside, rfl⟩ := List.getElem?_eq_some_iff.mp found
      have perm := (List.getElem_cons_eraseIdx_perm inside).count_eq j
      rw [← List.singleton_append, List.count_append] at perm
      rw [State.verbs, List.count_append, List.count_append, List.count_append]
      omega
    obtain ⟨runs, waits⟩ := ok.worker j
    refine ⟨fun running => ?_, fun idle => ?_⟩
    · obtain ⟨started, place, ready⟩ := runs running
      refine ⟨started, place, ?_⟩
      change Ready j (s.todo j) ((s.outstanding.eraseIdx i ++ (s.cq ++ [id])).count j) (s.rechecks j)
      rw [same]
      exact ready
    · obtain ⟨empty, status⟩ := waits idle
      refine ⟨empty, ?_⟩
      change s.Started coroCnt j ∧
        (_ ∧ (s.outstanding.eraseIdx i ++ (s.cq ++ [id])).count j = 1 ∧ _ ∨
          _ ∧ (s.outstanding.eraseIdx i ++ (s.cq ++ [id])).count j = 0 ∧ _) ∨
        ¬ s.Started coroCnt j ∧ _ ∧ (s.outstanding.eraseIdx i ++ (s.cq ++ [id])).count j = 0 ∧ _
      rw [same]
      exact status

theorem Disciplined.step {a : Action} (ok : Disciplined coroCnt s)
    (step : (machine coroCnt).step s a = some s') :
    Disciplined coroCnt s' ∧ ∀ e ∈ event s a, e.place = some e.reason := by
  cases a with
  | call c =>
      simp only [machine, Coroutine.step] at step
      split at step
      · cases step
      · rename_i id running
        split at step
        · rename_i empty
          cases step
          exact ⟨ok.call running empty c, fun e member => nomatch member⟩
        · cases step
  | work =>
      simp only [machine, Coroutine.step] at step
      split at step
      · cases step
      · rename_i id running
        split at step
        · cases step
        · rename_i e rest todo
          exact ⟨ok.work running todo step, fun e member => nomatch member⟩
  | master =>
      cases running : s.running with
      | some id =>
          simp only [machine, Coroutine.step, running] at step
          cases step
      | none =>
          obtain ⟨t, eq, next, resumed⟩ := ok.master running
          rw [step] at eq
          exact Option.some.inj eq ▸ ⟨next, resumed⟩
  | complete i =>
      simp only [machine, Coroutine.step] at step
      split at step
      · cases step
      · rename_i id found
        cases step
        exact ⟨ok.complete found, fun e member => nomatch member⟩

end

/-- The wake-up discipline of the workers that have been started. -/
structure WakeUps (coroCnt : Nat) (s : State) : Prop where
  one : ∀ id, s.Started coroCnt id → s.running ≠ some id →
    (s.verbs id = 1 ∧ s.rechecks id = 0) ∨ (s.verbs id = 0 ∧ s.rechecks id = 1)
  goesOn : s.running = none → ∃ s', (machine coroCnt).step s .master = some s'

/-- In every run each worker that waits has exactly one wake-up, the master can go on whenever it has
the processor, and it resumes a worker only for what the worker waits for. -/
theorem wake_ups (coroCnt : Nat) (as : List Action) (s : State)
    (run : (machine coroCnt).run .init as = some s) : WakeUps coroCnt s ∧
      ∀ e ∈ (machine coroCnt).history event .init as, e.place = some e.reason := by
  have step : ∀ s (h : List Resumed) a s',
      (Disciplined coroCnt s ∧ ∀ e ∈ h, e.place = some e.reason) → True →
      (machine coroCnt).step s a = some s' →
      Disciplined coroCnt s' ∧ ∀ e ∈ h ++ event s a, e.place = some e.reason := by
    rintro s h a s' ⟨ok, before⟩ - step
    obtain ⟨next, now⟩ := ok.step step
    refine ⟨next, fun e member => ?_⟩
    rcases List.mem_append.mp member with old | new
    · exact before e old
    · exact now e new
  obtain ⟨ok, resumed⟩ := Machine.run_history (h := []) step
    ⟨init_disciplined coroCnt, fun e member => nomatch member⟩
    (Machine.throughout_of_forall fun _ _ => trivial) run
  refine ⟨⟨fun id started idle => ?_, fun idle => ?_⟩, resumed⟩
  · obtain ⟨-, ⟨-, ⟨-, one⟩ | ⟨-, one⟩⟩ | ⟨fresh, -⟩⟩ := (ok.worker id).waits idle
    · exact .inl one
    · exact .inr one
    · exact absurd started fresh
  · obtain ⟨s', step, -⟩ := ok.master idle
    exact ⟨s', step⟩

/-- One worker that reads the root pointer, waits for its local lock once, and is woken up twice. -/
def oneWorker : List Action :=
  [.master, .call .getRootPtr, .work, .work, .master, .complete 0, .master, .call .acquireLocalLock,
    .work, .work, .master]

theorem wake_ups_oneWorker : ∃ s, (machine 1).run .init oneWorker = some s ∧ WakeUps 1 s ∧
    (machine 1).history event .init oneWorker = [⟨0, .verb, some .verb⟩, ⟨0, .lock, some .lock⟩] :=
  ⟨_, rfl, (wake_ups 1 oneWorker _ rfl).1, rfl⟩

end Sherman.Coroutine
