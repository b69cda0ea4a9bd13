import Sherman.Tree.LockDiscipline
import Sherman.Tree.Isolation
import Sherman.Tree.Termination

namespace Sherman

open Concurrency

/-! ## Who has a lock -/

structure LockWords (lock : GlobalAddress → Option (Client × Bool)) (pending : List Posted) (hs : Client → Hold) :
    Prop where
  under : ∀ t la, (hs t).phase.lock = some la → lock la = some (t, decide ((hs t).phase = .handing la))
  taken : ∀ c la b, lock la = some (c, b) → (hs c).phase.lock = some la ∨ ⟨c, .unlock la⟩ ∈ pending
  released : ∀ c la, ⟨c, .unlock la⟩ ∈ pending → lock la = some (c, false) ∧ (hs c).phase.lock ≠ some la

def setHold (hs : Client → Hold) (t : Client) (h : Hold) : Client → Hold := fun u => if u = t then h else hs u

theorem setHold_same {hs : Client → Hold} {t : Client} {h : Hold} : setHold hs t h t = h := if_pos rfl

theorem setHold_other {hs : Client → Hold} {t u : Client} {h : Hold} (other : u ≠ t) : setHold hs t h u = hs u :=
  if_neg other

namespace LockWords
variable {cfg : Config} {lock : GlobalAddress → Option (Client × Bool)} {pending : List Posted} {hs : Client → Hold}
  {t : Client} {h : Hold} {la : GlobalAddress}

theorem unique (words : LockWords lock pending hs) {u : Client} (mine : (hs t).phase.lock = some la)
    (other : (hs u).phase.lock = some la) : u = t := by
  have first := words.under t la mine
  rw [words.under u la other] at first
  exact congrArg Prod.fst (Option.some.inj first)

theorem not_posted (words : LockWords lock pending hs) (mine : (hs t).phase.lock = some la) (c : Client) :
    ⟨c, .unlock la⟩ ∉ pending := by
  intro posted
  obtain ⟨word, busy⟩ := words.released c la posted
  rw [words.under t la mine] at word
  cases congrArg Prod.fst (Option.some.inj word)
  exact busy mine

theorem goOn (words : LockWords lock pending hs) (phase : h.phase.lock = (hs t).phase.lock)
    (handing : ∀ la, h.phase = .handing la ↔ (hs t).phase = .handing la) :
    LockWords lock pending (setHold hs t h) := by
  have same : ∀ u, (setHold hs t h u).phase.lock = (hs u).phase.lock ∧
      ∀ la, (setHold hs t h u).phase = .handing la ↔ (hs u).phase = .handing la := by
    intro u
    by_cases here : u = t
    · rw [here, setHold_same]
      exact ⟨phase, handing⟩
    · rw [setHold_other here]
      exact ⟨rfl, fun _ => Iff.rfl⟩
  constructor
  · intro u la
    rw [(same u).1, decide_eq_decide.mpr ((same u).2 la)]
    exact words.under u la
  · intro c la b
    rw [(same c).1]
    exact words.taken c la b
  · intro c la
    rw [(same c).1]
    exact words.released c la

theorem relock (words : LockWords lock pending hs) (others : ∀ u, u ≠ t → (hs u).phase.lock ≠ some la)
    (posted : ∀ c, ⟨c, .unlock la⟩ ∉ pending) (before : ∀ lb, lb ≠ la → (hs t).phase.lock ≠ some lb)
    (after : ∀ lb, lb ≠ la → h.phase.lock ≠ some lb) {word : Option (Client × Bool)}
    (new : word = if h.phase.lock = some la then some (t, decide (h.phase = .handing la)) else none) :
    LockWords (Function.update lock la word) pending (setHold hs t h) := by
  constructor
  · intro u lb under
    by_cases here : lb = la
    · subst here
      by_cases mine : u = t
      · subst mine
        rw [setHold_same] at under ⊢
        rw [Function.update_self, new, if_pos under]
      · rw [setHold_other mine] at under
        exact absurd under (others u mine)
    · rw [Function.update_of_ne here]
      by_cases mine : u = t
      · subst mine
        rw [setHold_same] at under
        exact absurd under (after lb here)
      · rw [setHold_other mine] at under ⊢
        exact words.under u lb under
  · intro c lb b taken
    by_cases here : lb = la
    · subst here
      rw [Function.update_self, new] at taken
      split at taken
      · rename_i mine
        cases taken
        rw [setHold_same]
        exact .inl mine
      · cases taken
    · rw [Function.update_of_ne here] at taken
      by_cases mine : c = t
      · subst mine
        exact .inr ((words.taken c lb b taken).resolve_left (before lb here))
      · rw [setHold_other mine]
        exact words.taken c lb b taken
  · intro c lb member
    have here : lb ≠ la := by
      rintro rfl
      exact posted c member
    obtain ⟨word, busy⟩ := words.released c lb member
    refine ⟨(Function.update_of_ne here _ _).trans word, ?_⟩
    by_cases mine : c = t
    · subst mine
      rw [setHold_same]
      exact after lb here
    · rw [setHold_other mine]
      exact busy

theorem tryLock (words : LockWords lock pending hs) (free : (hs t).phase = .free) (unlocked : lock la = none)
    (held : h.phase = .held la) :
    LockWords (Function.update lock la (some (t, false))) pending (setHold hs t h) := by
  apply words.relock
  · intro u _ under
    rw [words.under u la under] at unlocked
    cases unlocked
  · intro c posted
    rw [(words.released c la posted).1] at unlocked
    cases unlocked
  · simp [free, Phase.lock]
  · intro lb other
    simpa [held, Phase.lock] using other.symm
  · simp [held, Phase.lock]

theorem canHandOver (words : LockWords lock pending hs) {waiter : Bool} (held : (hs t).phase = .held la)
    (phase : h.phase = if waiter then .handing la else .releasing la) :
    LockWords (Function.update lock la ((lock la).map fun o => (o.1, waiter))) pending (setHold hs t h) := by
  have mine : (hs t).phase.lock = some la := by rw [held]; rfl
  apply words.relock
  · exact fun u other under => other (words.unique mine under)
  · exact words.not_posted mine
  · intro lb other
    simpa [held, Phase.lock] using other.symm
  · intro lb other
    rw [phase]
    cases waiter <;> simpa [Phase.lock] using other.symm
  · rw [words.under t la mine, phase]
    cases waiter <;> simp [Phase.lock]

theorem releaseLocalLock (words : LockWords lock pending hs)
    (phase : (hs t).phase = .handing la ∨ (hs t).phase = .zeroed la) (free : h.phase = .free) :
    LockWords (if lock la = some (t, true) then Function.update lock la none else lock) pending (setHold hs t h) := by
  rcases phase with handing | zeroed
  · have mine : (hs t).phase.lock = some la := by rw [handing]; rfl
    have word := words.under t la mine
    rw [handing, decide_eq_true rfl] at word
    rw [if_pos word]
    apply words.relock
    · exact fun u other under => other (words.unique mine under)
    · exact words.not_posted mine
    · intro lb other
      simpa [handing, Phase.lock] using other.symm
    · simp [free, Phase.lock]
    · simp [free, Phase.lock]
  · rw [if_neg]
    · exact words.goOn (by rw [free, zeroed]; rfl) fun lb => by simp [free, zeroed]
    · -- the release is posted, and not yet executed
      intro word
      rcases words.taken t la true word with under | posted
      · rw [zeroed] at under
        cases under
      · rw [(words.released t la posted).1] at word
        cases word

theorem write (words : LockWords lock pending hs) {w : Write} (step : (hs t).write cfg w = some h) :
    LockWords lock (pending ++ [⟨t, w⟩]) (setHold hs t h) := by
  by_cases unlock : ∃ la, w = .unlock la
  · obtain ⟨la, rfl⟩ := unlock
    simp only [Hold.write] at step
    split at step
    · rename_i releasing
      cases step
      have mine : (hs t).phase.lock = some la := by rw [releasing]; rfl
      have word := words.under t la mine
      constructor
      · intro u lb under
        by_cases same : u = t
        · subst same
          rw [setHold_same] at under
          cases under
        · rw [setHold_other same] at under ⊢
          exact words.under u lb under
      · intro c lb b taken
        rcases words.taken c lb b taken with under | posted
        · by_cases same : c = t
          · subst same
            rw [mine] at under
            cases under
            exact .inr (List.mem_append_right _ (List.mem_singleton_self _))
          · rw [setHold_other same]
            exact .inl under
        · exact .inr (List.mem_append_left _ posted)
      · intro c lb member
        rcases List.mem_append.mp member with old | new
        · obtain ⟨lock, busy⟩ := words.released c lb old
          refine ⟨lock, ?_⟩
          by_cases same : c = t
          · rw [same, setHold_same]
            simp [Phase.lock]
          · rw [setHold_other same]
            exact busy
        · cases List.mem_singleton.mp new
          rw [setHold_same, word, releasing]
          simp [Phase.lock]
    · cases step
  · have phase : h.phase = (hs t).phase := by
      cases w with
      | unlock la => exact absurd ⟨la, rfl⟩ unlock
      | page a p =>
          simp only [Hold.write] at step
          split_ifs at step <;> cases step <;> rfl
      | entry a i r =>
          simp only [Hold.write] at step
          split_ifs at step <;> cases step <;> rfl
    have posted := words.goOn (h := h) (congrArg Phase.lock phase) fun lb => by rw [phase]
    refine ⟨posted.under, fun c lb b taken => ?_, fun c lb member => posted.released c lb ?_⟩
    · exact (posted.taken c lb b taken).imp id (List.mem_append_left _)
    · refine (List.mem_append.mp member).resolve_right fun new => unlock ⟨lb, ?_⟩
      exact (congrArg Posted.write (List.mem_singleton.mp new)).symm

theorem writes (words : LockWords lock pending hs) {ws : List Write} (step : (hs t).writes cfg ws = some h) :
    LockWords lock (pending ++ ws.map (⟨t, ·⟩)) (setHold hs t h) := by
  induction ws generalizing pending hs with
  | nil =>
      cases step
      simpa using words.goOn (t := t) rfl fun _ => Iff.rfl
  | cons w ws ih =>
      obtain ⟨h₁, first, rest⟩ := Option.bind_eq_some_iff.mp step
      have next := ih (words.write first) (by rw [setHold_same]; exact rest)
      have same : setHold (setHold hs t h₁) t h = setHold hs t h := by
        funext u
        by_cases here : u = t
        · rw [here, setHold_same, setHold_same]
        · rw [setHold_other here, setHold_other here, setHold_other here]
      rw [same, List.append_assoc] at next
      exact next

end LockWords

/-! ## Every step keeps the lock words -/

section
variable {cfg : Config} {t : Client} {hs hs' : Client → Hold} {h : Hold}

theorem LockWords.perform {s s' : Shared} (words : LockWords s.lock s.pending hs) {v : Verb} {choice : Choice} {r : Resp v}
    (next : (lockMonitor cfg).next (hs t) v r = some h) (step : perform cfg t v choice s = some (r, s')) :
    LockWords s'.lock s'.pending (setHold hs t h) := by
  have same (lock : s'.lock = s.lock) (pending : s'.pending = s.pending) (phase : h.phase = (hs t).phase) :
      LockWords s'.lock s'.pending (setHold hs t h) := by
    rw [lock, pending]
    exact words.goOn (congrArg Phase.lock phase) fun la => by rw [phase]
  cases v with
  | tryLock la =>
      simp only [lockMonitor] at next
      simp only [Sherman.perform] at step
      split at next
      · rename_i free
        cases next
        split at step
        · rename_i unlocked
          cases step
          exact words.tryLock free unlocked rfl
        · cases step
      · cases next
  | canHandOver la =>
      simp only [lockMonitor] at next
      split at next
      · rename_i held
        cases next
        cases choice with
        | waiter b =>
            cases step
            exact words.canHandOver held rfl
        | none => cases step
        | fresh a => cases step
      · cases next
  | releaseLocalLock la =>
      simp only [lockMonitor] at next
      simp only [Sherman.perform] at step
      split at next
      · rename_i phase
        cases next
        have release := words.releaseLocalLock (h := { hs t with phase := .free }) phase rfl
        split at step
        · rename_i word
          cases step
          rwa [if_pos word] at release
        · rename_i word
          cases step
          rwa [if_neg word] at release
      · cases next
  | post ws =>
      cases step
      exact words.writes next
  | alloc =>
      cases next
      cases choice with
      | fresh a =>
          simp only [Sherman.perform] at step
          split at step
          · cases step
            exact same rfl rfl rfl
          · cases step
      | none => cases step
      | waiter b => cases step
  | _ =>
      cases next
      simp only [Sherman.perform] at step
      try split_ifs at step
      all_goals
        cases step
        exact same rfl rfl rfl

theorem Shared.Executed.kept {s s' : Shared} {x z : Posted} (executed : s.Executed x s') (member : z ∈ s.pending)
    (other : z ≠ x) : z ∈ s'.pending := by
  obtain ⟨before, after, all, rest, -⟩ := executed.split
  rw [all, List.mem_append, List.mem_cons] at member
  rw [rest, List.mem_append]
  rcases member with earlier | same | later
  · exact .inl earlier
  · exact absurd same other
  · exact .inr later

theorem LockWords.executed {s s' : Shared} {g : Ghost} (words : LockWords s.lock s.pending hs) (inv : LockInv cfg s g)
    {x : Posted} (executed : s.Executed x s') : LockWords s'.lock s'.pending hs := by
  constructor
  · intro t la under
    rw [executed.lock, if_neg]
    · exact words.under t la under
    · exact fun unlock => words.not_posted under x.client (unlock ▸ executed.mem_pending)
  · intro c la b taken
    rw [executed.lock] at taken
    split at taken
    · cases taken
    · rename_i other
      refine (words.taken c la b taken).imp id fun posted => executed.kept posted ?_
      rintro rfl
      exact other rfl
  · intro c la posted
    rw [executed.lock, if_neg]
    · exact words.released c la (executed.pending_sub _ posted)
    · -- the release is posted once
      intro unlock
      have pairs := inv.unlock_once
      obtain ⟨before, after, all, rest, -⟩ := executed.split
      rw [all, List.pairwise_append, List.pairwise_cons] at pairs
      rw [rest] at posted
      rcases List.mem_append.mp posted with earlier | later
      · exact pairs.2.2 _ earlier x List.mem_cons_self la rfl unlock
      · exact pairs.2.1.1 _ later la unlock rfl

theorem LockWords.step {s s' : State} {g : Ghost} (words : LockWords s.shared.lock s.shared.pending hs)
    (inv : LockInv cfg s.shared g) {a : Action Client Op Choice Env}
    (watched : (lockMonitor cfg).watch (system cfg) s hs a = some hs') (step : (system cfg).step s a = some s') :
    LockWords s'.shared.lock s'.shared.pending hs' := by
  cases a with
  | invoke t op =>
      cases watched
      simp only [System.step] at step
      split at step
      · cases step
        exact words
      · cases step
  | respond t =>
      cases watched
      simp only [System.step] at step
      split at step
      · cases step
        exact words
      · cases step
  | interfere e =>
      cases watched
      simp only [System.step] at step
      split at step
      · cases step
      · rename_i σ interfered
        cases step
        cases e with
        | execute i =>
            obtain ⟨x, executed⟩ := Shared.executed_of_interfere interfered
            exact words.executed inv executed
        | deliver n i =>
            change interfere (.deliver n i) s.shared = some σ at interfered
            simp only [interfere] at interfered
            split at interfered
            · cases interfered
            · cases interfered
              exact words
        | evict n e =>
            cases interfered
            exact words
  | advance t choice =>
      simp only [System.step] at step
      simp only [Monitor.watch] at watched
      split at step
      · cases step
      · rename_i op rest thread
        simp only [thread] at watched
        cases rest with
        | ret r => cases step
        | fault e => cases step
        | call p next =>
            cases step
            cases watched
            exact words
        | verb v next =>
            simp only [System.advance] at step
            split at step
            · cases step
            · rename_i r σ performed
              cases step
              simp only [performed, Option.map_eq_some_iff] at watched
              obtain ⟨h, next, rfl⟩ := watched
              exact words.perform next performed

theorem Reachable.lockWords {s : State} (reachable : Reachable cfg s) :
    ∃ hs, (lockMonitor cfg).Fits s hs ∧ LockWords s.shared.lock s.shared.pending hs := by
  obtain ⟨root, as, nonnull, keys, run⟩ := reachable
  have start : Reachable cfg (State.init root) := ⟨root, [], nonnull, by simp [KeysBelow], rfl⟩
  have init : LockWords (State.init root).shared.lock (State.init root).shared.pending fun _ => .none := by
    constructor <;> simp [State.init, Shared.init, Hold.none, Phase.lock]
  have fits := init_fits cfg root
  generalize State.init root = s₀ at start init fits run
  generalize (fun _ => Hold.none : Client → Hold) = hs at init fits
  induction as generalizing s₀ hs with
  | nil =>
      cases run
      exact ⟨hs, fits, init⟩
  | cons a as ih =>
      obtain ⟨m, step, rest⟩ := (system cfg).run_cons.mp run
      obtain ⟨hs', watched, fits'⟩ := Monitor.fits_step (lockMonitor_followed cfg) fits step
      obtain ⟨g, good⟩ := start.good
      have next : Reachable cfg m := start.step (fun t op same => keys t op (by simp [same])) step
      exact ih (fun t op member => keys t op (List.mem_cons_of_mem a member)) m next rest hs'
        (init.step good.1.lock watched step) fits'

end

/-! ## No deadlock -/

def IsMove : Action Client Op Choice Env → Prop
  | .advance _ _ | .respond _ | .interfere (.execute _) => True
  | _ => False

def Quiet (s : State) : Prop := (∀ t, s.threads t = .idle) ∧ s.shared.pending = []

/-- A client has stopped: its tree is higher than `path_stack`, or its split found no parent. -/
def Stopped (s : State) : Prop :=
  ∃ t op error, s.threads t = .running op (.fault error) ∧ (error = .pathStackOverflow ∨
    error = .assertion .leafPageStore .notFromCache ∨ error = .assertion .internalPageStore .parent)

def Going (s : State) : Prop := ∀ t op error, s.threads t ≠ .running op (.fault error)

section
variable {cfg : Config} {t : Client} {s : State} {hs : Client → Hold}

theorem exists_fresh (allocated : List GlobalAddress) : ∃ a : GlobalAddress, a ≠ .null ∧ a ∉ allocated := by
  have bounded : ∃ bound, ∀ a ∈ allocated, a.offset ≤ bound := by
    induction allocated with
    | nil => exact ⟨0, by simp⟩
    | cons b rest ih =>
        obtain ⟨bound, below⟩ := ih
        refine ⟨max b.offset bound, List.forall_mem_cons.mpr ⟨le_max_left _ _, fun a member => ?_⟩⟩
        exact (below a member).trans (le_max_right _ _)
  obtain ⟨bound, below⟩ := bounded
  refine ⟨⟨0, bound + 1⟩, fun null => ?_, fun member => ?_⟩
  · cases congrArg GlobalAddress.offset null
  · exact absurd (below _ member) (Nat.not_succ_le_self bound)

theorem perform_of_unlocked {s : Shared} (executed : s.pending = []) (v : Verb)
    (unlocked : ∀ la, v = .tryLock la → s.lock la = none) :
    ∃ choice r s', perform cfg t v choice s = some (r, s') := by
  have drained : ∀ n, s.drained t n := by
    intro n x member
    rw [executed] at member
    cases member
  cases v with
  | tryLock la => exact ⟨.none, (), _, if_pos (unlocked la rfl)⟩
  | alloc =>
      obtain ⟨a, fresh⟩ := exists_fresh s.allocated
      exact ⟨.fresh a, a, _, if_pos fresh⟩
  | canHandOver la => exact ⟨.waiter false, false, _, rfl⟩
  | readRoot => exact ⟨.none, _, _, if_pos (drained 0)⟩
  | readPage a => exact ⟨.none, _, _, if_pos (drained a.nodeID)⟩
  | poll n => exact ⟨.none, (), _, if_pos (drained n)⟩
  | casRoot old new =>
      refine ⟨.none, decide (s.rootPtr = old), if s.rootPtr = old then { s with rootPtr := new } else s, ?_⟩
      simp only [perform]
      rw [if_pos (drained 0)]
      split <;> rename_i h <;> simp [h]
  | releaseLocalLock la =>
      refine ⟨.none, (), if s.lock la = some (t, true) then { s with lock := Function.update s.lock la none } else s, ?_⟩
      simp only [perform]
      split <;> rfl
  | _ => exact ⟨.none, _, _, rfl⟩

theorem advance_of_perform {op : Op} {v : Verb} {next : Resp v → Code Result}
    (thread : s.threads t = .running op (.verb v next))
    (enabled : ∃ choice r s', perform cfg t v choice s.shared = some (r, s')) :
    ∃ a s', IsMove a ∧ (system cfg).step s a = some s' := by
  obtain ⟨choice, r, σ, performed⟩ := enabled
  refine ⟨.advance t choice, State.setThread { s with shared := σ } t (.running op (next r)), trivial, ?_⟩
  simp only [System.step, thread, System.advance]
  rw [show (system cfg).perform t v choice s.shared = some (r, σ) from performed]

theorem Reachable.going (reachable : Reachable cfg s) (unstopped : ¬ Stopped s) : Going s := by
  intro t op error thread
  obtain ⟨g, good⟩ := reachable.good
  refine unstopped ⟨t, op, error, thread, ?_⟩
  exact (good.fault thread).imp id fun excluded => excluded.elim And.right fun low => absurd trivial low.1

/-- The release of a lock that is taken is posted, or its owner is at a verb that does not wait for a lock, and goes
on once all writes are executed. Only a client that has stopped may keep one. -/
def Owned (cfg : Config) (s : State) : Prop :=
  ∀ la c b, s.shared.lock la = some (c, b) → ⟨c, .unlock la⟩ ∈ s.shared.pending ∨ Stopped s ∨
    ∃ op v next, s.threads c = .running op (.verb v next) ∧ (∀ lb, v ≠ .tryLock lb) ∧
      (s.shared.pending = [] → ∃ choice r σ, perform cfg c v choice s.shared = some (r, σ))

theorem Reachable.owned (reachable : Reachable cfg s) : Owned cfg s := by
  intro la c b word
  by_cases stopped : Stopped s
  · exact .inr (.inl stopped)
  · obtain ⟨hs, fits, words⟩ := reachable.lockWords
    refine (words.taken c la b word).symm.imp id fun under => .inr ?_
    have busy : (hs c).phase ≠ .free := by
      intro free
      rw [free] at under
      cases under
    have own := fits c
    cases thread : s.threads c with
    | idle =>
        rw [thread] at own
        exact absurd own busy
    | running op rest =>
        rw [thread] at own
        cases rest with
        | ret r => exact absurd own busy
        | fault error => exact absurd thread (reachable.going stopped c op error)
        | call p next => exact absurd own.1 busy
        | verb v next =>
            have waits : ∀ lb, v ≠ .tryLock lb := by
              rintro lb rfl
              exact busy (free_of_waiting fits thread)
            exact ⟨op, v, next, rfl, waits, fun executed =>
              perform_of_unlocked executed v fun lb locks => absurd locks (waits lb)⟩

theorem can_move (reachable : Reachable cfg s) (unstopped : ¬ Stopped s) (unfinished : ¬ Quiet s) :
    ∃ a s', IsMove a ∧ (system cfg).step s a = some s' := by
  have going := reachable.going unstopped
  cases executed : s.shared.pending with
  | cons x rest =>
      have first : ∃ σ, interfere (.execute 0) s.shared = some σ := by
        simp [interfere, executed]
      obtain ⟨σ, first⟩ := first
      refine ⟨.interfere (.execute 0), { s with shared := σ }, trivial, ?_⟩
      simp only [System.step]
      rw [show (system cfg).interfere (.execute 0) s.shared = some σ from first]
  | nil =>
      obtain ⟨t, busy⟩ : ∃ t, s.threads t ≠ .idle := by
        by_contra idle
        exact unfinished ⟨fun t => not_not.mp fun busy => idle ⟨t, busy⟩, executed⟩
      cases thread : s.threads t with
      | idle => exact absurd thread busy
      | running op rest =>
          cases rest with
          | ret r =>
              refine ⟨.respond t, s.setThread t .idle, trivial, ?_⟩
              simp only [System.step, thread]
          | fault error => exact absurd thread (going t op error)
          | call p next =>
              refine ⟨.advance t .none, s.setThread t (.running op ((body cfg p).bind next)), trivial, ?_⟩
              simp only [System.step, thread, System.advance]
              rfl
          | verb v next =>
              by_cases waits : ∃ la c b, v = .tryLock la ∧ s.shared.lock la = some (c, b)
              · obtain ⟨la, c, b, -, word⟩ := waits
                obtain posted | stopped | ⟨op', v', next', own, -, goes⟩ := reachable.owned la c b word
                · simp [executed] at posted
                · exact absurd stopped unstopped
                · exact advance_of_perform own (goes executed)
              · refine advance_of_perform thread (perform_of_unlocked executed v fun la locks => ?_)
                rw [Option.eq_none_iff_forall_ne_some]
                rintro ⟨c, b⟩ word
                exact waits ⟨la, c, b, locks, word⟩

end

/-! ## No livelock -/

def MoveTo (cfg : Config) (s s' : State) : Prop := ∃ a, IsMove a ∧ (system cfg).step s a = some s'

section
variable {cfg : Config} {s s' : State}

theorem IsMove.given {a : Action Client Op Choice Env} (move : IsMove a) (t : Client) (op : Op) : a ≠ .invoke t op := by
  rintro rfl
  exact move

theorem IsMove.keyBelow {a : Action Client Op Choice Env} (move : IsMove a) : KeyBelow a :=
  fun t op same => absurd same (move.given t op)

theorem Reachable.moveTo (reachable : Reachable cfg s) (move : MoveTo cfg s s') : Reachable cfg s' := by
  obtain ⟨a, move, step⟩ := move
  exact reachable.step move.keyBelow step

theorem invoked_of_run {t : Client} {as : List (Action Client Op Choice Env)} (run : (system cfg).run s as = some s')
    (idle : s.threads t = .idle) (absent : ∀ a ∈ as, ∀ op, a ≠ .invoke t op) : s'.threads t = .idle := by
  induction as generalizing s with
  | nil =>
      cases run
      exact idle
  | cons a as ih =>
      obtain ⟨m, step, rest⟩ := (system cfg).run_cons.mp run
      refine ih rest ?_ fun b later => absent b (List.mem_cons_of_mem a later)
      rw [(system cfg).step_other step (System.idle_step step idle (absent a List.mem_cons_self))]
      exact idle

theorem Reachable.busy_finite (reachable : Reachable cfg s) : ∃ ts : List Client, ∀ t ∉ ts, s.threads t = .idle := by
  obtain ⟨root, as, -, -, run⟩ := reachable
  refine ⟨as.filterMap Action.thread?, fun t absent => invoked_of_run run rfl fun a member op given => absent ?_⟩
  exact List.mem_filterMap.mpr ⟨a, member, by rw [given]; rfl⟩

theorem IsMove.executes {a : Action Client Op Choice Env} (move : IsMove a) (nobody : ∀ t, a.thread? ≠ some t)
    (step : (system cfg).step s a = some s') : s.shared.pending.length = s'.shared.pending.length + 1 := by
  cases a with
  | invoke t op => exact move.elim
  | advance t choice => exact absurd rfl (nobody t)
  | respond t => exact absurd rfl (nobody t)
  | interfere e =>
      cases e with
      | execute i =>
          simp only [System.step] at step
          split at step
          · cases step
          · rename_i σ interfered
            cases step
            obtain ⟨x, executed⟩ := Shared.executed_of_interfere interfered
            obtain ⟨before, after, all, rest, -⟩ := executed.split
            rw [all, rest]
            simp [Nat.add_assoc]
      | deliver n i => exact move.elim
      | evict n e => exact move.elim

theorem moves_acc (reachable : Reachable cfg s) : Acc (fun s'' s' => MoveTo cfg s' s'') s := by
  by_contra endless
  obtain ⟨states, rfl, moves⟩ := not_acc_iff_exists_descending_chain.mp endless
  have reached : ∀ n, Reachable cfg (states n) := by
    intro n
    induction n with
    | zero => exact reachable
    | succ n ih => exact ih.moveTo (moves n)
  choose actions move steps using moves
  have given : ∀ t n op, actions n ≠ .invoke t op := fun t n op => (move n).given t op
  obtain ⟨ts, idle⟩ := reachable.busy_finite
  -- from some step on no client takes part
  have quiet : ∃ bound, ∀ n, bound ≤ n → ∀ t ∈ ts, (actions n).thread? ≠ some t := by
    clear idle
    induction ts with
    | nil => exact ⟨0, by simp⟩
    | cons t ts ih =>
        obtain ⟨bound, others⟩ := ih
        obtain ⟨bound', own⟩ := System.eventually_others steps (given t) (fun n => (move n).keyBelow)
          fun n op rest thread => turns_acc (reached n) thread
        refine ⟨max bound bound', fun n later => List.forall_mem_cons.mpr ⟨?_, ?_⟩⟩
        · exact own n ((le_max_right _ _).trans later)
        · exact others n ((le_max_left _ _).trans later)
  obtain ⟨bound, quiet⟩ := quiet
  have nobody : ∀ n, bound ≤ n → ∀ t, (actions n).thread? ≠ some t := by
    intro n later t
    by_cases busy : t ∈ ts
    · exact quiet n later t busy
    · have still := System.idle_stays steps (given t) (idle t busy) n
      rw [Nat.zero_add] at still
      exact System.idle_step (steps n) still (given t n)
  -- and every further step executes one of the writes
  have shrinks : ∀ k, (states bound).shared.pending.length = (states (bound + k)).shared.pending.length + k := by
    intro k
    induction k with
    | zero => rfl
    | succ k ih =>
        rw [ih, (move (bound + k)).executes (nobody _ (Nat.le_add_right ..)) (steps (bound + k))]
        exact Nat.add_right_comm _ 1 k
  have := shrinks ((states bound).shared.pending.length + 1)
  omega

end

/-! ## Draining -/

/-- Every run without new operations is finite, also past a client that has stopped, and it comes to an end only
where all operations have returned and all writes are executed, or a client has stopped. -/
structure Drains (cfg : Config) (s : State) : Prop where
  finite : Acc (fun s'' s' => MoveTo cfg s' s'') s
  ends : ∀ s', Relation.ReflTransGen (MoveTo cfg) s s' → (∃ s'', MoveTo cfg s' s'') ∨ Quiet s' ∨ Stopped s'
  owned : ∀ s', Relation.ReflTransGen (MoveTo cfg) s s' → Owned cfg s'

theorem Reachable.moves {cfg : Config} {s s' : State} (reachable : Reachable cfg s)
    (moves : Relation.ReflTransGen (MoveTo cfg) s s') : Reachable cfg s' := by
  induction moves with
  | refl => exact reachable
  | tail _ move ih => exact ih.moveTo move

end Sherman
