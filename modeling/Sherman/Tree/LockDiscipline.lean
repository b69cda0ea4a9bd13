import Sherman.Tree.Aborting
import Sherman.Tree.Walking

/-!
# The lock discipline of the operations

Each client takes one page lock at a time, gives it back once, and holds none between procedures. A page
is written under its lock, or by the client that has just allocated it.
-/

namespace Sherman

open Concurrency

variable {cfg : Config} {α : Type}

def Ended (_ : α) (h : Hold) : Prop := h.phase = .free

/-- What the walk notes of the locks is what the monitor sees. -/
theorem follows_of_walks {place : Option (GlobalAddress × Key)} {target : Option GlobalAddress}
    {calls : Note → Proc → Prop} {m : Code α} {n : Note} {Q : α → Note → Prop}
    (walks : Walks cfg place target calls m n Q) (free : ∀ value n', Q value n' → n'.hold.phase = .free) :
    (lockMonitor cfg).Follows m n.hold Ended := by
  refine (Walk.Follows.simulate (R := fun n h => n.hold = h) ?_ ?_ ?_ walks rfl).mono ?_
  · rintro n n₁ _ v r rfl ⟨step, -⟩
    exact ⟨n₁.hold, step, rfl⟩
  · rintro n _ q rfl called
    exact called.1
  · rintro n _ q r h₁ rfl - free'
    exact ⟨⟨h₁, n.page, searchAfter place q r⟩, ⟨free', rfl, rfl⟩, rfl⟩
  · rintro value _ ⟨n', rfl, ended⟩
    exact free value n' ended

theorem free_of_ended {p : Proc} {r : Ret p} {n : Note} (ended : p.Ended r n) : n.hold.phase = .free := by
  cases p with
  | pageSearch a k fromCache => exact Looked.free ended
  | _ => exact ended

theorem lockMonitor_followed (cfg : Config) : (lockMonitor cfg).Followed (system cfg) where
  body p h free := follows_of_walks (walks_body cfg p (n := ⟨h, none, none⟩) free) fun _ _ => free_of_ended
  main op h free := follows_of_walks (walks_main cfg op (n := ⟨h, none, none⟩) free) fun _ _ free' => free'

/-! ## Every run -/

theorem init_fits (cfg : Config) (root : GlobalAddress) :
    (lockMonitor cfg).Fits (State.init root) fun _ => .none := fun _ => rfl

theorem free_of_waiting {s : State} {hs : Client → Hold} (fits : (lockMonitor cfg).Fits s hs) {t : Client} {op : Op}
    {la : GlobalAddress} {next : Unit → Code Result}
    (thread : s.threads t = .running op (.verb (.tryLock la) next)) : (hs t).phase = .free := by
  have own := fits t
  simp only [thread] at own
  obtain ⟨h', allowed, -⟩ := Monitor.next_of_follows own ()
  by_contra busy
  simp [lockMonitor, busy] at allowed

def WaitsFor (s : State) (hs : Client → Hold) (t u : Client) : Prop :=
  ∃ op la next, s.threads t = .running op (.verb (.tryLock la) next) ∧ (hs u).phase.lock = some la

/-- In every run all clients keep to the discipline: the monitors never stop. An operation that returns,
or waits for a lock, holds none, so the clients never wait for each other in a circle. -/
theorem lock_discipline (cfg : Config) (root : GlobalAddress) (as : List (Action Client Op Choice Env)) (s : State)
    (run : (system cfg).run (State.init root) as = some s) :
    ∃ hs, (lockMonitor cfg).watchRun (system cfg) (State.init root) (fun _ => .none) as = some hs ∧
      (∀ t, s.threads t = .idle → (hs t).phase = .free) ∧
      (∀ t op r, s.threads t = .running op (.ret r) → (hs t).phase = .free) ∧
      (∀ t op la next, s.threads t = .running op (.verb (.tryLock la) next) → (hs t).phase = .free) ∧
      ∀ t, ¬ Relation.TransGen (WaitsFor s hs) t t := by
  obtain ⟨hs, watched, fits⟩ := Monitor.fits_run (lockMonitor_followed cfg) (init_fits cfg root) run
  have waiting : ∀ t op la next, s.threads t = .running op (.verb (.tryLock la) next) → (hs t).phase = .free :=
    fun _ _ _ _ => free_of_waiting fits
  refine ⟨hs, watched, fun t thread => ?_, fun t op r thread => ?_, waiting, fun t circle => ?_⟩
  · have own := fits t
    simp only [thread] at own
    exact own
  · have own := fits t
    simp only [thread] at own
    exact own
  · -- the first client of the circle waits, and the last step says that it has a lock
    obtain ⟨u, ⟨op, la, next, thread, -⟩⟩ : ∃ u, WaitsFor s hs t u := by
      rcases Relation.TransGen.head'_iff.mp circle with ⟨u, first, -⟩
      exact ⟨u, first⟩
    obtain ⟨w, ⟨-, la', -, -, has⟩⟩ : ∃ w, WaitsFor s hs w t := by
      rcases Relation.TransGen.tail'_iff.mp circle with ⟨w, -, last⟩
      exact ⟨w, last⟩
    rw [waiting t op la next thread] at has
    cases has

theorem lock_discipline_growth :
    ∃ s hs, (system oneLock).run (State.init ⟨1, 8⟩) growth = some s ∧ grown s = true ∧
      (lockMonitor oneLock).watchRun (system oneLock) (State.init ⟨1, 8⟩) (fun _ => .none) growth = some hs ∧
      (∀ t, s.threads t = .idle → (hs t).phase = .free) ∧ ∀ t, ¬ Relation.TransGen (WaitsFor s hs) t t := by
  obtain ⟨s, run, shape⟩ := growth_run
  obtain ⟨hs, watched, idle, -, -, acyclic⟩ := lock_discipline oneLock ⟨1, 8⟩ growth s run
  exact ⟨s, hs, run, shape, watched, idle, acyclic⟩

/-! ## A page that is not linked yet -/

section Sibling

/-- Every page of these addresses has a lock word of its own. -/
def separateLocks : Config := ⟨fun a => a.offset, id⟩

def beforeSibling : Schedule :=
  fillLeaf 100 ++ insertToLock 53 200 1 ++ advances 53 2 ++ [.advance 53 (.fresh ⟨1, 16⟩)]

def writesUnlocked (cfg : Config) (s : Option State) (t : Client) : Bool :=
  match s with
  | none => false
  | some s => match s.threads t with
    | .running _ (.verb (.post [.page a _]) next) => match next () with
        | .verb (.poll _) next => match next () with
            | .verb (.canHandOver la) _ => la ≠ cfg.lockAddr a
            | _ => false
        | _ => false
    | _ => false

theorem beforeSibling_writes :
    writesUnlocked separateLocks ((system separateLocks).run (State.init ⟨1, 8⟩) beforeSibling) 53 = true := by
  rw [← replays_run]
  decide +kernel

theorem writesUnlocked_spec {s : Option State} {t : Client} (writes : writesUnlocked cfg s t = true) :
    ∃ s' op a p next, s = some s' ∧ s'.threads t = .running op (.verb (.post [.page a p]) next) ∧
      ∀ h : Hold, (lockMonitor cfg).Follows (.verb (.post [.page a p]) next) h Ended →
        h.phase.lock ≠ some (cfg.lockAddr a) := by
  unfold writesUnlocked at writes
  split at writes
  · cases writes
  · rename_i s'
    split at writes
    · rename_i op a p next thread
      refine ⟨s', op, a, p, next, rfl, thread, fun h follows => ?_⟩
      split at writes
      · rename_i n next' second
        split at writes
        · rename_i la next'' third
          obtain ⟨h', written, tail⟩ := Monitor.next_of_follows follows ()
          rw [second] at tail
          obtain ⟨h'', polled, tail⟩ := Monitor.next_of_follows tail ()
          cases polled
          rw [third] at tail
          obtain ⟨h₃, handed, rest⟩ := Monitor.next_of_follows tail true
          have held : h'.phase = .held la := by
            by_contra other
            simp only [lockMonitor, if_neg other] at handed
            cases handed
          have same : h.phase = .held la := by
            simp only [lockMonitor, Hold.writes, Hold.write] at written
            split at written
            · cases written
              exact held
            · split at written
              · cases written
                exact held
              · cases written
          rw [same]
          simpa [Phase.lock] using writes
        · cases writes
      · cases writes
    · cases writes

/-- A page is not always written under its lock: the sibling of a split is not. -/
theorem sibling_written_unlocked : ¬ ∀ (cfg : Config) (root : GlobalAddress) (as : Schedule) (s : State) (hs : Client → Hold),
    root ≠ .null → (system cfg).run (State.init root) as = some s →
    (lockMonitor cfg).watchRun (system cfg) (State.init root) (fun _ => .none) as = some hs →
    ∀ t op ws next a p, s.threads t = .running op (.verb (.post ws) next) → .page a p ∈ ws →
      (hs t).phase.lock = some (cfg.lockAddr a) := by
  intro always
  obtain ⟨s, op, a, p, next, run, thread, unlocked⟩ := writesUnlocked_spec beforeSibling_writes
  obtain ⟨hs, watched, fits⟩ := Monitor.fits_run (lockMonitor_followed separateLocks) (init_fits _ _) run
  have own := fits 53
  simp only [thread] at own
  exact unlocked (hs 53) own (always _ _ _ s hs (by decide) run watched 53 op _ next a p thread (by simp))

end Sibling

end Sherman
