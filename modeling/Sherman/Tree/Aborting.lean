import Sherman.Tree.Structure

namespace Sherman

open Shared Concurrency

def RootKnown (s : State) : Action Client Op Choice Env → Prop
  | .advance t _ => match s.threads t with
      | .running _ (.verb v _) => ∀ old new, v = .casRoot old new → s.shared.rootPtr = old
      | .running _ (.call p _) => ∀ a splitKey sibling root level,
          (p = .internalSplitUp a splitKey sibling root level ∨
            ∃ fromCache, p = .leafSplitUp a splitKey sibling root level fromCache) →
          ∀ page, s.shared.mem root = some page → page.hdr.level = level → a = root
      | _ => True
  | _ => True

def Mode.known : Mode := ⟨none, False, True, True⟩

section Known
variable {cfg : Config} {root : GlobalAddress} {s : State} {as : List (Action Client Op Choice Env)}

theorem throughout_known (keys : KeysBelow as) (known : (system cfg).Throughout RootKnown s as) :
    (system cfg).Throughout (protocol .known cfg).May s as := by
  induction as generalizing s with
  | nil => trivial
  | cons a as ih =>
      obtain ⟨now, later⟩ := known
      refine ⟨?_, fun s' step => ih (fun t op h => keys t op (List.mem_cons_of_mem a h)) (later s' step)⟩
      cases a with
      | invoke t op => exact ⟨fun _ h => (nomatch h), keys t op (by simp)⟩
      | advance t choice =>
          simp only [RootKnown] at now
          simp only [Protocol.May]
          cases thread : s.threads t with
          | idle => trivial
          | running op rest =>
              simp only [thread] at now
              cases rest with
              | ret r => trivial
              | fault e => trivial
              | verb v next => exact ⟨fun _ h => (nomatch h), fun vis => vis.elim, fun _ => now⟩
              | call p next => exact ⟨fun _ h => (nomatch h), fun _ => now⟩
      | respond t => exact fun vis => vis.elim
      | interfere e => trivial

/-- While the root is known, no assertion fails. -/
theorem no_assertion_fails (nonnull : root ≠ .null) (keys : KeysBelow as)
    (known : (system cfg).Throughout RootKnown (State.init root) as)
    (run : (system cfg).run (State.init root) as = some s) (t : Client) (op : Op) (fn : Fn) (check : Check) :
    s.threads t ≠ .running op (.fault (.assertion fn check)) := by
  intro failed
  obtain ⟨g, good⟩ := Protocol.good_run (protocol_sound .known cfg) (init_good .known cfg nonnull)
    (throughout_known keys known) run
  rcases good.fault failed with overflow | ⟨unknown, -⟩ | ⟨low, -⟩
  · cases overflow
  · exact unknown trivial
  · exact low trivial

end Known

theorem rootKnown_of_orderly {s : State} {a : Action Client Op Choice Env} (h : orderly s a = true) : RootKnown s a := by
  cases a with
  | advance t choice =>
      simp only [orderly] at h
      simp only [RootKnown]
      cases thread : s.threads t with
      | idle => trivial
      | running op rest =>
          simp only [thread] at h
          cases rest with
          | ret r => trivial
          | fault error => trivial
          | verb v next =>
              rintro old new rfl
              simp only [Bool.and_eq_true, decide_eq_true_eq] at h
              exact h.2
          | call p next =>
              rintro a splitKey sibling root level (rfl | ⟨fromCache, rfl⟩) page - -
              · exact of_decide_eq_true h
              · exact of_decide_eq_true h
  | _ => trivial

theorem no_assertion_fails_growth : ∃ s, (system oneLock).run (State.init ⟨1, 8⟩) growth = some s ∧ grown s = true ∧
    ∀ t op fn check, s.threads t ≠ .running op (.fault (.assertion fn check)) := by
  obtain ⟨s, run, shape⟩ := growth_run
  obtain ⟨-, -, -, -, -, -, -, throughout⟩ := growth_spec
  have known := throughout.mono _ fun _ _ => rootKnown_of_orderly
  exact ⟨s, run, shape, no_assertion_fails (by decide) growth_own.keysBelow known run⟩

/-! ## A root that is outdated

While the tree is one leaf, 27 clients read its root pointer and come to wait for the lock of the leaf.
The leaf is then split under a new root, and filled again by those that wait. The last of them has to
split it once more, with the old root in its hands. -/

section Outdated

def fillLeaf (k : Key) : Schedule :=
  (List.range 53).flatMap fun c => insertToLock c (k + c) 1 ++ storeEntry c ++ [.respond c]

def outdatedRoot : Schedule :=
  fillLeaf 100 ++ insertToLock 53 200 1 ++ ((List.range 27).flatMap fun i => insertToLock (54 + i) (54 + i) 1) ++
    splitLeaf 53 ⟨1, 16⟩ ++ growRoot 53 ⟨1, 24⟩ ++ ((List.range 26).flatMap fun i => storeEntry (54 + i)) ++
    splitLeaf 80 ⟨1, 32⟩ ++ growRoot 80 ⟨1, 40⟩ ++ advances 80 1

def failure (s : Option State) (t : Client) : Option Fault :=
  match s with
  | none => none
  | some s => match s.threads t with
    | .running _ (.fault error) => some error
    | _ => none

theorem failure_eq {s : Option State} {t : Client} {error : Fault} (h : failure s t = some error) :
    ∃ s' op, s = some s' ∧ s'.threads t = .running op (.fault error) := by
  unfold failure at h
  split at h
  · cases h
  · rename_i s'
    split at h
    · rename_i op error' thread
      cases h
      exact ⟨s', op, rfl, thread⟩
    · cases h

theorem outdatedRoot_keys : KeysBelow outdatedRoot := keysBelow_iff (by decide +kernel)

theorem outdatedRoot_fails :
    failure ((system oneLock).run (State.init ⟨1, 8⟩) outdatedRoot) 80 =
      some (.assertion .leafPageStore .notFromCache) := by
  rw [← replays_run]
  decide +kernel

/-- An assertion can fail. -/
theorem an_assertion_fails : ¬ ∀ (cfg : Config) (root : GlobalAddress) (as : Schedule) (s : State), root ≠ .null →
    KeysBelow as → (system cfg).run (State.init root) as = some s → ∀ t op fn check,
      s.threads t ≠ .running op (.fault (.assertion fn check)) := by
  intro never
  obtain ⟨s, op, run, failed⟩ := failure_eq outdatedRoot_fails
  exact never oneLock ⟨1, 8⟩ outdatedRoot s (by decide) outdatedRoot_keys run 80 op _ _ failed

end Outdated
end Sherman
