import Sherman.Tree.Operations
import Sherman.Tree.RangeScan

namespace Sherman

open Concurrency

abbrev Schedule := List (Action Client Op Choice Env)

def KeysBelow (as : List (Action Client Op Choice Env)) : Prop :=
  ∀ t op, Action.invoke t op ∈ as → op.key < kKeyMax

def keysBelow (as : Schedule) : Bool :=
  as.all fun a => match a with
    | .invoke _ op => op.key < kKeyMax
    | _ => true

theorem keysBelow_iff {as : Schedule} (h : keysBelow as = true) : KeysBelow as := fun t op mem => by
  simpa using List.all_eq_true.mp h _ mem

def OneClient (t : Client) (as : List (Action Client Op Choice Env)) : Prop :=
  ∀ u op, Action.invoke u op ∈ as → u = t ∧ op.key < kKeyMax

def oneClient (t : Client) (as : Schedule) : Bool :=
  as.all fun a => match a with
    | .invoke u op => u = t && op.key < kKeyMax
    | _ => true

theorem oneClient_iff {t : Client} {as : Schedule} (h : oneClient t as = true) : OneClient t as := fun u op mem => by
  simpa using List.all_eq_true.mp h _ mem

theorem OneClient.keysBelow {t : Client} {as : Schedule} (h : OneClient t as) : KeysBelow as :=
  fun u op mem => (h u op mem).2

/-! ## Parts of schedules -/

/-- Without this the root pointer is a term as long as the run. -/
def evaluated (s : State) : State :=
  match s.shared.rootPtr with
  | ⟨n, o⟩ => { s with shared := { s.shared with rootPtr := ⟨n, o⟩ } }

theorem evaluated_eq (s : State) : evaluated s = s := rfl

def replays (cfg : Config) (s : State) (as : Schedule) : Option (State × List (Event Client Op Result)) :=
  (system cfg).replay evaluated (fun _ _ => true) s as

theorem replays_run {cfg : Config} {s : State} {as : Schedule} :
    (replays cfg s as).map Prod.fst = (system cfg).run s as := System.replay_run evaluated_eq

theorem replays_spec {cfg : Config} {s s' : State} {as : Schedule} {es : List (Event Client Op Result)}
    (h : replays cfg s as = some (s', es)) : (system cfg).run s as = some s' ∧ (system cfg).history s as = es := by
  obtain ⟨run, history, -⟩ := System.replay_spec evaluated_eq h
  exact ⟨run, history⟩

def advances (c : Client) (n : Nat) : Schedule := List.replicate n (.advance c .none)

def insertToLock (c : Client) (k : Key) (v : Value) : Schedule := .invoke c (.insert k v) :: advances c 9

def storeEntry (c : Client) : Schedule :=
  advances c 2 ++ [.advance c (.waiter false), .advance c .none, .interfere (.execute 0),
    .interfere (.execute 0)] ++ advances c 2

def splitLeaf (c : Client) (sibling : GlobalAddress) : Schedule :=
  advances c 2 ++ [.advance c (.fresh sibling), .advance c .none, .interfere (.execute 0), .advance c .none,
    .advance c (.waiter false), .advance c .none]

def growRoot (c : Client) (root : GlobalAddress) : Schedule :=
  [.interfere (.execute 0), .interfere (.execute 0)] ++ advances c 2 ++
    [.advance c (.fresh root), .advance c .none, .interfere (.execute 0)] ++ advances c 2

def oneLock : Config := ⟨fun _ => 0, id⟩

/-! ## A leaf that is split -/

def beforeGrowth : Schedule :=
  ((List.range 53).flatMap fun i => insertToLock 0 (100 + i) 1 ++ storeEntry 0 ++ [.respond 0]) ++
    insertToLock 0 50 1 ++ splitLeaf 0 ⟨0, 16⟩

def growthAndSearch : Schedule :=
  growRoot 0 ⟨0, 24⟩ ++ advances 0 1 ++ [.respond 0, .invoke 0 (.search 50)] ++ advances 0 12 ++ [.respond 0]

/-- The client splits the root it knows, and swaps the root that is current; when it posts a write, swaps the root
or returns, no other write of its own is pending. -/
def orderly (s : State) : Action Client Op Choice Env → Bool
  | .advance t _ => match s.threads t with
      | .running _ (.verb (.post _) _) => s.shared.pending.all (·.client ≠ t)
      | .running _ (.verb (.casRoot old _) _) => s.shared.pending.all (·.client ≠ t) && s.shared.rootPtr = old
      | .running _ (.call (.internalSplitUp a _ _ root _) _) => a = root
      | .running _ (.call (.leafSplitUp a _ _ root _ _) _) => a = root
      | _ => true
  | .respond t => s.shared.pending.all (·.client ≠ t)
  | _ => true

def splitting (s : State) : Bool :=
  s.shared.rootPtr = ⟨1, 8⟩ && (s.shared.dir 0).gRootPtr = .null && s.shared.pending.length = 2 &&
    s.shared.allocated.length = 2

def grown (s : State) : Bool :=
  match s.threads 0, s.shared.pending, s.shared.mem ⟨0, 24⟩, s.shared.mem ⟨1, 8⟩, s.shared.mem ⟨0, 16⟩ with
  | .idle, [], some (.internal p), some (.leaf left), some (.leaf right) =>
      s.shared.rootPtr = ⟨0, 24⟩ && p.hdr.level = 1 && left.hdr.level = 0 && left.hdr.siblingPtr = ⟨0, 16⟩ &&
        right.hdr.siblingPtr = .null && p.hdr.lowest = 0 && s.shared.cache 0 = [] &&
          ((rangeRecords (IndexCache.addToCache [] p) s.shared.view 0 102).map fun r => (r.key, r.value)) =
            [(50, 1), (100, 1), (101, 1), (102, 1)]
  | _, _, _, _, _ => false

def growthHistory : List (Event Client Op Result) :=
  ((List.range 53).flatMap fun i => [.invoke 0 (.insert (100 + i) 1), .respond 0 (.insert (100 + i) 1) .done]) ++
    [.invoke 0 (.insert 50 1), .respond 0 (.insert 50 1) .done, .invoke 0 (.search 50),
      .respond 0 (.search 50) (.value (some 1))]

def growth : Schedule := beforeGrowth ++ growthAndSearch

theorem growth_own : OneClient 0 growth := oneClient_iff (by decide +kernel)

theorem splitting_eq {s : State} (h : splitting s = true) : s.shared.rootPtr = ⟨1, 8⟩ ∧
    (s.shared.dir 0).gRootPtr = .null ∧ s.shared.pending.length = 2 ∧ s.shared.allocated.length = 2 := by
  simpa [splitting, and_assoc] using h

theorem grown_eq {s : State} (h : grown s = true) : s.threads 0 = .idle ∧ s.shared.pending = [] ∧
    s.shared.rootPtr = ⟨0, 24⟩ ∧ ∃ p left right, s.shared.mem ⟨0, 24⟩ = some (.internal p) ∧ p.hdr.level = 1 ∧
      s.shared.mem ⟨1, 8⟩ = some (.leaf left) ∧ left.hdr.level = 0 ∧ left.hdr.siblingPtr = ⟨0, 16⟩ ∧
      s.shared.mem ⟨0, 16⟩ = some (.leaf right) ∧ right.hdr.siblingPtr = .null ∧ p.hdr.lowest = 0 ∧ s.shared.cache 0 = [] ∧
        ((rangeRecords (IndexCache.addToCache [] p) s.shared.view 0 102).map fun r => (r.key, r.value)) =
          [(50, 1), (100, 1), (101, 1), (102, 1)] := by
  unfold grown at h
  split at h
  · rename_i p left right thread executed root first second
    simp only [Bool.and_eq_true, decide_eq_true_eq] at h
    obtain ⟨⟨⟨⟨⟨⟨⟨rootPtr, level⟩, leaf⟩, sibling⟩, last⟩, lowest⟩, uncached⟩, written⟩ := h
    exact ⟨thread, executed, rootPtr, p, left, right, root, level, first, leaf, sibling, second, last, lowest, uncached,
      written⟩
  · cases h

theorem growth_replays : (((system oneLock).replay evaluated orderly (State.init ⟨1, 8⟩) beforeGrowth).bind fun x =>
    ((system oneLock).replay evaluated orderly x.1 growthAndSearch).map fun y =>
      splitting x.1 && grown y.1 && x.2 ++ y.2 = growthHistory) = some true := by
  decide +kernel

theorem growth_spec : ∃ m s, (system oneLock).run (State.init ⟨1, 8⟩) beforeGrowth = some m ∧
    (system oneLock).run m growthAndSearch = some s ∧ splitting m = true ∧ grown s = true ∧
    (system oneLock).history (State.init ⟨1, 8⟩) growth = growthHistory ∧
    (system oneLock).Throughout (fun s a => orderly s a = true) (State.init ⟨1, 8⟩) growth := by
  obtain ⟨⟨m, es⟩, first, later⟩ := Option.bind_eq_some_iff.mp growth_replays
  obtain ⟨⟨s, es'⟩, second, shapes⟩ := Option.map_eq_some_iff.mp later
  simp only [Bool.and_eq_true, decide_eq_true_eq] at shapes
  obtain ⟨run, history, throughout⟩ := System.replay_spec evaluated_eq first
  obtain ⟨run', history', throughout'⟩ := System.replay_spec evaluated_eq second
  refine ⟨m, s, run, run', shapes.1.1, shapes.1.2, ?_, throughout.append run throughout'⟩
  rw [growth, System.history_append _ run, history, history', shapes.2]

theorem growth_history : (system oneLock).history (State.init ⟨1, 8⟩) growth = growthHistory := by
  obtain ⟨-, -, -, -, -, -, history, -⟩ := growth_spec
  exact history

theorem growth_run : ∃ s, (system oneLock).run (State.init ⟨1, 8⟩) growth = some s ∧ grown s = true := by
  obtain ⟨m, s, run, run', -, shape, -⟩ := growth_spec
  exact ⟨s, (system oneLock).run_append.mpr ⟨m, run, run'⟩, shape⟩

end Sherman
