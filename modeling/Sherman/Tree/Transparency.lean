import Sherman.Tree.Detecting
import Sherman.Tree.Installing

namespace Sherman

open Shared Concurrency

def Shared.setCache (s : Shared) (n : NodeID) (enabled : Bool) (cache : IndexCache) : Shared :=
  { s with
    dir := Function.update s.dir n { s.dir n with enableCache := enabled }
    cache := Function.update s.cache n cache }

def State.setCache (s : State) (n : NodeID) (enabled : Bool) (cache : IndexCache) : State :=
  { s with shared := s.shared.setCache n enabled cache }

def Copy (cfg : Config) (start : State) (as : List (Action Client Op Choice Env)) (e : CacheEntry) : Prop :=
  ∃ before after s a p, as = before ++ after ∧ (system cfg).run start before = some s ∧
    s.shared.mem a = some (.internal p) ∧ p.hdr.level = 1 ∧ e.fromKey = p.hdr.lowest ∧
    e.toKey = p.hdr.highest - 1 ∧ (e.ptr = some p ∨ e.ptr = none)

structure Completes (cfg : Config) (t : Client) (s : State) (op : Op) (as : Schedule) (r : Result) (s' : State) :
    Prop where
  run : (system cfg).run s as = some s'
  history : (system cfg).history s as = [.invoke t op, .respond t op r]
  idle : s'.threads t = .idle

/-- In the run `as` client `t` comes to the loop of its operation at the root, with the tree as it was. -/
def StartsAtRoot (cfg : Config) (t : Client) (s : State) (op : Op) (as : Schedule) : Prop :=
  ∃ before after u op' root next, as = before ++ after ∧ (system cfg).run s before = some u ∧
    u.threads t = .running op' (.call (op.fromRoot root) next) ∧ u.shared.view = s.shared.view

/-! ## Old copies are sound -/

section Run
variable {cfg : Config} {t : Client} {m : KeyMap} {s s' : State} {g : Ghost}

theorem OneRunning.entrySound (h : OneRunning False cfg t m s g) {a : GlobalAddress} {p q : InternalPage}
    {e : CacheEntry} (mem : s.shared.mem a = some (.internal p)) (level : p.hdr.level = 1)
    (fromKey : e.fromKey = p.hdr.lowest) (toKey : e.toKey = p.hdr.highest - 1)
    (ptr : e.ptr = some p ∨ e.ptr = none) (live : e.ptr = some q) : EntrySound g e q := by
  have same : p = q := by
    rcases ptr with h | h
    · exact Option.some.inj (h.symm.trans live)
    · cases h.symm.trans live
  subst same
  have sound := h.good.1.tree.mem_sound a _ mem
  exact ⟨fromKey, toKey, level, sound.ok, sound.points⟩

theorem OneRunning.copies {as : List (Action Client Op Choice Env)} (h : OneRunning False cfg t m s g)
    (own : OneClient t as) (run : (system cfg).run s as = some s') :
    ∃ m' g', OneRunning False cfg t m' s' g' ∧
      ∀ e, Copy cfg s as e → ∀ p, e.ptr = some p → EntrySound g' e p := by
  induction as using List.reverseRecOn generalizing s' with
  | nil =>
      cases run
      refine ⟨m, g, h, ?_⟩
      rintro e ⟨before, after, s', a, p, split, run, mem, level, fromKey, toKey, ptr⟩ q live
      obtain ⟨rfl, rfl⟩ := List.nil_eq_append_iff.mp split
      cases run
      exact h.entrySound mem level fromKey toKey ptr live
  | append_singleton as a ih =>
      obtain ⟨u, runU, last⟩ := (system cfg).run_append.mp run
      obtain ⟨m', g', atU, sound⟩ := ih (fun u op mem => own u op (List.mem_append_left _ mem)) runU
      obtain ⟨v, step, same⟩ := (system cfg).run_cons.mp last
      cases same
      obtain ⟨g'', atEnd, linked, -⟩ := atU.step (fun u op same => own u op (by simp [same])) step
      refine ⟨_, g'', atEnd, ?_⟩
      rintro e ⟨before, after, w, b, p, split, runW, mem, level, fromKey, toKey, ptr⟩ q live
      rcases List.eq_nil_or_concat after with rfl | ⟨rest, c, rfl⟩
      · rw [List.append_nil] at split
        subst split
        cases run.symm.trans runW
        exact atEnd.entrySound mem level fromKey toKey ptr live
      · rw [List.concat_eq_append, ← List.append_assoc] at split
        obtain ⟨rfl, -⟩ := List.append_inj' split rfl
        exact (sound e ⟨before, rest, w, b, p, rfl, runW, mem, level, fromKey, toKey, ptr⟩ q live).mono linked

/-! ## Switching the cache -/

theorem DirectorySound.setEnabled {d : Directory} {enabled : Bool} (sound : DirectorySound g d)
    (high : enabled = true → ∃ a, g.Linked a 1 kKeyMin) : DirectorySound g { d with enableCache := enabled } := by
  rcases sound with ⟨null, unknown, -⟩ | known
  · exact .inl ⟨null, unknown, high⟩
  · exact .inr known

theorem OneRunning.all_idle (h : OneRunning False cfg t m s g) (idle : s.threads t = .idle) (u : Client) :
    s.threads u = .idle := by
  by_cases same : u = t
  · exact same ▸ idle
  · exact h.idle u same

theorem OneRunning.setCache (h : OneRunning False cfg t m s g) (idle : s.threads t = .idle) (n : NodeID)
    (enabled : Bool) {cache : IndexCache} (high : enabled = true → ∃ a, g.Linked a 1 kKeyMin)
    (sound : ∀ e ∈ cache, ∀ p, e.ptr = some p → EntrySound g e p) :
    OneRunning False cfg t m (s.setCache n enabled cache) g := by
  have all := h.all_idle idle
  obtain ⟨⟨inv, threads⟩, others, agrees⟩ := h
  have tree : TreeInv (s.shared.setCache n enabled cache) g := by
    refine { inv.tree with dir := fun i => ?_, cache := fun i e he p hp => ?_ }
    · by_cases same : i = n
      · subst same
        simp only [Shared.setCache, Function.update_self]
        exact (inv.tree.dir i).setEnabled high
      · simp only [Shared.setCache, Function.update_of_ne same]
        exact inv.tree.dir i
    · by_cases same : i = n
      · subst same
        simp only [Shared.setCache, Function.update_self] at he
        exact sound e he p hp
      · simp only [Shared.setCache, Function.update_of_ne same] at he
        exact inv.tree.cache i e he p hp
  have lock : LockInv cfg (s.shared.setCache n enabled cache) g :=
    { inv.lock with single := inv.lock.single }
  have inv' : Invariant (.one t False) cfg (s.shared.setCache n enabled cache, g) :=
    ⟨tree, lock, fun vis => vis.elim, inv.only, fun high => high.elim⟩
  refine ⟨⟨inv', fun u => ?_⟩, others, agrees⟩
  have unused := threads u
  simp only [State.setCache, all u] at unused ⊢
  exact unused

/-! ## One operation -/

theorem invoke_mem_history {as : List (Action Client Op Choice Env)} {u : Client} {op : Op}
    (run : (system cfg).run s as = some s') (mem : Action.invoke u op ∈ as) :
    Event.invoke u op ∈ (system cfg).history s as := by
  induction as generalizing s with
  | nil => cases mem
  | cons a as ih =>
      obtain ⟨v, step, rest⟩ := (system cfg).run_cons.mp run
      simp only [System.history, step, List.mem_append]
      rcases List.mem_cons.mp mem with rfl | later
      · exact .inl (by simp [System.events])
      · exact .inr (ih rest later)

theorem Completes.own {op : Op} {as : Schedule} {r : Result} (done : Completes cfg t s op as r s')
    {u : Client} {op' : Op} (mem : Action.invoke u op' ∈ as) : u = t ∧ op' = op := by
  have event := invoke_mem_history done.run mem
  rw [done.history] at event
  simp only [List.mem_cons, Event.invoke.injEq, List.not_mem_nil, or_false, reduceCtorEq] at event
  exact event

theorem Completes.oneClient {op : Op} {as : Schedule} {r : Result} (done : Completes cfg t s op as r s')
    (below : op.key < kKeyMax) : OneClient t as := by
  intro u op' mem
  obtain ⟨rfl, rfl⟩ := done.own mem
  exact ⟨rfl, below⟩

theorem OneRunning.completes (h : OneRunning False cfg t m s g) {op : Op} {as : Schedule} {r : Result}
    (below : op.key < kKeyMax) (done : Completes cfg t s op as r s') :
    r = (op.apply m).1 ∧ Represents (LeafMap s'.shared) (op.apply m).2 ∧ WellFormed s'.shared := by
  have own := done.oneClient below
  have replays := h.replays own
  obtain ⟨g', last⟩ := h.run own done.run
  rw [done.history] at replays last
  exact ⟨replays.1, last.represents done.idle, last.good.1.tree.wellFormed⟩

theorem respond_mem_of_history {as : Schedule} {u : Client} {op : Op} {r : Result}
    (mem : Event.respond u op r ∈ (system cfg).history s as) : Action.respond u ∈ as := by
  induction as generalizing s with
  | nil => cases mem
  | cons a as ih =>
      simp only [System.history] at mem
      split at mem
      · cases mem
      · rcases List.mem_append.mp mem with now | later
        · have same : a = .respond u := by
            cases a with
            | respond v =>
                simp only [System.events] at now
                split at now
                · simp only [List.mem_singleton, Event.respond.injEq] at now
                  rw [now.1]
                · cases now
            | _ => simp [System.events] at now
          exact same ▸ List.mem_cons_self
        · exact List.mem_cons_of_mem a (ih later)

theorem event_of_pair {α : Type} {xs zs : List α} {y a b : α} (h : xs ++ y :: zs = [a, b]) :
    xs = [] ∧ y = a ∨ y = b ∧ zs = [] := by
  rcases xs with _ | ⟨x, _ | ⟨x', xs⟩⟩
  · exact .inl ⟨rfl, (List.cons.inj h).1⟩
  · simp only [List.cons_append, List.nil_append, List.cons.injEq] at h
    exact .inr h.2
  · simp at h

theorem Completes.silent_before {op op' : Op} {as before after : Schedule} {r : Result} {u : State} {v : Client}
    (done : Completes cfg t s op as r s') (split : as = before ++ .invoke v op' :: after)
    (run : (system cfg).run s before = some u) : (system cfg).history s before = [] := by
  obtain ⟨u', first, rest⟩ := (system cfg).run_append.mp (split ▸ done.run)
  obtain rfl : u' = u := Option.some.inj (first.symm.trans run)
  obtain ⟨w, step, -⟩ := (system cfg).run_cons.mp rest
  have events := done.history
  rw [split, (system cfg).history_append run] at events
  simp only [System.history, step, System.events] at events
  rcases event_of_pair events with ⟨silent, -⟩ | ⟨wrong, -⟩
  · exact silent
  · cases wrong

theorem Completes.silent_after {op : Op} {as before after : Schedule} {r : Result} {u v : State}
    (done : Completes cfg t s op as r s') (split : as = before ++ .respond t :: after)
    (run : (system cfg).run s before = some u) (step : (system cfg).step u (.respond t) = some v) :
    (system cfg).history v after = [] := by
  have events := done.history
  rw [split, (system cfg).history_append run] at events
  simp only [System.history, step] at events
  simp only [System.step] at step
  split at step
  · rename_i thread
    simp only [System.events, thread, List.cons_append, List.nil_append] at events
    rcases event_of_pair events with ⟨-, wrong⟩ | ⟨-, silent⟩
    · cases wrong
    · exact silent
  · cases step

theorem OneRunning.quiet (h : OneRunning False cfg t m s g) (idle : s.threads t = .idle) {as : Schedule}
    (run : (system cfg).run s as = some s') (silent : (system cfg).history s as = []) :
    ∃ m' g', OneRunning False cfg t m' s' g' ∧ Still (s.shared, g) (s'.shared, g') := by
  induction as generalizing s m g with
  | nil =>
      cases run
      exact ⟨m, g, h, fun _ _ _ => id, rfl⟩
  | cons a as ih =>
      obtain ⟨u, step, rest⟩ := (system cfg).run_cons.mp run
      simp only [System.history, step, List.append_eq_nil_iff] at silent
      cases a with
      | invoke v op => cases silent.1
      | advance v choice => simp [System.step, h.all_idle idle v] at step
      | respond v => simp [System.step, h.all_idle idle v] at step
      | interfere e =>
          obtain ⟨g', next, linked, -⟩ := h.step (fun v op same => by cases same) step
          simp only [System.step] at step
          split at step
          · cases step
          · rename_i shared interfered
            cases step
            have calm := (interfere_calm (shared, g') h.good.1 interfered linked).1
            obtain ⟨m'', g'', last, still⟩ := ih next idle rest silent.2
            exact ⟨m'', g'', last, calm.still.trans still⟩

theorem OneRunning.finishes (h : OneRunning False cfg t m s g) (idle : s.threads t = .idle) {op : Op} {as : Schedule}
    {r : Result} (done : Completes cfg t s op as r s') (below : op.key < kKeyMax)
    {A : (protocol (.one t False) cfg).Strengthening} (sound : A.Sound (system cfg)) (inv : A.inv (s.shared, g))
    (unused : ∀ u, A.idle u (s.shared, g))
    (calls : ∀ before a after u v op' p next, as = before ++ a :: after → (system cfg).run s before = some u →
      u.threads v = .running op' (.call p next) → A.mayCall v p u.shared)
    (invokes : ∀ before after u v op', as = before ++ .invoke v op' :: after → (system cfg).run s before = some u →
      A.mayInvoke v op' u.shared) :
    ∃ before after u g', as = before ++ .respond t :: after ∧ (system cfg).run s before = some u ∧
      TreeInv u.shared g' ∧ ∃ op' r', A.finished t op' r' (u.shared, g') := by
  have whole := Protocol.Strengthening.strengthen_sound (protocol_sound (.one t False) cfg) sound
  have start : A.strengthen.Good (system cfg) s g := by
    refine ⟨⟨h.good.1, inv⟩, fun u => ?_⟩
    simp only [h.all_idle idle u]
    exact ⟨h.good.of_idle (h.all_idle idle u), unused u⟩
  have may : ∀ before a after u, as = before ++ a :: after → (system cfg).run s before = some u →
      A.strengthen.May u a := by
    intro before a after u split run
    have may := System.throughout_iff.mp (h.throughout (done.oneClient below)) before a after u split run
    refine Protocol.Strengthening.strengthen_may may (fun v op' p next thread => ?_) fun v op' same => ?_
    · exact calls before a after u v op' p next split run thread
    · exact invokes before after u v op' (same ▸ split) run
  have responded : Event.respond t op r ∈ (system cfg).history s as := by
    rw [done.history]
    exact List.mem_cons_of_mem _ List.mem_cons_self
  obtain ⟨before, after, split⟩ := List.append_of_mem (respond_mem_of_history responded)
  obtain ⟨u, first, rest⟩ := (system cfg).run_append.mp (split ▸ done.run)
  obtain ⟨v, step, -⟩ := (system cfg).run_cons.mp rest
  have within : (system cfg).Throughout A.strengthen.May s before := by
    refine System.throughout_iff.mpr fun b a c u' split' run => may b a (c ++ .respond t :: after) u' ?_ run
    rw [split, split', List.append_assoc, List.cons_append]
  obtain ⟨g', good⟩ := Protocol.good_run whole start within first
  obtain ⟨-, -, ⟨op', r', -, -, finished, -⟩, -⟩ := Protocol.good_step whole good (may before _ after u split first) step
  exact ⟨before, after, u, g', split, first, good.1.1.tree, op', r', finished.2⟩

theorem OneRunning.startsAtRoot (h : OneRunning False cfg t m s g) (idle : s.threads t = .idle) {op : Op}
    {as : Schedule} {r : Result} (below : op.key < kKeyMax) (done : Completes cfg t s op as r s')
    (misleads : Misleads s.shared.view op.key (s.shared.cache (cfg.nodeOf t))) : StartsAtRoot cfg t s op as := by
  by_contra never
  have running : ∀ before a after u v op' p next, as = before ++ a :: after → (system cfg).run s before = some u →
      u.threads v = .running op' (.call p next) → u.shared.view = s.shared.view → ∀ root, p ≠ op.fromRoot root := by
    intro before a after u v op' p next split run thread same root atRoot
    subst atRoot
    have own : v = t := by
      obtain ⟨_, atU⟩ := h.run (fun w o mem => done.oneClient below w o (split ▸ List.mem_append_left _ mem)) run
      by_contra other
      rw [atU.idle v other] at thread
      cases thread
    subst own
    exact never ⟨before, _, u, op', root, next, split, run, thread, same⟩
  obtain ⟨_, _, _, _, _, _, _, _, _, ended⟩ := h.finishes idle done below
    (detecting_sound cfg t False s.shared.view op) ⟨rfl, misleads⟩ (fun _ => trivial) running
    fun before after u v op' split _ => (done.own (split ▸ List.mem_append_right before List.mem_cons_self)).2
  exact ended

theorem OneRunning.installs (h : OneRunning False cfg t m s g) (idle : s.threads t = .idle) {op : Op} {as : Schedule}
    {r : Result} (below : op.key < kKeyMax) (done : Completes cfg t s op as r s') (bottom : ∃ a, g.Linked a 1 kKeyMin) :
    ∃ g', TreeInv s'.shared g' ∧ OpEffect op (s.shared, g) (s'.shared, g') := by
  have once : ∀ before after u v op', as = before ++ .invoke v op' :: after → (system cfg).run s before = some u →
      op' = op ∧ u.shared.view = s.shared.view := by
    intro before after u v op' split run
    obtain ⟨-, same⟩ := done.own (split ▸ List.mem_append_right before List.mem_cons_self)
    obtain ⟨_, _, _, still⟩ := h.quiet idle run (done.silent_before split run)
    exact ⟨same, still.view⟩
  obtain ⟨before, after, u, g₁, split, run, tree, op', r', effect⟩ := h.finishes idle done below
    (installing_sound cfg t False (s.shared, g) op) ⟨bottom, fun _ _ _ => id⟩ (fun _ => trivial)
    (fun _ _ _ _ _ _ _ _ _ _ _ => trivial) once
  have own := done.oneClient below
  obtain ⟨u', first, rest⟩ := (system cfg).run_append.mp (split ▸ done.run)
  obtain rfl : u' = u := Option.some.inj (first.symm.trans run)
  obtain ⟨v, step, last⟩ := (system cfg).run_cons.mp rest
  obtain ⟨g₂, atU⟩ := h.run (fun w o mem => own w o (split ▸ List.mem_append_left _ mem)) run
  obtain ⟨g₃, atV, linked, -⟩ := atU.step (fun w o same => by cases same) step
  have silent := done.silent_after split run step
  have responded : v.shared = u'.shared ∧ v.threads t = .idle := by
    simp only [System.step] at step
    split at step
    · cases step
      exact ⟨rfl, State.setThread_same ..⟩
    · cases step
  obtain ⟨_, g', atEnd, still⟩ := atV.quiet responded.2 last silent
  have still : Still (u'.shared, g₂) (s'.shared, g') := .trans ⟨linked, by rw [responded.1]⟩ still
  refine ⟨g', atEnd.good.1.tree, effect.keep fun q hq r hr => ?_⟩
  have seen : LevelOne u'.shared q := tree.levelOne_iff.mpr hq
  exact still.installs q (atU.good.1.tree.levelOne_iff.mp seen) r hr

theorem OneRunning.linked_one (h : OneRunning False cfg t m s g) {p : InternalPage}
    (root : s.shared.view s.shared.rootPtr = some (.internal p)) : ∃ a, g.Linked a 1 kKeyMin := by
  obtain ⟨l, linked, -⟩ := h.good.1.tree.root
  obtain ⟨page, view, rfl, -⟩ := h.good.1.tree.linked_view linked
  rw [root, Option.some.injEq] at view
  subst view
  have ok : p.Ok := (h.good.1.tree.view_sound _ _ root).ok
  exact h.good.1.tree.start_at linked (Nat.one_le_iff_ne_zero.mpr ok.level)

end Run

/-! ## A copy that misleads -/

def splitBelow (c : Client) (sibling : GlobalAddress) : Schedule :=
  splitLeaf c sibling ++ [.interfere (.execute 0), .interfere (.execute 0)] ++ advances c 4 ++ storeEntry c

def regrowth : Schedule :=
  ((List.range 26).flatMap fun i => .invoke 0 (.insert (200 + i) 1) :: advances 0 10 ++ storeEntry 0 ++ [.respond 0]) ++
    .invoke 0 (.insert 250 1) :: advances 0 10 ++ splitBelow 0 ⟨0, 32⟩ ++ [.respond 0]

def searchIn (n : Nat) : Schedule := .invoke 0 (.search 225) :: advances 0 n ++ [.respond 0]

def CacheEntry.copy (p : InternalPage) : CacheEntry := ⟨p.hdr.lowest, p.hdr.highest - 1, some p⟩

def finds (s : State) (enabled : Bool) (cache : IndexCache) (n : Nat) : Bool :=
  match replays oneLock (s.setCache 0 enabled cache) (searchIn n) with
  | some (u, es) => (match u.threads 0 with
      | .idle => true
      | _ => false) && es = [.invoke 0 (.search 225), .respond 0 (.search 225) (.value (some 1))]
  | none => false

/-- The root page of state `s` is outdated in state `s'`, and a search with a copy of it takes longer. -/
def outdated (s s' : State) : Bool :=
  match s.shared.mem ⟨0, 24⟩, s'.threads 0, s'.shared.pending, s'.shared.mem ⟨0, 24⟩, s'.shared.mem ⟨0, 16⟩ with
  | some (.internal p), .idle, [], some (.internal _), some (.leaf right) =>
      p.hdr.level = 1 && s'.shared.rootPtr = ⟨0, 24⟩ && p.child 225 = ⟨0, 16⟩ && decide (right.hdr.highest ≤ 225) &&
        finds s' true [.copy p] 19 && finds s' false [.copy p] 12
  | _, _, _, _, _ => false

end Sherman
