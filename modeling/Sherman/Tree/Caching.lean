import Sherman.Tree.Structure
import Sherman.Cache.Lookup

namespace Sherman

open Concurrency IndexCache

theorem IndexCache.CacheStep.update {caches : NodeID → IndexCache} {n : NodeID} {cache' : IndexCache}
    (h : CacheStep (caches n) cache') (i : NodeID) :
    CacheStep (caches i) (Function.update caches n cache' i) := by
  by_cases same : i = n
  · subst same
    rwa [Function.update_self]
  · rw [Function.update_of_ne same]
    exact .same

theorem perform_cache {cfg : Config} {t : Client} {v : Verb} {choice : Choice} {s s' : Shared} {r : Resp v}
    (h : perform cfg t v choice s = some (r, s')) (n : NodeID) : CacheStep (s.cache n) (s'.cache n) := by
  cases v with
  | addToCache p =>
      cases h
      exact .update (.added p) n
  | invalidate e =>
      cases h
      exact .update (.invalidated e) n
  | alloc =>
      cases choice with
      | fresh a =>
          simp only [perform] at h
          split_ifs at h
          cases h
          exact .same
      | none => cases h
      | waiter b => cases h
  | canHandOver la =>
      cases choice with
      | waiter b =>
          cases h
          exact .same
      | none => cases h
      | fresh a => cases h
  | _ =>
      simp only [perform] at h
      try split_ifs at h
      all_goals
        cases h
        exact .same

theorem interfere_cache {e : Env} {s s' : Shared} (h : interfere e s = some s') (n : NodeID) :
    CacheStep (s.cache n) (s'.cache n) := by
  cases e with
  | execute i =>
      obtain ⟨x, executed⟩ := Shared.executed_of_interfere h
      rw [executed.cache]
      exact .same
  | deliver m i =>
      simp only [interfere] at h
      split at h
      · cases h
      · cases h
        exact .same
  | evict m e =>
      cases h
      exact .update (.invalidated e) n

section Run
variable {cfg : Config} {s s' : State} {a : Action Client Op Choice Env} {as : List (Action Client Op Choice Env)}

theorem cache_step (step : (system cfg).step s a = some s') (n : NodeID) :
    CacheStep (s.shared.cache n) (s'.shared.cache n) := by
  cases a with
  | invoke t op =>
      simp only [System.step] at step
      split at step
      · cases step
        exact .same
      · cases step
  | respond t =>
      simp only [System.step] at step
      split at step
      · cases step
        exact .same
      · cases step
  | interfere e =>
      simp only [System.step] at step
      split at step
      · cases step
      · rename_i shared result
        cases step
        exact interfere_cache result n
  | advance t choice =>
      simp only [System.step] at step
      split at step
      · cases step
      · rename_i op rest _
        cases rest with
        | ret r => cases step
        | fault e => cases step
        | call p next =>
            cases step
            exact .same
        | verb v next =>
            simp only [System.advance] at step
            split at step
            · cases step
            · rename_i r shared result
              cases step
              exact perform_cache result n

theorem cache_ok_step {g : Ghost} (good : (protocol .any cfg).Good (system cfg) s' g) {n : NodeID}
    (ok : (s.shared.cache n).Ok) (h : CacheStep (s.shared.cache n) (s'.shared.cache n)) :
    (s'.shared.cache n).Ok := by
  have sound := good.1.tree.cache n
  have copies : ∀ x ∈ s'.shared.cache n, ∀ p, x.ptr = some p →
      x.fromKey = p.hdr.lowest ∧ x.toKey + 1 = p.hdr.highest ∧ p.hdr.lowest < p.hdr.highest := by
    intro x hx p live
    have entry := sound x hx p live
    have fence := entry.ok.fence
    exact ⟨entry.fromKey, by rw [entry.toKey, Nat.sub_add_cancel (Nat.one_le_of_lt fence)], fence⟩
  refine ⟨h.ordered ok.ordered, fun x hx => ?_, fun x hx p live => ⟨(copies x hx p live).1, (copies x hx p live).2.1⟩⟩
  rcases h.proper ok hx with proper | ⟨p, live⟩
  · exact proper
  · obtain ⟨low, high, fence⟩ := copies x hx p live
    rw [low]
    exact Nat.le_of_lt_succ (fence.trans_eq high.symm)

theorem cache_ok_run {g : Ghost} (good : (protocol .any cfg).Good (system cfg) s g)
    (ok : ∀ n, (s.shared.cache n).Ok) (keys : KeysBelow as) (run : (system cfg).run s as = some s') (n : NodeID) :
    (s'.shared.cache n).Ok := by
  induction as generalizing s g with
  | nil =>
      cases run
      exact ok n
  | cons a as ih =>
      obtain ⟨m, step, rest⟩ := (system cfg).run_cons.mp run
      have may : (protocol .any cfg).May s a := may_any fun t op h => keys t op (by simp [h])
      obtain ⟨g', good', -, -⟩ := Protocol.good_step (protocol_sound .any cfg) good may step
      exact ih good' (fun i => cache_ok_step good' (ok i) (cache_step step i))
        (fun t op later => keys t op (List.mem_cons_of_mem a later)) rest

theorem reachable_cache_ok (h : Reachable cfg s) (n : NodeID) : (s.shared.cache n).Ok := by
  obtain ⟨root, as, nonnull, keys, run⟩ := h
  exact cache_ok_run (init_good .any cfg nonnull) (fun _ => IndexCache.ok_nil) keys run n

end Run

end Sherman
