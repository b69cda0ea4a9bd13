import Sherman.Tree.Invariant

namespace Sherman

open Shared

theorem node_of_target {w : Write} {a : GlobalAddress} (h : w.target = some a) :
    w.node = a.nodeID := by
  cases w with
  | unlock la => cases h
  | page b p => rw [← Option.some.inj h]; rfl
  | entry b i r => rw [← Option.some.inj h]; rfl

namespace LockInv
variable {cfg : Config} {s s' : Shared} {g g' : Ghost}

theorem quiet_of_holding (inv : LockInv cfg s g) {a : GlobalAddress} {c : Client}
    (held : g.holding (cfg.lockAddr a) = some c) (linked : g.owner a = none) : s.Quiet a := by
  intro z hz target
  rw [(inv.linked_write z hz a target linked).1] at held
  cases held

theorem quiet_of_private (inv : LockInv cfg s g) {a : GlobalAddress} {c : Client}
    (owner : g.owner a = some c) (drained : s.drained c a.nodeID) : s.Quiet a :=
  quiet_of_drained drained fun z hz target => inv.private_write z hz a c target owner

theorem no_unlock_of_holding (inv : LockInv cfg s g) {la : GlobalAddress} {c : Client}
    (held : g.holding la = some c) : ∀ z ∈ s.pending, z.write ≠ .unlock la := by
  intro z hz unlock
  rw [(inv.unlocking z hz la unlock).1] at held
  cases held

theorem reowner (inv : LockInv cfg s g) (pending : s'.pending = s.pending) (lock : s'.lock = s.lock)
    (holding : g'.holding = g.holding) (info : ∀ a, (g.info a).isSome → (g'.info a).isSome)
    (owner : ∀ a, ¬ s.Quiet a → g'.owner a = g.owner a) : LockInv cfg s' g' := by
  have same : ∀ z ∈ s.pending, ∀ a, z.write.target = some a → g'.owner a = g.owner a :=
    fun z hz a target => owner a fun quiet => quiet z hz target
  refine ⟨?_, ?_, ?_, ?_, ?_, ?_, ?_, ?_⟩
  · rw [holding, lock]
    exact inv.holding
  · rw [pending]
    exact fun z hz a target => info a (inv.written z hz a target)
  · rw [pending]
    exact fun z hz a c target h => inv.private_write z hz a c target (same z hz a target ▸ h)
  · rw [pending, holding, lock]
    exact fun z hz a target h => inv.linked_write z hz a target (same z hz a target ▸ h)
  · rw [pending, holding, lock]
    exact inv.unlocking
  · rw [Single, pending]
    exact inv.single
  · rw [pending]
    refine inv.ordered.imp_of_mem fun {z z'} _ hz' h a unlock target => ?_
    rw [same z' hz' a target]
    exact h a unlock target
  · rw [pending]
    exact inv.unlock_once

theorem congr (inv : LockInv cfg s g) (pending : s'.pending = s.pending) (lock : s'.lock = s.lock)
    (holding : g'.holding = g.holding) (info : g'.info = g.info) (owner : g'.owner = g.owner) :
    LockInv cfg s' g' :=
  inv.reowner pending lock holding (fun a h => by rw [info]; exact h) fun a _ => by rw [owner]

theorem execute (inv : LockInv cfg s g) {x : Posted} (executed : s.Executed x s') :
    LockInv cfg s' g := by
  have sub := executed.pending_sub
  -- whoever still relies on the lock word of an executed unlock would have been executed before
  have kept : ∀ la, x.write = .unlock la → g.holding la = none ∧
      (∀ z ∈ s'.pending, ∀ a, z.write.target = some a → g.owner a = none → cfg.lockAddr a ≠ la) ∧
      ∀ z ∈ s'.pending, z.write ≠ .unlock la := by
    intro la unlock
    have own := inv.unlocking x executed.mem_pending la unlock
    have ordered := inv.ordered
    have once := inv.unlock_once
    obtain ⟨before, after, all, rest, first⟩ := executed.split
    rw [all, List.pairwise_append, List.pairwise_cons] at ordered once
    refine ⟨own.1, fun z hz a target linked same => ?_, fun z hz again => ?_⟩
    · subst same
      have client := inv.unlock_client executed.mem_pending (sub z hz) unlock target linked
      rw [rest, List.mem_append] at hz
      rcases hz with hz | hz
      · refine first z hz client ?_
        rw [node_of_target target, unlock]
        rfl
      · exact ordered.2.1.1 z hz a unlock target linked
    · rw [rest, List.mem_append] at hz
      rcases hz with hz | hz
      · exact once.2.2 z hz x (by simp) la again unlock
      · exact once.2.1.1 z hz la unlock again
  refine ⟨fun la c held => ?_, fun z hz => inv.written z (sub z hz),
    fun z hz => inv.private_write z (sub z hz), fun z hz a target linked => ?_,
    fun z hz la unlock => ?_, executed.single inv.single, inv.ordered.sublist executed.sublist,
    inv.unlock_once.sublist executed.sublist⟩
  · rw [executed.lock, if_neg]
    · exact inv.holding la c held
    · intro unlock
      rw [(kept la unlock).1] at held
      cases held
  · rw [executed.lock, if_neg]
    · exact inv.linked_write z (sub z hz) a target linked
    · exact fun unlock => (kept _ unlock).2.1 z hz a target linked rfl
  · rw [executed.lock, if_neg]
    · exact inv.unlocking z (sub z hz) la unlock
    · exact fun unlock' => (kept la unlock').2.2 z hz unlock

theorem postPrivate (inv : LockInv cfg s g) {c : Client} {a : GlobalAddress} {page : Page}
    (owner : g.owner a = some c) (info : (g.info a).isSome) (quiet : s.Quiet a) :
    LockInv cfg (s.post c (.page a page)) g := by
  refine ⟨inv.holding, fun z hz b target => ?_, fun z hz b d target h => ?_,
    fun z hz b target h => ?_, fun z hz la unlock => ?_, inv.single.post fun b target => ?_, ?_, ?_⟩
  · rcases mem_post.mp hz with hz | rfl
    · exact inv.written z hz b target
    · exact Option.some.inj target ▸ info
  · rcases mem_post.mp hz with hz | rfl
    · exact inv.private_write z hz b d target h
    · rw [← Option.some.inj target, owner] at h
      exact Option.some.inj h
  · rcases mem_post.mp hz with hz | rfl
    · exact inv.linked_write z hz b target h
    · rw [← Option.some.inj target, owner] at h
      cases h
  · rcases mem_post.mp hz with hz | rfl
    · exact inv.unlocking z hz la unlock
    · cases unlock
  · exact Option.some.inj target ▸ quiet
  · refine List.pairwise_append.mpr ⟨inv.ordered, List.pairwise_singleton _ _, fun z _ z' hz' b _ target => ?_⟩
    rw [List.mem_singleton.mp hz'] at target
    rw [← Option.some.inj target, owner]
    exact Option.some_ne_none c
  · refine List.pairwise_append.mpr ⟨inv.unlock_once, List.pairwise_singleton _ _, fun z _ z' hz' la _ => ?_⟩
    rw [List.mem_singleton.mp hz']
    exact Write.noConfusion

theorem postLinked (inv : LockInv cfg s g) {c : Client} {a : GlobalAddress} {w : Write}
    (target : w.target = some a) (linked : g.owner a = none) (info : (g.info a).isSome)
    (held : g.holding (cfg.lockAddr a) = some c) (sameInfo : g'.info = g.info)
    (owner : g'.owner = g.owner)
    (holding : g'.holding = Function.update g.holding (cfg.lockAddr a) none) :
    LockInv cfg (s.post c w) g' := by
  have notUnlock : ∀ la, w ≠ .unlock la := by
    rintro la rfl
    cases target
  have quiet := inv.quiet_of_holding held linked
  have released : ∀ la, g.holding la = none → g'.holding la = none := by
    intro la h
    rw [holding]
    by_cases same : la = cfg.lockAddr a
    · simp [same]
    · simp [same, h]
  refine ⟨fun la d h => ?_, fun z hz b hb => ?_, fun z hz b d hb h => ?_, fun z hz b hb h => ?_,
    fun z hz la unlock => ?_, inv.single.post fun b hb => ?_, ?_, ?_⟩
  · rw [holding] at h
    by_cases same : la = cfg.lockAddr a
    · simp [same] at h
    · rw [Function.update_of_ne same] at h
      exact inv.holding la d h
  · rw [sameInfo]
    rcases mem_post.mp hz with hz | rfl
    · exact inv.written z hz b hb
    · rw [target] at hb
      exact Option.some.inj hb ▸ info
  · rw [owner] at h
    rcases mem_post.mp hz with hz | rfl
    · exact inv.private_write z hz b d hb h
    · rw [target] at hb
      rw [← Option.some.inj hb, linked] at h
      cases h
  · rw [owner] at h
    rcases mem_post.mp hz with hz | rfl
    · exact ⟨released _ (inv.linked_write z hz b hb h).1, (inv.linked_write z hz b hb h).2⟩
    · rw [target] at hb
      rw [← Option.some.inj hb, holding]
      exact ⟨Function.update_self _ _ _, inv.holding _ c held⟩
  · rcases mem_post.mp hz with hz | rfl
    · exact ⟨released _ (inv.unlocking z hz la unlock).1, (inv.unlocking z hz la unlock).2⟩
    · exact absurd unlock (notUnlock la)
  · rw [target] at hb
    exact Option.some.inj hb ▸ quiet
  · rw [owner]
    refine List.pairwise_append.mpr ⟨inv.ordered, List.pairwise_singleton _ _,
      fun z hz z' hz' b unlock hb => ?_⟩
    rw [List.mem_singleton.mp hz', target] at hb
    rw [← Option.some.inj hb] at unlock
    exact absurd unlock (inv.no_unlock_of_holding held z hz)
  · refine List.pairwise_append.mpr ⟨inv.unlock_once, List.pairwise_singleton _ _,
      fun z _ z' hz' la _ => ?_⟩
    rw [List.mem_singleton.mp hz']
    exact notUnlock la

theorem postUnlock (inv : LockInv cfg s g) {c : Client} {la : GlobalAddress}
    (lock : s.lock la = some (c, false)) (once : ∀ z ∈ s.pending, z.write ≠ .unlock la)
    (info : g'.info = g.info) (owner : g'.owner = g.owner)
    (holding : g'.holding = Function.update g.holding la none) :
    LockInv cfg (s.post c (.unlock la)) g' := by
  have released : ∀ lb, g.holding lb = none → g'.holding lb = none := by
    intro lb h
    rw [holding]
    by_cases same : lb = la
    · simp [same]
    · simp [same, h]
  refine ⟨fun lb d h => ?_, fun z hz b hb => ?_, fun z hz b d hb h => ?_, fun z hz b hb h => ?_,
    fun z hz lb unlock => ?_, inv.single.post fun b hb => ?_, ?_, ?_⟩
  · rw [holding] at h
    by_cases same : lb = la
    · simp [same] at h
    · rw [Function.update_of_ne same] at h
      exact inv.holding lb d h
  · rw [info]
    rcases mem_post.mp hz with hz | rfl
    · exact inv.written z hz b hb
    · cases hb
  · rw [owner] at h
    rcases mem_post.mp hz with hz | rfl
    · exact inv.private_write z hz b d hb h
    · cases hb
  · rw [owner] at h
    rcases mem_post.mp hz with hz | rfl
    · exact ⟨released _ (inv.linked_write z hz b hb h).1, (inv.linked_write z hz b hb h).2⟩
    · cases hb
  · rcases mem_post.mp hz with hz | rfl
    · exact ⟨released _ (inv.unlocking z hz lb unlock).1, (inv.unlocking z hz lb unlock).2⟩
    · cases unlock
      exact ⟨by rw [holding, Function.update_self], lock⟩
  · cases hb
  · rw [owner]
    refine List.pairwise_append.mpr ⟨inv.ordered, List.pairwise_singleton _ _,
      fun z _ z' hz' b _ hb => ?_⟩
    rw [List.mem_singleton.mp hz'] at hb
    cases hb
  · refine List.pairwise_append.mpr ⟨inv.unlock_once, List.pairwise_singleton _ _,
      fun z hz z' hz' lb unlock again => ?_⟩
    rw [List.mem_singleton.mp hz'] at again
    cases again
    exact once z hz unlock

theorem relock (inv : LockInv cfg s g) {la : GlobalAddress} {owner : Option (Client × Bool)}
    {holder : Option Client}
    (idle : ∀ z ∈ s.pending, z.write ≠ .unlock la ∧
      ∀ a, z.write.target = some a → g.owner a = none → cfg.lockAddr a ≠ la)
    (holds : ∀ c, holder = some c → ∃ b, owner = some (c, b))
    (info : g'.info = g.info) (sameOwner : g'.owner = g.owner)
    (holding : g'.holding = Function.update g.holding la holder) :
    LockInv cfg { s with lock := Function.update s.lock la owner } g' := by
  refine ⟨fun lb d h => ?_, ?_, ?_, fun z hz a target h => ?_, fun z hz lb unlock => ?_, inv.single, ?_,
    inv.unlock_once⟩
  · rw [holding] at h
    by_cases same : lb = la
    · subst same
      rw [Function.update_self] at h
      simpa using holds d h
    · rw [Function.update_of_ne same] at h
      simpa [same] using inv.holding lb d h
  · rw [info]
    exact inv.written
  · rw [sameOwner]
    exact inv.private_write
  · rw [sameOwner] at h
    have other := (idle z hz).2 a target h
    simpa [holding, other] using inv.linked_write z hz a target h
  · have other : lb ≠ la := by
      rintro rfl
      exact (idle z hz).1 unlock
    simpa [holding, other] using inv.unlocking z hz lb unlock
  · rw [sameOwner]
    exact inv.ordered

theorem idle_of_free (inv : LockInv cfg s g) {la : GlobalAddress} (free : s.lock la = none) :
    ∀ z ∈ s.pending, z.write ≠ .unlock la ∧
      ∀ a, z.write.target = some a → g.owner a = none → cfg.lockAddr a ≠ la := by
  refine fun z hz => ⟨fun unlock => ?_, ?_⟩
  · rw [(inv.unlocking z hz la unlock).2] at free
    cases free
  · rintro a target linked rfl
    obtain ⟨-, b, lock⟩ := inv.linked_write z hz a target linked
    rw [lock] at free
    cases free

theorem idle_of_holding (inv : LockInv cfg s g) {la : GlobalAddress} {c : Client}
    (held : g.holding la = some c) : ∀ z ∈ s.pending, z.write ≠ .unlock la ∧
      ∀ a, z.write.target = some a → g.owner a = none → cfg.lockAddr a ≠ la := by
  refine fun z hz => ⟨inv.no_unlock_of_holding held z hz, ?_⟩
  rintro a target linked rfl
  exact inv.quiet_of_holding held linked z hz target

theorem idle_of_drained (inv : LockInv cfg s g) {la : GlobalAddress} {c : Client}
    (lock : s.lock la = some (c, true)) (drained : s.drained c la.nodeID) :
    ∀ z ∈ s.pending, z.write ≠ .unlock la ∧
      ∀ a, z.write.target = some a → g.owner a = none → cfg.lockAddr a ≠ la := by
  refine fun z hz => ⟨fun unlock => ?_, ?_⟩
  · have := (inv.unlocking z hz la unlock).2
    rw [lock] at this
    cases this
  · rintro a target linked rfl
    obtain ⟨-, b, lock'⟩ := inv.linked_write z hz a target linked
    rw [lock, Option.some.injEq, Prod.mk.injEq] at lock'
    have node : z.write.node = a.nodeID := node_of_target target
    exact drained z hz lock'.1.symm node

end LockInv
end Sherman
