import Sherman.Tree.Machine

namespace Sherman
namespace Shared

def Quiet (s : Shared) (a : GlobalAddress) : Prop := ∀ x ∈ s.pending, x.write.target ≠ some a

def post (s : Shared) (c : Client) (w : Write) : Shared :=
  { s with pending := s.pending ++ [⟨c, w⟩] }

@[simp] theorem post_mem (s : Shared) (c : Client) (w : Write) : (s.post c w).mem = s.mem := rfl
@[simp] theorem post_rootPtr (s : Shared) (c : Client) (w : Write) :
    (s.post c w).rootPtr = s.rootPtr := rfl
@[simp] theorem post_lock (s : Shared) (c : Client) (w : Write) : (s.post c w).lock = s.lock := rfl
@[simp] theorem post_allocated (s : Shared) (c : Client) (w : Write) :
    (s.post c w).allocated = s.allocated := rfl
@[simp] theorem post_sent (s : Shared) (c : Client) (w : Write) : (s.post c w).sent = s.sent := rfl
@[simp] theorem post_dir (s : Shared) (c : Client) (w : Write) : (s.post c w).dir = s.dir := rfl
@[simp] theorem post_cache (s : Shared) (c : Client) (w : Write) : (s.post c w).cache = s.cache := rfl
@[simp] theorem post_path (s : Shared) (c : Client) (w : Write) : (s.post c w).path = s.path := rfl

theorem mem_post {s : Shared} {c : Client} {w : Write} {x : Posted} :
    x ∈ (s.post c w).pending ↔ x ∈ s.pending ∨ x = ⟨c, w⟩ := by
  simp [post]

theorem view_post (s : Shared) (c : Client) (w : Write) (a : GlobalAddress) :
    (s.post c w).view a = if w.target = some a then w.apply (s.view a) else s.view a := by
  simp [view, post]

theorem view_post_other {s : Shared} {c : Client} {w : Write} {a : GlobalAddress}
    (h : w.target ≠ some a) : (s.post c w).view a = s.view a := by
  rw [view_post, if_neg h]

theorem view_post_page (s : Shared) (c : Client) (a : GlobalAddress) (p : Page) :
    (s.post c (.page a p)).view a = some p := by
  simp [view_post, Write.target, Write.apply]

theorem view_post_page_other {s : Shared} {c : Client} {a b : GlobalAddress} {p : Page} (h : b ≠ a) :
    (s.post c (.page a p)).view b = s.view b :=
  view_post_other fun same => h (Option.some.inj same).symm

theorem post_pair (s : Shared) (c : Client) (w w' : Write) :
    { s with pending := s.pending ++ [w, w'].map (⟨c, ·⟩) } = (s.post c w).post c w' := by
  simp [post]

theorem view_congr {s s' : Shared} (mem : s'.mem = s.mem) (pending : s'.pending = s.pending) :
    s'.view = s.view := by
  funext a
  rw [view, view, mem, pending]

theorem foldl_quiet {l : List Posted} {a : GlobalAddress}
    (quiet : ∀ x ∈ l, x.write.target ≠ some a) (page : Option Page) :
    l.foldl (fun page x => if x.write.target = some a then x.write.apply page else page) page =
      page := by
  induction l with
  | nil => rfl
  | cons x l ih =>
      rw [List.foldl_cons, if_neg (quiet x (by simp))]
      exact ih fun y hy => quiet y (by simp [hy])

theorem Quiet.view {s : Shared} {a : GlobalAddress} (quiet : s.Quiet a) : s.view a = s.mem a :=
  foldl_quiet quiet _

/-! ## Executing -/

theorem execute_mem (s : Shared) (w : Write) (a : GlobalAddress) :
    (s.execute w).mem a = if w.target = some a then w.apply (s.mem a) else s.mem a := by
  cases w with
  | unlock la => simp [execute, Write.target]
  | page b p =>
      by_cases same : b = a
      · subst same
        simp [execute, Write.target, Write.apply]
      · simp [execute, Write.target, same, Ne.symm same]
  | entry b i r =>
      by_cases same : b = a
      · subst same
        simp [execute, Write.target]
      · simp [execute, Write.target, same, Ne.symm same]

theorem execute_lock (s : Shared) (w : Write) (la : GlobalAddress) :
    (s.execute w).lock la = if w = .unlock la then none else s.lock la := by
  cases w with
  | unlock lb =>
      by_cases same : lb = la
      · subst same
        simp [execute]
      · simp [execute, same, Ne.symm same]
  | page b p => simp [execute]
  | entry b i r => simp [execute]

@[simp] theorem execute_pending (s : Shared) (w : Write) : (s.execute w).pending = s.pending := by
  cases w <;> rfl
@[simp] theorem execute_rootPtr (s : Shared) (w : Write) : (s.execute w).rootPtr = s.rootPtr := by
  cases w <;> rfl
@[simp] theorem execute_allocated (s : Shared) (w : Write) :
    (s.execute w).allocated = s.allocated := by
  cases w <;> rfl
@[simp] theorem execute_sent (s : Shared) (w : Write) : (s.execute w).sent = s.sent := by
  cases w <;> rfl
@[simp] theorem execute_dir (s : Shared) (w : Write) : (s.execute w).dir = s.dir := by
  cases w <;> rfl
@[simp] theorem execute_cache (s : Shared) (w : Write) : (s.execute w).cache = s.cache := by
  cases w <;> rfl
@[simp] theorem execute_path (s : Shared) (w : Write) : (s.execute w).path = s.path := by
  cases w <;> rfl

structure Executed (s : Shared) (x : Posted) (s' : Shared) : Prop where
  split : ∃ before after, s.pending = before ++ x :: after ∧ s'.pending = before ++ after ∧
    ∀ y ∈ before, y.client = x.client → y.write.node ≠ x.write.node
  result : ∃ pending, s' = { s with pending := pending }.execute x.write

theorem executed_of_interfere {s s' : Shared} {i : Nat} (h : interfere (.execute i) s = some s') :
    ∃ x, s.Executed x s' := by
  unfold interfere at h
  simp only at h
  split at h
  · cases h
  · rename_i x found
    split at h
    · rename_i first
      cases h
      obtain ⟨bound, rfl⟩ := List.getElem?_eq_some_iff.mp found
      refine ⟨_, ⟨s.pending.take i, s.pending.drop (i + 1), ?_, ?_, first⟩, _, rfl⟩
      · simp
      · rw [execute_pending, List.eraseIdx_eq_take_drop_succ]
    · cases h

namespace Executed
variable {s s' : Shared} {x : Posted}

theorem mem_pending (h : s.Executed x s') : x ∈ s.pending := by
  obtain ⟨before, after, all, -, -⟩ := h.split
  simp [all]

theorem pending_sub (h : s.Executed x s') : ∀ y ∈ s'.pending, y ∈ s.pending := by
  obtain ⟨before, after, all, rest, -⟩ := h.split
  intro y hy
  rw [rest, List.mem_append] at hy
  rw [all, List.mem_append, List.mem_cons]
  tauto

theorem sublist (h : s.Executed x s') : s'.pending.Sublist s.pending := by
  obtain ⟨before, after, all, rest, -⟩ := h.split
  rw [all, rest]
  exact (List.Sublist.refl before).append (List.sublist_cons_self x after)

theorem pending_or (h : s.Executed x s') {y : Posted} (hy : y ∈ s.pending) :
    y ∈ s'.pending ∨ y = x := by
  obtain ⟨before, after, all, rest, -⟩ := h.split
  rw [all, List.mem_append, List.mem_cons] at hy
  rw [rest, List.mem_append]
  tauto

theorem mem (h : s.Executed x s') (a : GlobalAddress) :
    s'.mem a = if x.write.target = some a then x.write.apply (s.mem a) else s.mem a := by
  obtain ⟨_, rfl⟩ := h.result
  rw [execute_mem]

theorem mem_other (h : s.Executed x s') {a : GlobalAddress} (other : x.write.target ≠ some a) :
    s'.mem a = s.mem a := by
  rw [h.mem, if_neg other]

theorem lock (h : s.Executed x s') (la : GlobalAddress) :
    s'.lock la = if x.write = .unlock la then none else s.lock la := by
  obtain ⟨_, rfl⟩ := h.result
  rw [execute_lock]

theorem rootPtr (h : s.Executed x s') : s'.rootPtr = s.rootPtr := by
  obtain ⟨_, rfl⟩ := h.result
  simp

theorem allocated (h : s.Executed x s') : s'.allocated = s.allocated := by
  obtain ⟨_, rfl⟩ := h.result
  simp

theorem sent (h : s.Executed x s') : s'.sent = s.sent := by
  obtain ⟨_, rfl⟩ := h.result
  simp

theorem dir (h : s.Executed x s') : s'.dir = s.dir := by
  obtain ⟨_, rfl⟩ := h.result
  simp

theorem cache (h : s.Executed x s') : s'.cache = s.cache := by
  obtain ⟨_, rfl⟩ := h.result
  simp

theorem path (h : s.Executed x s') : s'.path = s.path := by
  obtain ⟨_, rfl⟩ := h.result
  simp

end Executed

def Single (s : Shared) : Prop :=
  s.pending.Pairwise fun x y => ∀ a, x.write.target = some a → y.write.target ≠ some a

namespace Executed
variable {s s' : Shared} {x : Posted}

theorem quiet (h : s.Executed x s') (single : s.Single) {a : GlobalAddress}
    (target : x.write.target = some a) : s'.Quiet a := by
  obtain ⟨before, after, all, rest, -⟩ := h.split
  rw [Single, all, List.pairwise_append, List.pairwise_cons] at single
  intro y hy same
  rw [rest, List.mem_append] at hy
  rcases hy with hy | hy
  · exact single.2.2 y hy x (by simp) a same target
  · exact single.2.1.1 y hy a target same

theorem view_target (h : s.Executed x s') (single : s.Single) {a : GlobalAddress}
    (target : x.write.target = some a) : s.view a = x.write.apply (s.mem a) := by
  have quiet := h.quiet single target
  obtain ⟨before, after, all, rest, -⟩ := h.split
  simp only [Quiet, rest, List.mem_append, or_imp, forall_and] at quiet
  rw [Shared.view, all, List.foldl_append, List.foldl_cons, if_pos target, foldl_quiet quiet.1,
    foldl_quiet quiet.2]

theorem mem_target (h : s.Executed x s') (single : s.Single) {a : GlobalAddress}
    (target : x.write.target = some a) : s'.mem a = s.view a := by
  rw [h.mem, if_pos target, h.view_target single target]

theorem view (h : s.Executed x s') (single : s.Single) : s'.view = s.view := by
  funext a
  by_cases target : x.write.target = some a
  · rw [(h.quiet single target).view, h.mem_target single target]
  · have mem := h.mem_other target
    obtain ⟨before, after, all, rest, -⟩ := h.split
    rw [Shared.view, Shared.view, all, rest, List.foldl_append, List.foldl_append, List.foldl_cons,
      if_neg target, mem]

theorem single (h : s.Executed x s') (single : s.Single) : s'.Single :=
  List.Pairwise.sublist h.sublist single

end Executed

theorem Single.post {s : Shared} (single : s.Single) {c : Client} {w : Write}
    (fresh : ∀ a, w.target = some a → s.Quiet a) : (s.post c w).Single := by
  rw [Single, Shared.post, List.pairwise_append]
  refine ⟨single, List.pairwise_singleton _ _, fun x hx y hy a target => ?_⟩
  rw [List.mem_singleton.mp hy]
  exact fun same => fresh a same x hx target

theorem quiet_of_drained {s : Shared} {c : Client} {a : GlobalAddress}
    (drained : s.drained c a.nodeID) (own : ∀ x ∈ s.pending, x.write.target = some a → x.client = c) :
    s.Quiet a := by
  intro x hx target
  refine drained x hx (own x hx target) ?_
  cases w : x.write with
  | unlock la => simp [w, Write.target] at target
  | page b p =>
      simp only [w, Write.target, Option.some.injEq] at target
      rw [Write.node, target]
  | entry b i r =>
      simp only [w, Write.target, Option.some.injEq] at target
      rw [Write.node, target]

end Shared
end Sherman
