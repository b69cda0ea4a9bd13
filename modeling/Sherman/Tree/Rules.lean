import Sherman.Tree.Environment

namespace Sherman

open Shared Concurrency

variable {m : Mode} {cfg : Config} {t : Client}

abbrev Runs (m : Mode) (cfg : Config) (t : Client) {α : Type} (prog : Code α) (Q : α → World → Prop)
    (w : World) : Prop :=
  (protocol m cfg).wp (system cfg) t prog Q w

/-! ## What is kept -/

structure Keeps (m : Mode) (t : Client) (w w' : World) : Prop extends Extends m w w' where
  path : w'.1.path t = w.1.path t
  owed : ∀ a, w.2.owed a = some t → w'.2.owed a = some t
  status : StatusLe t w w'

structure Steady (m : Mode) (cfg : Config) (t : Client) (w w' : World) : Prop extends Keeps m t w w' where
  holding : ∀ la, w.2.holding la = some t → w'.2.holding la = some t
  held : ∀ a l x, w.2.holding (cfg.lockAddr a) = some t → w.2.Linked a l x → w'.1.mem a = w.1.mem a
  written : ∀ b page, Written t w.1 w.2 b page → Written t w'.1 w'.2 b page

def Settles (t : Client) (w w' : World) : Prop :=
  ∀ z ∈ w'.1.pending, z.client = t → z ∈ w.1.pending

theorem Keeps.refl (m : Mode) (t : Client) (w : World) : Keeps m t w w :=
  ⟨.refl m w, rfl, fun _ h => h, .refl t w⟩

theorem Keeps.trans {u v w : World} (h : Keeps m t u v) (h' : Keeps m t v w) : Keeps m t u w :=
  ⟨h.toExtends.trans h'.toExtends, h'.path.trans h.path, fun a ha => h'.owed a (h.owed a ha),
    h.status.trans h'.status⟩

theorem Steady.refl (m : Mode) (cfg : Config) (t : Client) (w : World) : Steady m cfg t w w :=
  ⟨.refl m t w, fun _ h => h, fun _ _ _ _ _ => rfl, fun _ _ h => h⟩

theorem Steady.trans {u v w : World} (h : Steady m cfg t u v) (h' : Steady m cfg t v w) :
    Steady m cfg t u w :=
  ⟨h.toKeeps.trans h'.toKeeps, fun la hl => h'.holding la (h.holding la hl),
    fun a l x hl hk => (h'.held a l x (h.holding _ hl) (h.linked a l x hk)).trans (h.held a l x hl hk),
    fun b page hb => h'.written b page (h.written b page hb)⟩

theorem Settles.trans {u v w : World} (h : Settles t u v) (h' : Settles t v w) : Settles t u w :=
  fun z hz hc => h z (h' z hz hc) hc

theorem Settles.drained {w w' : World} (h : Settles t w w') {n : NodeID} (drained : w.1.drained t n) :
    w'.1.drained t n :=
  fun z hz hc => drained z (h z hz hc) hc

theorem Rely.extends {w w' : World} (h : Rely m cfg t w w') : Extends m w w' :=
  ⟨h.linked, h.reach, h.enabled, h.rooted⟩

theorem Rely.keeps {w w' : World} (h : Rely m cfg t w w') : Keeps m t w w' :=
  ⟨h.extends, h.path, h.owed, h.status⟩

theorem Rely.written {w w' : World} (h : Rely m cfg t w w') {b : GlobalAddress} {page : Page}
    (new : Written t w.1 w.2 b page) : Written t w'.1 w'.2 b page := by
  obtain ⟨quiet, view⟩ := h.private_ b new.owner
  refine ⟨(h.owner b new.owner).1, ?_, quiet new.quiet⟩
  rw [← (quiet new.quiet).view, view, new.quiet.view]
  exact new.mem

theorem Rely.steady {w w' : World} (h : Rely m cfg t w w') : Steady m cfg t w w' :=
  ⟨h.keeps, fun la hl => (h.holding la hl).1, h.held, fun _ _ => h.written⟩

theorem Rely.settles {w w' : World} (h : Rely m cfg t w w') : Settles t w w' := h.pending

theorem Guarantee.extends {v : Verb} {w w' : World} (h : Guarantee m cfg t v w w') : Extends m w w' :=
  (h.rely (t + 1) (Nat.succ_ne_self t)).extends

theorem Frame.extends {w w' : World} (h : Frame m cfg t w w') : Extends m w w' :=
  (h.rely (t + 1) (Nat.succ_ne_self t)).extends

theorem Frame.keeps {w w' : World} (h : Frame m cfg t w w') (path : w'.1.path t = w.1.path t)
    (owed : ∀ a, w.2.owed a = some t → w'.2.owed a = some t) : Keeps m t w w' :=
  ⟨h.extends, path, owed, .inl (congrFun h.status t)⟩

/-! ### Facts that are kept -/

section Path
variable {w w' : World} {k : Key} {root : GlobalAddress}

theorem PathOk.extend {l : Nat} (ok : PathOk t l k w) (h : Extends m w w')
    (path : w'.1.path t = w.1.path t) : PathOk t l k w' := by
  intro i low
  rw [path]
  exact (ok i low).imp id fun ⟨x, le, linked⟩ => ⟨x, le, h.linked _ _ _ linked⟩

theorem Cover.extend {l : Nat} (cover : Cover m t l root w) (h : Extends m w w')
    (path : w'.1.path t = w.1.path t) : Cover m t l root w' := by
  obtain ⟨top, linked, full⟩ := cover
  refine ⟨top, h.linked _ _ _ linked, ?_⟩
  rw [path]
  exact full

theorem Route.extend {fromCache : Bool} (route : Route m cfg t k root fromCache w) (h : Extends m w w')
    (path : w'.1.path t = w.1.path t) : Route m cfg t k root fromCache w' := by
  unfold Route at route ⊢
  split
  · rename_i cached
    rw [if_pos cached] at route
    obtain ⟨empty, enabled, top, le, linked⟩ := route
    exact ⟨fun l => by rw [path]; exact empty l, h.enabled _ enabled, top, le, h.linked _ _ _ linked⟩
  · rename_i direct
    rw [if_neg direct] at route
    exact ⟨route.1.extend h path, route.2.extend h path⟩

theorem Keeps.pathOk (h : Keeps m t w w') {l : Nat} (ok : PathOk t l k w) : PathOk t l k w' :=
  ok.extend h.toExtends h.path

theorem Keeps.cover (h : Keeps m t w w') {l : Nat} (cover : Cover m t l root w) : Cover m t l root w' :=
  cover.extend h.toExtends h.path

theorem Keeps.route (h : Keeps m t w w') {fromCache : Bool} (route : Route m cfg t k root fromCache w) :
    Route m cfg t k root fromCache w' := route.extend h.toExtends h.path

end Path

theorem StatusLe.fresh {w w' : World} (h : StatusLe t w w') {op : Op} (fresh : Fresh t op w) :
    Fresh t op w' := by
  rcases h with same | ⟨op', wr, r, before, -⟩
  · exact same.trans fresh
  · rw [fresh] at before
    simp at before

theorem StatusLe.op {w w' : World} (h : StatusLe t w w') :
    (w'.2.status t).map Running.op = (w.2.status t).map Running.op := by
  rcases h with same | ⟨op, wr, r, before, after⟩
  · rw [same]
  · rw [before, after]
    rfl

theorem StatusLe.committed {w w' : World} (h : StatusLe t w w') {op : Op}
    (committed : Committed m t op w) : Committed m t op w' := by
  obtain ⟨commit, executed, status, done⟩ := committed
  rcases h with same | ⟨op', wr, r, before, after⟩
  · exact ⟨commit, executed, same.trans status, done⟩
  · rw [status, Option.some.injEq, Running.mk.injEq] at before
    obtain ⟨rfl, rfl, posted, rfl⟩ := before
    cases posted
    exact ⟨some wr, some .done, after, fun _ => .inl rfl⟩

theorem StatusLe.searched {w w' : World} (h : StatusLe t w w') {k : Key} {r : Result}
    (searched : Searched m t k r w) : Searched m t k r w' := by
  obtain ⟨posted, executed, status, facts⟩ := searched
  rcases h with same | ⟨op', wr, r', before, -⟩
  · exact ⟨posted, executed, same.trans status, facts⟩
  · rw [status] at before
    simp at before

/-! ## Structural rules -/

section Rules
variable {α β : Type} {Q : β → World → Prop} {w : World}

theorem runs_of_rely {prog : Code β}
    (h : ∀ w', Rely m cfg t w w' → Invariant m cfg w' → Runs m cfg t prog Q w') :
    Runs m cfg t prog Q w := Protocol.wp_of_rely h

theorem runs_bind {prog : Code α} {next : α → Code β}
    (h : Runs m cfg t prog (fun a w' => Runs m cfg t (next a) Q w') w) :
    Runs m cfg t (prog >>= next) Q w := Protocol.wp_bind h

theorem runs_ret {value : β} (h : ∀ w', Rely m cfg t w w' → Invariant m cfg w' → Q value w') :
    Runs m cfg t (pure value) Q w := h

theorem runs_stop {error : Fault} (h : ∀ w', Rely m cfg t w w' → Invariant m cfg w' → Tolerates m error) :
    Runs m cfg t (stop error : Code β) Q w := h

theorem runs_assert {condition : Prop} [Decidable condition] {fn : Fn} {which : Check}
    {next : Unit → Code β} (holds : condition) (h : Runs m cfg t (next ()) Q w) :
    Runs m cfg t (assert condition fn which >>= next) Q w := by
  have : (assert condition fn which >>= next) = next () := Program.check_bind_of holds _ next
  rw [this]
  exact h

theorem runs_check {condition : Prop} [Decidable condition] {fn : Fn} {which : Check} {next : Unit → Code β}
    (fails : ¬ condition → Tolerates m (.assertion fn which)) (h : condition → Runs m cfg t (next ()) Q w) :
    Runs m cfg t (assert condition fn which >>= next) Q w := by
  by_cases holds : condition
  · exact runs_assert holds (h holds)
  · have : (assert condition fn which >>= next) = .fault (.assertion fn which) := by
      simp [assert, Program.check, holds]
    rw [this]
    exact fun _ _ _ => fails holds

theorem runs_call {p : Proc} {next : Ret p → Code β}
    (h : ∀ w', Rely m cfg t w w' → Invariant m cfg w' →
      Pre m cfg t p w' ∧ ∀ r w'', Post m t p w' r w'' → Runs m cfg t (next r) Q w'') :
    Runs m cfg t (call p >>= next) Q w := fun w' rely inv _ => h w' rely inv

theorem runs_verb {v : Verb} {next : Resp v → Code β}
    (h : ∀ w', Rely m cfg t w w' → Invariant m cfg w' → MayVerb m t v w'.1 → ∀ choice r s,
      perform cfg t v choice w'.1 = some (r, s) →
        ∃ g, Guarantee m cfg t v w' (s, g) ∧ Runs m cfg t (next r) Q (s, g)) :
    Runs m cfg t (verb v >>= next) Q w := h

theorem runs_last {v : Verb} {Q : Resp v → World → Prop} (h : Runs m cfg t (verb v >>= pure) Q w) :
    Runs m cfg t (verb v) Q w := h

theorem runs_lastCall {p : Proc} {Q : Ret p → World → Prop}
    (h : ∀ w', Rely m cfg t w w' → Invariant m cfg w' → Pre m cfg t p w' ∧
      ∀ r u u', Post m t p w' r u → Rely m cfg t u u' → Invariant m cfg u' → Q r u') :
    Runs m cfg t (call p) Q w := by
  intro w' rely inv _
  obtain ⟨pre, rest⟩ := h w' rely inv
  exact ⟨pre, fun r u post u' rely' inv' => rest r u u' post rely' inv'⟩

/-! ## Verbs that read -/

theorem runs_read {v : Verb} {next : Resp v → Code β} (f : Shared → Resp v) (ready : Shared → Prop)
    (read : ∀ choice s r s', perform cfg t v choice s = some (r, s') → r = f s ∧ s' = s ∧ ready s)
    (silent : ∀ w, Silent t v w)
    (h : ∀ w', Rely m cfg t w w' → Invariant m cfg w' → ready w'.1 → Runs m cfg t (next (f w'.1)) Q w') :
    Runs m cfg t (verb v >>= next) Q w := by
  refine runs_verb fun w' rely inv _ choice r s step => ?_
  obtain ⟨rfl, rfl, isReady⟩ := read choice w'.1 r s step
  exact ⟨w'.2, .refl inv (silent _), h w' rely inv isReady⟩

theorem runs_load {v : Verb} {next : Resp v → Code β} (f : Shared → Resp v)
    (load : ∀ choice s, perform cfg t v choice s = some (f s, s)) (silent : ∀ w, Silent t v w)
    (h : ∀ w', Rely m cfg t w w' → Invariant m cfg w' → Runs m cfg t (next (f w'.1)) Q w') :
    Runs m cfg t (verb v >>= next) Q w := by
  refine runs_read f (fun _ => True) (fun choice s r s' step => ?_) silent fun w' rely inv _ => h w' rely inv
  rw [load, Option.some.injEq, Prod.mk.injEq] at step
  exact ⟨step.1.symm, step.2.symm, trivial⟩

theorem runs_await {v : Verb} {next : Resp v → Code β} (f : Shared → Resp v) (n : NodeID)
    (await : ∀ choice s, perform cfg t v choice s = if s.drained t n then some (f s, s) else none)
    (silent : ∀ w, Silent t v w)
    (h : ∀ w', Rely m cfg t w w' → Invariant m cfg w' → w'.1.drained t n →
      Runs m cfg t (next (f w'.1)) Q w') :
    Runs m cfg t (verb v >>= next) Q w := by
  refine runs_read f (fun s => s.drained t n) (fun choice s r s' step => ?_) silent h
  rw [await] at step
  split at step
  · rename_i drained
    rw [Option.some.injEq, Prod.mk.injEq] at step
    exact ⟨step.1.symm, step.2.symm, drained⟩
  · cases step

theorem runs_poll {n : NodeID} {next : Unit → Code β}
    (h : ∀ w', Rely m cfg t w w' → Invariant m cfg w' → w'.1.drained t n →
      Runs m cfg t (next ()) Q w') :
    Runs m cfg t (verb (.poll n) >>= next) Q w :=
  runs_await (fun _ => ()) n (fun _ _ => rfl) (fun _ => ⟨id, trivial⟩) h

/-! ## Verbs that change nothing of the map -/

theorem runs_frame {v : Verb} {next : Resp v → Code β}
    (silent : ∀ w', Rely m cfg t w w' → Invariant m cfg w' → Silent t v w')
    (h : ∀ w', Rely m cfg t w w' → Invariant m cfg w' → MayVerb m t v w'.1 → ∀ choice r s,
      perform cfg t v choice w'.1 = some (r, s) →
        ∃ g, Frame m cfg t w' (s, g) ∧ Runs m cfg t (next r) Q (s, g)) :
    Runs m cfg t (verb v >>= next) Q w := by
  refine runs_verb fun w' rely inv may choice r s step => ?_
  obtain ⟨g, frame, rest⟩ := h w' rely inv may choice r s step
  exact ⟨g, frame.guarantee (silent w' rely inv), rest⟩

theorem runs_invalidate {e : CacheEntry} {next : Unit → Code β}
    (h : ∀ w', Keeps m t w w' → Runs m cfg t (next ()) Q w') :
    Runs m cfg t (verb (.invalidate e) >>= next) Q w := by
  refine runs_frame (fun _ _ _ => ⟨id, trivial⟩) fun w' rely inv _ choice r s step => ?_
  cases step
  have frame := frame_invalidate (t := t) inv (cfg.nodeOf t) e
  exact ⟨w'.2, frame, h _ (rely.keeps.trans (frame.keeps rfl fun _ h => h))⟩

theorem runs_addToCache {p : InternalPage} {next : Unit → Code β}
    (sound : ∀ w', Rely m cfg t w w' → Invariant m cfg w' → p.hdr.level = 1 ∧ p.Ok ∧
      (Page.internal p).Points w'.2.Linked ∧
      (m.visible → (Page.internal p).Points (Exposed w'.1 w'.2)))
    (h : ∀ w', Keeps m t w w' → Runs m cfg t (next ()) Q w') :
    Runs m cfg t (verb (.addToCache p) >>= next) Q w := by
  refine runs_frame (fun _ _ _ => ⟨id, trivial⟩) fun w' rely inv _ choice r s step => ?_
  cases step
  obtain ⟨level, ok, points, exposed⟩ := sound w' rely inv
  have frame := frame_addToCache (t := t) inv (cfg.nodeOf t) level ok points exposed
  exact ⟨w'.2, frame, h _ (rely.keeps.trans (frame.keeps rfl fun _ h => h))⟩

theorem runs_path {v : Verb} {next : Resp v → Code β} {r : Resp v} (path : Shared → Nat → GlobalAddress)
    (store : ∀ choice s, perform cfg t v choice s =
      some (r, { s with path := Function.update s.path t (path s) }))
    (silent : ∀ w, Silent t v w)
    (h : ∀ w' w'', Rely m cfg t w w' → Extends m w w'' → StatusLe t w w'' →
      (∀ a, w.2.owed a = some t → w''.2.owed a = some t) → w''.1.path t = path w'.1 →
      Runs m cfg t (next r) Q w'') :
    Runs m cfg t (verb v >>= next) Q w := by
  refine runs_frame (fun _ _ _ => silent _) fun w' rely inv _ choice r' s step => ?_
  rw [store, Option.some.injEq, Prod.mk.injEq] at step
  obtain ⟨rfl, rfl⟩ := step
  have frame := frame_path (t := t) inv (path w'.1)
  refine ⟨w'.2, frame, h w' _ rely (rely.extends.trans frame.extends) ?_ rely.owed (Function.update_self ..)⟩
  exact rely.status.trans (.inl (congrFun frame.status t))

/-! ## Allocating and writing a private page -/

structure Allocated (t : Client) (g : Ghost) (b : GlobalAddress) : Prop where
  owner : g.owner b = some t
  info : g.info b = none

theorem Rely.allocated {w w' : World} (h : Rely m cfg t w w') {b : GlobalAddress}
    (new : Allocated t w.2 b) : Allocated t w'.2 b := by
  obtain ⟨owner, info⟩ := h.owner b new.owner
  exact ⟨owner, info.trans new.info⟩

theorem Allocated.not_writesLeaf {w : World} {b : GlobalAddress} (new : Allocated t w.2 b)
    (inv : Invariant m cfg w) (page : Page) : ¬ WritesLeaf w.1 (.post [.page b page]) := by
  refine Sherman.not_writesLeaf fun a p target mem => ?_
  cases target
  have := (inv.tree.mem_sound b _ mem).info
  rw [new.info] at this
  cases this

theorem Written.info {s : Shared} {g : Ghost} {b : GlobalAddress} {page : Page}
    (new : Written t s g b page) (inv : Invariant m cfg (s, g)) :
    g.info b = some (page.hdr.level, page.hdr.lowest) := (inv.tree.mem_sound b page new.mem).info

theorem runs_alloc {next : GlobalAddress → Code β}
    (h : ∀ w' b, Steady m cfg t w w' → Invariant m cfg w' → Allocated t w'.2 b →
      Runs m cfg t (next b) Q w') :
    Runs m cfg t (verb .alloc >>= next) Q w := by
  refine runs_frame (fun _ _ _ => ⟨id, trivial⟩) fun w' rely inv may choice b s step => ?_
  cases choice with
  | none => cases step
  | waiter b => cases step
  | fresh a =>
      simp only [perform] at step
      split at step
      · rename_i new
        cases step
        obtain ⟨noInfo, noOwner⟩ := inv.tree.allocated b new.2
        have frame := frame_alloc inv may.1 new.1 new.2
        refine ⟨_, frame, h _ b (rely.steady.trans ⟨frame.keeps rfl fun _ h => h, fun _ h => h,
          fun _ _ _ _ _ => rfl, fun c page written => ⟨?_, written.mem, written.quiet⟩⟩) frame.inv
          ⟨Function.update_self .., noInfo⟩⟩
        refine (Function.update_of_ne ?_ _ _).trans written.owner
        rintro rfl
        have := written.owner
        rw [noOwner] at this
        cases this
      · cases step

theorem runs_writeSync {b : GlobalAddress} {page : Page} {Q : Unit → World → Prop}
    (new : Allocated t w.2 b) (ok : page.Ok) (points : page.Points w.2.Linked)
    (h : ∀ w', Steady m cfg t w w' → Invariant m cfg w' → Written t w'.1 w'.2 b page → Q () w') :
    Runs m cfg t (writeSync b page) Q w := by
  refine runs_frame (fun w₁ rely₁ inv₁ => ⟨(rely₁.allocated new).not_writesLeaf inv₁ page, trivial⟩)
    fun w₁ rely₁ inv₁ may choice r s step => ?_
  cases step
  have new₁ := rely₁.allocated new
  have frame := frame_postPrivate inv₁ may.1 new₁.owner new₁.info ok (points.mono rely₁.linked)
  have other : ∀ c q, Written t w₁.1 w₁.2 c q → c ≠ b := by
    rintro c q old rfl
    have := old.info inv₁
    rw [new₁.info] at this
    cases this
  have steady := rely₁.steady.trans (v := w₁) (w := (w₁.1.post t (.page b page), _))
    ⟨frame.keeps rfl fun _ h => h, fun _ h => h, fun _ _ _ _ _ => rfl, fun c q old => ⟨old.owner, old.mem,
      quiet_post old.quiet fun same => other c q old (Option.some.inj same).symm⟩⟩
  refine ⟨_, frame, runs_last (runs_poll fun w₂ rely₂ inv₂ drained => runs_ret fun w₃ rely₃ inv₃ => ?_)⟩
  have owner := (rely₂.owner b new₁.owner).1
  have quiet := inv₂.lock.quiet_of_private owner drained
  have view := (rely₂.private_ b new₁.owner).2
  refine h w₃ (steady.trans (rely₂.trans rely₃).steady) inv₃ (rely₃.written ⟨owner, ?_, quiet⟩)
  rw [← quiet.view, view]
  exact view_post_page _ _ _ _

/-! ## The root pointer -/

theorem DirectorySound.root {g : Ghost} {d : Directory} (sound : DirectorySound g d)
    (nonnull : d.gRootPtr ≠ .null) :
    ∃ top : Nat, d.gRootLevel = top ∧ 1 ≤ top ∧ g.Linked d.gRootPtr top kKeyMin :=
  sound.resolve_left fun unknown => nonnull unknown.1

theorem root_reach (inv : Invariant m cfg w) {root : GlobalAddress} {top : Nat}
    (linked : w.2.Linked root top kKeyMin) : Reach m w root top kKeyMin :=
  ⟨linked, fun _ => inv.tree.exposed_of_level inv.lock.single linked (.inr rfl)⟩

theorem runs_getRootPtr {Q : GlobalAddress → World → Prop}
    (h : ∀ w' root, Rely m cfg t w w' → Invariant m cfg w' → (∃ top, w'.2.Linked root top kKeyMin ∧
      ((w.1.dir (cfg.nodeOf t)).enableCache = true → 1 ≤ top ∧ (m.high → 3 ≤ top))) → Q root w') :
    Runs m cfg t getRootPtr Q w := by
  refine runs_load (fun s => (s.dir (cfg.nodeOf t)).gRootPtr) (fun _ _ => rfl) (fun _ => ⟨id, trivial⟩) fun w₁ rely₁ inv₁ => ?_
  split
  · rename_i null
    refine runs_last (runs_await (fun s => s.rootPtr) 0 (fun _ _ => rfl) (fun _ => ⟨id, trivial⟩) fun w₂ rely₂ inv₂ _ => ?_)
    refine runs_ret fun w₃ rely₃ inv₃ => h w₃ _ ((rely₁.trans rely₂).trans rely₃) inv₃ ?_
    obtain ⟨top, linked, highest⟩ := inv₂.tree.root
    refine ⟨top, rely₃.linked _ _ _ linked, fun enabled => ?_⟩
    have enabled₁ := rely₁.enabled _ enabled
    rcases inv₁.tree.dir (cfg.nodeOf t) with ⟨-, unknown, one⟩ | ⟨l, -, -, linked⟩
    · obtain ⟨a, linked⟩ := one enabled₁
      refine ⟨highest a 1 _ (rely₂.linked _ _ _ linked), fun high => ?_⟩
      have := inv₁.high high _ enabled₁
      omega
    · exact absurd null (inv₁.tree.ne_null linked)
  · rename_i nonnull
    refine runs_last (runs_load (fun s => (s.dir (cfg.nodeOf t)).gRootPtr) (fun _ _ => rfl) (fun _ => ⟨id, trivial⟩)
      fun w₂ rely₂ inv₂ => ?_)
    refine runs_ret fun w₃ rely₃ inv₃ => h w₃ _ ((rely₁.trans rely₂).trans rely₃) inv₃ ?_
    obtain ⟨top, level, low, linked⟩ := (inv₂.tree.dir _).root (rely₂.rooted _ nonnull)
    refine ⟨top, rely₃.linked _ _ _ linked, fun enabled => ?_⟩
    have enabled₂ := (rely₁.trans rely₂).enabled _ enabled
    exact ⟨low, fun high => Int.ofNat_le.mp (level ▸ inv₂.high high _ enabled₂)⟩

/-! ## Locks -/

section Lock
variable {s : Shared} {g : Ghost} {la : GlobalAddress} {lock : GlobalAddress → Option (Client × Bool)}
  {holder : Option Client}

theorem Frame.keepsLock
    (frame : Frame m cfg t (s, g) ({ s with lock := lock }, g.setHolding la holder)) :
    Keeps m t (s, g) ({ s with lock := lock }, g.setHolding la holder) :=
  frame.keeps rfl fun _ h => h

theorem Frame.steadyLock
    (frame : Frame m cfg t (s, g) ({ s with lock := lock }, g.setHolding la (some t))) :
    Steady m cfg t (s, g) ({ s with lock := lock }, g.setHolding la (some t)) := by
  refine ⟨frame.keepsLock, fun lb hl => ?_, fun _ _ _ _ _ => rfl,
    fun b page new => ⟨new.owner, new.mem, new.quiet⟩⟩
  by_cases same : lb = la
  · subst same
    exact Function.update_self ..
  · exact (Function.update_of_ne same _ _).trans hl

theorem frame_tryLock (inv : Invariant m cfg (s, g)) (free : s.lock la = none) :
    Frame m cfg t (s, g) ({ s with lock := Function.update s.lock la (some (t, false)) },
      g.setHolding la (some t)) := by
  refine frame_lock inv (inv.lock.idle_of_free free) (fun c hc => ⟨false, ?_⟩) (fun u b hu => ?_)
    fun u hu => ?_
  · rw [Option.some.inj hc]
  · cases hu
    rfl
  · obtain ⟨b, owned⟩ := inv.lock.holding la u hu
    rw [free] at owned
    cases owned

theorem frame_canHandOver (inv : Invariant m cfg (s, g)) (held : g.holding la = some t) (b : Bool) :
    Frame m cfg t (s, g)
      ({ s with lock := Function.update s.lock la ((s.lock la).map fun o => (o.1, b)) },
        g.setHolding la (some t)) := by
  obtain ⟨flag, owned⟩ := inv.lock.holding la t held
  refine frame_lock inv (inv.lock.idle_of_holding held) (fun c hc => ⟨b, ?_⟩) (fun u b' hu => ?_)
    fun u hu => ?_
  · rw [← Option.some.inj hc, owned]
    rfl
  · rw [owned] at hu
    cases hu
    rfl
  · rw [held] at hu
    exact (Option.some.inj hu).symm

theorem frame_release (inv : Invariant m cfg (s, g)) (owned : s.lock la = some (t, true))
    (done : g.holding la = some t ∨ s.drained t la.nodeID) :
    Frame m cfg t (s, g) ({ s with lock := Function.update s.lock la none },
      g.setHolding la none) := by
  have idle := done.elim inv.lock.idle_of_holding (inv.lock.idle_of_drained owned)
  refine frame_lock inv idle (fun c hc => by cases hc) (fun u b hu => by cases hu) fun u hu => ?_
  obtain ⟨b, owned'⟩ := inv.lock.holding la u hu
  rw [owned] at owned'
  cases owned'
  rfl

end Lock

theorem runs_lockAndReadPage {a : GlobalAddress} {l : Nat} {x : Key} {next : Option Page → Code β}
    (linked : w.2.Linked a l x)
    (h : ∀ w', Steady m cfg t w w' → Invariant m cfg w' → w'.2.holding (cfg.lockAddr a) = some t →
      ∀ page, w'.1.mem a = some page → ∃ g, Guarantee m cfg t (.readPage a) w' (w'.1, g) ∧
        Runs m cfg t (next (some page)) Q (w'.1, g)) :
    Runs m cfg t (lockAndReadPage a (cfg.lockAddr a) >>= next) Q w := by
  refine runs_bind (runs_frame (fun _ _ _ => ⟨id, trivial⟩) fun w₁ rely₁ inv₁ _ choice r s step => ?_)
  simp only [perform] at step
  split at step
  · rename_i free
    cases step
    have frame := frame_tryLock (t := t) inv₁ free
    refine ⟨_, frame, runs_last (runs_verb fun w₂ rely₂ inv₂ _ choice r s step => ?_)⟩
    simp only [perform] at step
    split at step
    · cases step
      have held := (rely₂.holding (cfg.lockAddr a) (Function.update_self ..)).1
      have steady := rely₁.steady.trans (frame.steadyLock.trans rely₂.steady)
      obtain ⟨page, mem⟩ := inv₂.tree.mem_some a l x (steady.linked a l x linked)
      obtain ⟨g, guarantee, rest⟩ := h w₂ steady inv₂ held page mem
      rw [mem]
      exact ⟨g, guarantee, fun w' rely inv => Protocol.wp_rely rest rely⟩
    · cases step
  · cases step

theorem runs_releaseLocalLock {la : GlobalAddress} {Q : Unit → World → Prop}
    (done : ∀ w', Rely m cfg t w w' → w'.1.lock la = some (t, true) →
      w'.2.holding la = some t ∨ w'.1.drained t la.nodeID)
    (h : ∀ w', Keeps m t w w' → Settles t w w' → Invariant m cfg w' → Q () w') :
    Runs m cfg t (verb (.releaseLocalLock la)) Q w := by
  refine runs_last (runs_frame (fun _ _ _ => ⟨id, trivial⟩) fun w₁ rely₁ inv₁ _ choice r s step => ?_)
  simp only [perform] at step
  split at step
  · rename_i owned
    cases step
    have frame := frame_release inv₁ owned (done w₁ rely₁ owned)
    refine ⟨_, frame, runs_ret fun w₂ rely₂ inv₂ => h w₂ ?_ (rely₁.settles.trans rely₂.settles) inv₂⟩
    exact rely₁.keeps.trans (frame.keepsLock.trans rely₂.keeps)
  · cases step
    refine ⟨w₁.2, .refl inv₁, runs_ret fun w₂ rely₂ inv₂ => ?_⟩
    exact h w₂ (rely₁.keeps.trans rely₂.keeps) (rely₁.settles.trans rely₂.settles) inv₂

theorem runs_canHandOver {la : GlobalAddress} {next : Bool → Code β} (held : w.2.holding la = some t)
    (h : ∀ w' handOver, Steady m cfg t w w' → w'.2.holding la = some t →
      w'.1.lock la = some (t, handOver) → Runs m cfg t (next handOver) Q w') :
    Runs m cfg t (verb (.canHandOver la) >>= next) Q w := by
  refine runs_frame (fun _ rely _ => ⟨id, (rely.holding la held).1⟩) fun w₁ rely₁ inv₁ _ choice r s step => ?_
  cases choice with
  | none => cases step
  | fresh a => cases step
  | waiter b =>
      cases step
      have held₁ := (rely₁.holding la held).1
      obtain ⟨flag, owned⟩ := inv₁.lock.holding la t held₁
      have frame := frame_canHandOver inv₁ held₁ r
      refine ⟨_, frame, h _ r (rely₁.steady.trans frame.steadyLock) (Function.update_self ..) ?_⟩
      refine (Function.update_self ..).trans ?_
      rw [owned]
      rfl

theorem runs_afterUnlock {la : GlobalAddress} {n : NodeID} {async : Bool} {Q : Unit → World → Prop}
    (owned : w.1.lock la = some (t, false))
    (h : ∀ w', Keeps m t w w' → Invariant m cfg w' → (async = false → w'.1.drained t n) → Q () w') :
    Runs m cfg t (do
      unless async do verb (.poll n)
      verb (.releaseLocalLock la)) Q w := by
  have never : ∀ w', Rely m cfg t w w' → w'.1.lock la ≠ some (t, true) := by
    intro w' rely owned'
    have := rely.lock la true owned'
    rw [owned] at this
    cases this
  cases async with
  | true =>
      refine runs_releaseLocalLock (fun w' rely owned' => absurd owned' (never w' rely)) ?_
      exact fun w' keeps _ inv => h w' keeps inv fun sync => by cases sync
  | false =>
      refine runs_poll fun w₁ rely₁ inv₁ drained => ?_
      refine runs_releaseLocalLock (fun w' rely owned' => absurd owned' (never w' (rely₁.trans rely))) ?_
      exact fun w' keeps settles inv => h w' (rely₁.keeps.trans keeps) inv fun _ => settles.drained drained

theorem runs_unlockAddr {la : GlobalAddress} {async : Bool} {Q : Unit → World → Prop}
    (held : w.2.holding la = some t)
    (h : ∀ w', Keeps m t w w' → Invariant m cfg w' → Q () w') :
    Runs m cfg t (unlockAddr la async) Q w := by
  refine runs_canHandOver held fun w₁ handOver steady₁ held₁ owned₁ => ?_
  cases handOver with
  | true =>
      refine runs_releaseLocalLock (fun w' rely _ => .inl (rely.holding la held₁).1) fun w₂ keeps₂ _ => ?_
      exact h w₂ (steady₁.toKeeps.trans keeps₂)
  | false =>
      refine runs_frame (fun _ _ _ => ⟨not_writesLeaf fun _ _ target => (nomatch target), trivial⟩)
        fun w₂ rely₂ inv₂ may choice r s step => ?_
      cases step
      obtain ⟨held₂, lock₂⟩ := rely₂.holding la held₁
      have owned₂ : w₂.1.lock la = some (t, false) := lock₂.trans owned₁
      have frame : Frame m cfg t w₂ (w₂.1.post t (.unlock la), w₂.2.setHolding la none) :=
        frame_postUnlock inv₂ may.1 owned₂ (inv₂.lock.no_unlock_of_holding held₂) fun u hu =>
          Option.some.inj (hu.symm.trans held₂)
      have keeps := steady₁.toKeeps.trans (rely₂.keeps.trans (frame.keeps rfl fun _ h => h))
      exact ⟨_, frame, runs_afterUnlock owned₂ fun w₃ keeps₃ inv₃ _ => h w₃ (keeps.trans keeps₃) inv₃⟩

theorem runs_writePageAndUnlock {a : GlobalAddress} {wr : Write} {async : Bool}
    {Q : Unit → World → Prop} (held : w.2.holding (cfg.lockAddr a) = some t)
    (target : wr.target = some a)
    (commit : ∀ w', Steady m cfg t w w' → Invariant m cfg w' →
      (∃ ws, wr ∈ ws ∧ MayVerb m t (.post ws) w'.1) →
      ∃ g, Guarantee m cfg t (.post [wr]) w' (w'.1.post t wr, g) ∧
        g.holding = Function.update w'.2.holding (cfg.lockAddr a) none ∧
        ∀ w'', Keeps m t (w'.1.post t wr, g) w'' → Invariant m cfg w'' →
          (async = false → w''.1.drained t a.nodeID) → Q () w'') :
    Runs m cfg t (writePageAndUnlock wr (cfg.lockAddr a) async) Q w := by
  have node := node_of_target target
  refine runs_canHandOver held fun w₁ handOver steady₁ held₁ owned₁ => ?_
  cases handOver with
  | true =>
      refine runs_verb fun w₂ rely₂ inv₂ may choice r s step => ?_
      cases step
      obtain ⟨g, guarantee, holding, rest⟩ := commit w₂ (steady₁.trans rely₂.steady) inv₂
        ⟨[wr], by simp, may⟩
      refine ⟨g, guarantee, runs_poll fun w₃ rely₃ inv₃ drained => ?_⟩
      rw [node] at drained
      refine runs_releaseLocalLock (fun w' rely _ => .inr (rely.settles.drained drained)) ?_
      intro w₄ keeps₄ settles₄ inv₄
      exact rest w₄ (rely₃.keeps.trans keeps₄) inv₄ fun _ => settles₄.drained drained
  | false =>
      refine runs_verb fun w₂ rely₂ inv₂ may choice r s step => ?_
      cases step
      obtain ⟨held₂, lock₂⟩ := rely₂.holding _ held₁
      have owned₂ : w₂.1.lock (cfg.lockAddr a) = some (t, false) := lock₂.trans owned₁
      obtain ⟨g, guarantee, holding, rest⟩ := commit w₂ (steady₁.trans rely₂.steady) inv₂
        ⟨[wr, .unlock (cfg.lockAddr a)], by simp, may⟩
      have once : ∀ z ∈ (w₂.1.post t wr).pending, z.write ≠ .unlock (cfg.lockAddr a) := by
        intro z hz unlock
        rcases mem_post.mp hz with hz | rfl
        · exact inv₂.lock.no_unlock_of_holding held₂ z hz unlock
        · have none := congrArg Write.target unlock
          rw [target] at none
          cases none
      have frame : Frame m cfg t (w₂.1.post t wr, g)
          ((w₂.1.post t wr).post t (.unlock (cfg.lockAddr a)), g.setHolding (cfg.lockAddr a) none) := by
        refine frame_postUnlock guarantee.inv may.1 owned₂ once fun u hu => ?_
        rw [holding, Function.update_self] at hu
        cases hu
      have both : Guarantee m cfg t (.post [wr, .unlock (cfg.lockAddr a)]) w₂
          ((w₂.1.post t wr).post t (.unlock (cfg.lockAddr a)), g.setHolding (cfg.lockAddr a) none) := by
        refine guarantee.frame frame ⟨?_, ?_⟩ trivial
        · rintro ⟨w, hw, leaf⟩
          exact ⟨w, List.mem_cons.mpr (.inl (List.mem_singleton.mp hw)), leaf⟩
        · rintro ⟨w, hw, b, p, into, mem⟩
          rcases List.mem_cons.mp hw with rfl | hw
          · exact ⟨w, by simp, b, p, into, mem⟩
          · cases List.mem_singleton.mp hw
            cases into
      rw [← post_pair] at both
      refine ⟨_, both, ?_⟩
      rw [post_pair]
      refine runs_afterUnlock owned₂ fun w₃ keeps₃ inv₃ drained => ?_
      rw [node] at drained
      exact rest w₃ ((frame.keeps rfl fun _ h => h).trans keeps₃) inv₃ drained

end Rules
end Sherman
