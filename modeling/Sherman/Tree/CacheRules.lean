import Sherman.Tree.CacheContracts

namespace Sherman

open Shared Concurrency IndexCache

variable {cfg : Config} {c : Client} {high : Prop}

class Framed (A : (protocol (.one c high) cfg).Strengthening) : Prop where
  rely : ∀ w w', A.rely c w w' → Calm cfg c w w'
  others : ∀ u w w', u ≠ c → A.rely u w w'
  keep : ∀ w w', A.inv w → Calm cfg c w w' → ((ownCache cfg c w).Ok → (ownCache cfg c w').Ok) → A.inv w'

class Lasting (A : (protocol (.one c high) cfg).Strengthening) : Prop extends Framed A where
  write : ∀ w w', A.inv w → (∀ a l x, w.2.Linked a l x → w'.2.Linked a l x) → w'.1.cache = w.1.cache →
    w'.1.dir = w.1.dir → A.inv w'

structure Kept (A : (protocol (.one c high) cfg).Strengthening) (w : World) : Prop where
  inv : Invariant (.one c high) cfg w
  more : A.inv w

abbrev Within (A : (protocol (.one c high) cfg).Strengthening) {α : Type} (prog : Code α) (Q : α → World → Prop)
    (w : World) : Prop := A.adds (system cfg) c prog Q w

abbrev Adds (cfg : Config) (c : Client) {α : Type} (prog : Code α) (Q : α → World → Prop) (w : World) : Prop :=
  Within (caching cfg c) prog Q w

abbrev Sane (cfg : Config) (c : Client) (w : World) : Prop := Kept (caching cfg c) w

instance : Lasting (caching cfg c) where
  rely _ _ rely := (rely rfl).1
  others _ _ _ other same := absurd same other
  keep _ _ inv calm ok := inv.keep (ok inv.ok) calm.linked calm.cache calm.enabled
  write w w' inv linked cache dir := by
    refine inv.keep ?_ linked ?_ fun on => by rwa [dir]
    · rw [ownCache, cache]
      exact inv.ok
    · rw [ownCache, ownCache, cache]
      exact .refl _

section Rules
variable {A : (protocol (.one c high) cfg).Strengthening} {α β : Type} {Q : β → World → Prop} {w : World}

theorem Kept.tree (kept : Kept A w) : TreeInv w.1 w.2 := kept.inv.tree

theorem Kept.cache (sane : Sane cfg c w) : CacheInv cfg c w := sane.more

/-! ## Structural rules -/

theorem adds_bind {prog : Code α} {next : α → Code β}
    (h : Within A prog (fun a w' => Within A (next a) Q w') w) :
    Within A (prog >>= next) Q w :=
  Protocol.Strengthening.adds_bind h

theorem adds_stop {error : Fault} : Within A (stop error : Code β) Q w := trivial

theorem adds_assert {condition : Prop} [Decidable condition] {fn : Fn} {which : Check} {next : Unit → Code β}
    (h : condition → Within A (next ()) Q w) : Within A (assert condition fn which >>= next) Q w := by
  by_cases holds : condition
  · have : (assert condition fn which >>= next) = next () := Program.check_bind_of holds _ next
    rw [this]
    exact h holds
  · have : (assert condition fn which >>= next) = .fault (.assertion fn which) := by
      simp [assert, Program.check, holds]
    rw [this]
    trivial

theorem adds_ofExcept {e : Except Fault α} {next : α → Code β}
    (h : ∀ value, e = .ok value → Within A (next value) Q w) :
    Within A (Program.ofExcept (S := signature) e >>= next) Q w := by
  cases e with
  | ok value => exact h value rfl
  | error error => trivial

theorem adds_last {v : Verb} {Q : Resp v → World → Prop} (h : Within A (verb v >>= pure) Q w) :
    Within A (verb v) Q w := h

variable [Framed A]

theorem adds_calm {prog : Code β} (h : ∀ w', Calm cfg c w w' → Kept A w' → Within A prog Q w') :
    Within A prog Q w :=
  Protocol.Strengthening.adds_of_rely fun w' _ calm inv more => h w' (Framed.rely _ _ calm) ⟨inv, more⟩

theorem adds_ret {value : β} (h : ∀ w', Calm cfg c w w' → Kept A w' → Q value w') :
    Within A (pure value) Q w := fun w' _ calm inv more => h w' (Framed.rely _ _ calm) ⟨inv, more⟩

theorem adds_call {p : Proc} {next : Ret p → Code β}
    (h : ∀ w', Calm cfg c w w' → Kept A w' → Pre (.one c high) cfg c p w' → A.pre c p w' ∧
      ∀ r w'', Post (.one c high) c p w' r w'' → A.post c p w' r w'' → Within A (next r) Q w'') :
    Within A (call p >>= next) Q w := fun w' _ calm inv more _ _ pre =>
  h w' (Framed.rely _ _ calm) ⟨inv, more⟩ pre

theorem adds_lastCall {p : Proc} {Q : Ret p → World → Prop}
    (h : ∀ w', Calm cfg c w w' → Kept A w' → Pre (.one c high) cfg c p w' → A.pre c p w' ∧
      ∀ r w'' w''', Post (.one c high) c p w' r w'' → A.post c p w' r w'' → Calm cfg c w'' w''' →
        Kept A w''' → Q r w''') : Within A (call p) Q w := by
  intro w' _ calm inv more _ _ pre
  obtain ⟨first, rest⟩ := h w' (Framed.rely _ _ calm) ⟨inv, more⟩ pre
  refine ⟨first, fun r w'' post post' w''' _ calm' inv' more' => ?_⟩
  exact rest r w'' w''' post post' (Framed.rely _ _ calm') ⟨inv', more'⟩

theorem adds_verb {v : Verb} {next : Resp v → Code β}
    (h : ∀ w₀ choice r w₁, Calm cfg c w w₀ → Kept A w₀ → perform cfg c v choice w₀.1 = some (r, w₁.1) →
      (∀ a l x, w₀.2.Linked a l x → w₁.2.Linked a l x) → Invariant (.one c high) cfg w₁ →
        A.inv w₁ ∧ Within A (next r) Q w₁) : Within A (verb v >>= next) Q w := by
  intro w₀ _ calm inv more _ choice r s step g guar
  obtain ⟨more', rest⟩ := h w₀ choice r (s, g) (Framed.rely _ _ calm) ⟨inv, more⟩ step guar.extends.linked guar.inv
  exact ⟨more', fun u other => Framed.others u _ _ other, rest⟩

/-! ## Verbs that leave the tree and the cache alone -/

def Plain : Verb → Prop
  | .post _ | .casRoot _ _ | .addToCache _ => False
  | _ => True

structure Leaves (s s' : Shared) : Prop where
  rootPtr : s'.rootPtr = s.rootPtr
  view : s'.view = s.view
  dir : s'.dir = s.dir
  cache : ∀ n, s'.cache n = s.cache n ∨ ∃ e, s'.cache n = (s.cache n).invalidate e

theorem Leaves.refl (s : Shared) : Leaves s s := ⟨rfl, rfl, rfl, fun _ => .inl rfl⟩

theorem Plain.leaves {v : Verb} (plain : Plain v) {choice : Choice} {r : Resp v} {s s' : Shared}
    (step : perform cfg c v choice s = some (r, s')) : Leaves s s' := by
  cases v with
  | post ws => exact plain.elim
  | casRoot old new => exact plain.elim
  | addToCache p => exact plain.elim
  | invalidate e =>
      cases step
      refine ⟨rfl, view_congr rfl rfl, rfl, fun n => ?_⟩
      by_cases same : n = cfg.nodeOf c
      · subst same
        exact .inr ⟨e, Function.update_self ..⟩
      · exact .inl (Function.update_of_ne same _ _)
  | alloc =>
      cases choice with
      | fresh a =>
          simp only [perform] at step
          split_ifs at step
          cases step
          exact ⟨rfl, view_congr rfl rfl, rfl, fun _ => .inl rfl⟩
      | none => cases step
      | waiter b => cases step
  | canHandOver la =>
      cases choice with
      | waiter b =>
          cases step
          exact ⟨rfl, view_congr rfl rfl, rfl, fun _ => .inl rfl⟩
      | none => cases step
      | fresh a => cases step
  | _ =>
      simp only [perform] at step
      try split_ifs at step
      all_goals
        cases step
        exact ⟨rfl, view_congr rfl rfl, rfl, fun _ => .inl rfl⟩

theorem Leaves.calm {w w' : World} (h : Leaves w.1 w'.1) (linked : ∀ a l x, w.2.Linked a l x → w'.2.Linked a l x) :
    Calm cfg c w w' := by
  refine ⟨⟨⟨h.rootPtr, linked, fun a _ _ _ => congrFun h.view a⟩, ?_, fun on => by rwa [h.dir]⟩, h.view⟩
  rcases h.cache (cfg.nodeOf c) with same | ⟨e, invalidated⟩
  · rw [ownCache, ownCache, same]
    exact .refl _
  · rw [ownCache, ownCache, invalidated]
    exact fades_invalidate _ e

theorem Leaves.ok {s s' : Shared} (h : Leaves s s') {n : NodeID} (ok : (s.cache n).Ok) : (s'.cache n).Ok := by
  rcases h.cache n with same | ⟨e, invalidated⟩
  · rwa [same]
  · rw [invalidated]
    exact ok.invalidate e

theorem adds_plain {v : Verb} {next : Resp v → Code β} (plain : Plain v)
    (h : ∀ w₀ choice r w₁, Calm cfg c w w₀ → Kept A w₀ → perform cfg c v choice w₀.1 = some (r, w₁.1) →
      Calm cfg c w₀ w₁ → Kept A w₁ → Within A (next r) Q w₁) : Within A (verb v >>= next) Q w := by
  refine adds_verb fun w₀ choice r w₁ calm sane step linked inv => ?_
  have leaves := plain.leaves step
  have calm' : Calm cfg c w₀ w₁ := leaves.calm linked
  have more := Framed.keep _ _ sane.more calm' leaves.ok
  exact ⟨more, h w₀ choice r w₁ calm sane step calm' ⟨inv, more⟩⟩

theorem adds_skip {v : Verb} {next : Resp v → Code β} (plain : Plain v)
    (h : ∀ r w', Calm cfg c w w' → Kept A w' → Within A (next r) Q w') : Within A (verb v >>= next) Q w :=
  adds_plain plain fun _ _ r w₁ calm _ _ calm' sane => h r w₁ (calm.trans calm') sane

theorem adds_skipLast {v : Verb} {Q : Resp v → World → Prop} (plain : Plain v)
    (h : ∀ r w', Calm cfg c w w' → Kept A w' → Q r w') : Within A (verb v) Q w :=
  adds_last (adds_skip plain fun r _ calm _ => adds_ret fun w' calm' sane => h r w' (calm.trans calm') sane)

theorem adds_loadEnableCache {next : Bool → Code β}
    (h : ∀ w', Calm cfg c w w' → Kept A w' →
      Within A (next (w'.1.dir (cfg.nodeOf c)).enableCache) Q w') :
    Within A (verb .loadEnableCache >>= next) Q w := by
  refine adds_plain trivial fun w₀ choice r w₁ calm _ step calm' sane => ?_
  simp only [perform, Option.some.injEq, Prod.mk.injEq] at step
  obtain ⟨rfl, same⟩ := step
  have := h w₁ (calm.trans calm') sane
  rwa [← same] at this

theorem adds_searchFromCache {k : Key} {next : Option (CacheEntry × GlobalAddress) → Code β}
    (h : ∀ w', Calm cfg c w w' → Kept A w' → Within A (next ((ownCache cfg c w').searchFromCache k)) Q w') :
    Within A (verb (.searchFromCache k) >>= next) Q w := by
  refine adds_plain trivial fun w₀ choice r w₁ calm _ step calm' sane => ?_
  simp only [perform, Option.some.injEq, Prod.mk.injEq] at step
  obtain ⟨rfl, same⟩ := step
  have := h w₁ (calm.trans calm') sane
  rwa [ownCache, ← same] at this

theorem adds_invalidate {k : Key} {e : CacheEntry} {next : Unit → Code β} (only : (ownCache cfg c w).OnlyHit k e)
    (h : ∀ w', Calm cfg c w w' → Kept A w' → (ownCache cfg c w').NoHit k → Within A (next ()) Q w') :
    Within A (verb (.invalidate e) >>= next) Q w := by
  refine adds_plain trivial fun w₀ choice r w₁ calm _ step calm' sane => h w₁ (calm.trans calm') sane ?_
  simp only [perform, Option.some.injEq, Prod.mk.injEq, true_and] at step
  have missed := (calm.cache.onlyHit only).invalidate
  rw [ownCache, ← step]
  simpa only [Function.update_self] using missed

theorem adds_readPage {a : GlobalAddress} {next : Option Page → Code β}
    (h : ∀ w', Calm cfg c w w' → Kept A w' → Within A (next (w'.1.view a)) Q w') :
    Within A (verb (.readPage a) >>= next) Q w := by
  refine adds_plain trivial fun w₀ choice r w₁ calm sane₀ step calm' sane => ?_
  simp only [perform] at step
  split at step
  · rename_i drained
    simp only [Option.some.injEq, Prod.mk.injEq] at step
    obtain ⟨rfl, -⟩ := step
    have view : w₀.1.mem a = w₁.1.view a := by
      rw [calm'.all]
      exact (sane₀.inv.quiet_of_only rfl drained).view.symm
    rw [view]
    exact h w₁ (calm.trans calm') sane
  · cases step

theorem adds_alloc {next : GlobalAddress → Code β}
    (h : ∀ w' b, Calm cfg c w w' → Kept A w' → (∀ l x, ¬ w'.2.Linked b (l + 1) x) → Within A (next b) Q w') :
    Within A (verb .alloc >>= next) Q w := by
  refine adds_plain trivial fun w₀ choice b w₁ calm sane₀ step calm' sane => ?_
  cases choice with
  | none => cases step
  | waiter b => cases step
  | fresh a =>
      simp only [perform] at step
      split at step
      · rename_i new
        simp only [Option.some.injEq, Prod.mk.injEq] at step
        obtain ⟨rfl, -⟩ := step
        refine h w₁ a (calm.trans calm') sane fun l x linked => ?_
        have old := (calm'.back sane₀.tree sane.tree linked).1
        rw [(sane₀.tree.allocated a new.2).1] at old
        cases old
      · cases step

theorem adds_storePath {a : GlobalAddress} {level : Nat} {Q : Unit → World → Prop}
    (h : ∀ w', Calm cfg c w w' → Kept A w' → Q () w') : Within A (storePath level a) Q w := by
  unfold storePath
  split
  · exact adds_skipLast trivial fun _ => h
  · trivial

theorem adds_loadPath {l : Nat} {Q : GlobalAddress → World → Prop}
    (h : ∀ up w', Calm cfg c w w' → Kept A w' → Q up w') : Within A (loadPath l) Q w := by
  unfold loadPath
  split
  · exact adds_skipLast trivial h
  · trivial

theorem adds_getRootPtr {Q : GlobalAddress → World → Prop}
    (h : ∀ root w', Calm cfg c w w' → Kept A w' → Q root w') : Within A getRootPtr Q w := by
  refine adds_skip trivial fun g w₁ calm₁ _ => ?_
  split
  · exact adds_skipLast trivial fun root w₂ calm₂ => h root w₂ (calm₁.trans calm₂)
  · exact adds_skipLast trivial fun root w₂ calm₂ => h root w₂ (calm₁.trans calm₂)

/-! ## Locks and writes -/

theorem adds_lockAndReadPage {a la : GlobalAddress} {next : Option Page → Code β}
    (h : ∀ w', Calm cfg c w w' → Kept A w' → Within A (next (w'.1.view a)) Q w') :
    Within A (lockAndReadPage a la >>= next) Q w := by
  refine adds_bind (adds_skip trivial fun _ w₁ calm₁ _ => ?_)
  refine adds_last (adds_readPage fun w₂ calm₂ sane₂ => ?_)
  exact adds_ret fun w₃ calm₃ sane₃ => by
    rw [← calm₃.all]
    exact h w₃ ((calm₁.trans calm₂).trans calm₃) sane₃

structure Wrote (wr : Write) (w w' : World) : Prop where
  rootPtr : w'.1.rootPtr = w.1.rootPtr
  linked : ∀ a l x, w.2.Linked a l x → w'.2.Linked a l x
  view : ∀ b, w'.1.view b = if wr.target = some b then wr.apply (w.1.view b) else w.1.view b
  cache : w'.1.cache = w.1.cache
  dir : w'.1.dir = w.1.dir

theorem adds_post {ws : List Write} {wr : Write} {next : Unit → Code β}
    (one : ws = [wr] ∨ ∃ la, ws = [wr, .unlock la])
    (keep : ∀ w₀ w₁, A.inv w₀ → Wrote wr w₀ w₁ → A.inv w₁)
    (h : ∀ w₀ w₁, Calm cfg c w w₀ → Kept A w₀ → Wrote wr w₀ w₁ → Kept A w₁ → Within A (next ()) Q w₁) :
    Within A (verb (.post ws) >>= next) Q w := by
  refine adds_verb fun w₀ choice r w₁ calm sane step linked inv => ?_
  simp only [perform, Option.some.injEq, Prod.mk.injEq, true_and] at step
  have wrote : Wrote wr w₀ w₁ := by
    rcases one with rfl | ⟨la, rfl⟩
    · have posted : w₀.1.post c wr = w₁.1 := step
      exact ⟨by rw [← posted]; rfl, linked, fun b => by rw [← posted, view_post], by rw [← posted]; rfl,
        by rw [← posted]; rfl⟩
    · rw [post_pair] at step
      refine ⟨by rw [← step]; rfl, linked, fun b => ?_, by rw [← step]; rfl, by rw [← step]; rfl⟩
      rw [← step, view_post_other (by simp [Write.target]), view_post]
  have more := keep w₀ w₁ sane.more wrote
  exact ⟨more, h w₀ w₁ calm sane wrote ⟨inv, more⟩⟩

theorem Wrote.calm {la : GlobalAddress} {w w' : World} (h : Wrote (.unlock la) w w') : Calm cfg c w w' := by
  have view : w'.1.view = w.1.view := funext fun b => by rw [h.view, if_neg (by simp [Write.target])]
  refine ⟨⟨⟨h.rootPtr, h.linked, fun a _ _ _ => congrFun view a⟩, ?_, fun on => by rwa [h.dir]⟩, view⟩
  rw [ownCache, ownCache, h.cache]
  exact .refl _

theorem Wrote.unlock {la : GlobalAddress} {w w' : World} (h : Wrote (.unlock la) w w') (more : A.inv w) : A.inv w' := by
  refine Framed.keep _ _ more h.calm fun ok => ?_
  rwa [ownCache, h.cache]

theorem adds_unlockAddr {la : GlobalAddress} {async : Bool} {Q : Unit → World → Prop}
    (h : ∀ w', Calm cfg c w w' → Kept A w' → Q () w') : Within A (unlockAddr la async) Q w := by
  have release : ∀ w', Calm cfg c w w' → Within A (verb (.releaseLocalLock la)) Q w' := fun w' calm' =>
    adds_skipLast trivial fun _ w'' calm'' => h w'' (calm'.trans calm'')
  refine adds_skip trivial fun handOver w₁ calm₁ _ => ?_
  cases handOver with
  | true => exact release w₁ calm₁
  | false =>
      refine adds_post (.inl rfl) (fun u u' more wrote => wrote.unlock more) fun w₂ w₃ calm₂ _ wrote₃ _ => ?_
      have calm₃ := (calm₁.trans calm₂).trans wrote₃.calm
      cases async with
      | true => exact release w₃ calm₃
      | false => exact adds_skip trivial fun _ w₄ calm₄ _ => release w₄ (calm₃.trans calm₄)

omit [Framed A] in
theorem Wrote.keep [Lasting A] {wr : Write} {w w' : World} (h : Wrote wr w w') (more : A.inv w) : A.inv w' :=
  Lasting.write _ _ more h.linked h.cache h.dir

omit [Framed A] in
theorem adds_writePageAndUnlock [Lasting A] {wr : Write} {la : GlobalAddress} {async : Bool} {Q : Unit → World → Prop}
    (h : ∀ w₀ w₁ w₂, Calm cfg c w w₀ → Kept A w₀ → Wrote wr w₀ w₁ → Kept A w₁ → Calm cfg c w₁ w₂ →
      Kept A w₂ → Q () w₂) : Within A (writePageAndUnlock wr la async) Q w := by
  refine adds_skip trivial fun handOver w₁ calm₁ _ => ?_
  cases handOver with
  | true =>
      refine adds_post (.inl rfl) (fun _ _ more wrote => wrote.keep more) fun w₂ w₃ calm₂ sane₂ wrote₃ sane₃ => ?_
      refine adds_skip trivial fun _ w₄ calm₄ _ => ?_
      exact adds_skipLast trivial fun _ w₅ calm₅ =>
        h w₂ w₃ w₅ (calm₁.trans calm₂) sane₂ wrote₃ sane₃ (calm₄.trans calm₅)
  | false =>
      refine adds_post (.inr ⟨la, rfl⟩) (fun _ _ more wrote => wrote.keep more) fun w₂ w₃ calm₂ sane₂ wrote₃ sane₃ => ?_
      have release : ∀ w', Calm cfg c w₃ w' → Within A (verb (.releaseLocalLock la)) Q w' := fun w' calm' =>
        adds_skipLast trivial fun _ w'' calm'' =>
          h w₂ w₃ w'' (calm₁.trans calm₂) sane₂ wrote₃ sane₃ (calm'.trans calm'')
      cases async with
      | true => exact release w₃ (.refl cfg c w₃)
      | false => exact adds_skip trivial fun _ w₄ calm₄ _ => release w₄ calm₄

/-! ### Writes that leave the tree above the leaves alone -/

theorem Wrote.same {wr : Write} {w w' : World} (h : Wrote wr w w')
    (view : ∀ a l x, w.2.Linked a (l + 1) x → w'.1.view a = w.1.view a) : Same cfg c w w' := by
  refine ⟨⟨h.rootPtr, h.linked, view⟩, ?_, fun on => by rwa [h.dir]⟩
  rw [ownCache, ownCache, h.cache]
  exact .refl _

theorem Wrote.same_entry {b : GlobalAddress} {i : Nat} {r : LeafEntry} {w w' : World}
    (h : Wrote (.entry b i r) w w') (inv : TreeInv w.1 w.2) : Same cfg c w w' := by
  refine h.same fun a l x linked => ?_
  obtain ⟨p, view, -⟩ := inv.linked_internal linked
  rw [h.view, view]
  split
  · rfl
  · rfl

theorem Wrote.same_leaf {b : GlobalAddress} {p : LeafPage} {w w' : World} (h : Wrote (.page b (.leaf p)) w w')
    (inv' : TreeInv w'.1 w'.2) : Same cfg c w w' := by
  refine h.same fun a l x linked => ?_
  obtain ⟨q, view, -⟩ := inv'.linked_internal (h.linked _ _ _ linked)
  have written := h.view a
  rw [view] at written
  split at written
  · cases written
  · rw [view, written]

theorem Wrote.same_private {b : GlobalAddress} {page : Page} {w w' : World} (h : Wrote (.page b page) w w')
    (new : ∀ l x, ¬ w.2.Linked b (l + 1) x) : Same cfg c w w' := by
  refine h.same fun a l x linked => ?_
  rw [h.view, if_neg]
  intro target
  cases target
  exact new l x linked

omit [Framed A] in
theorem adds_writeSync [Lasting A] {b : GlobalAddress} {page : Page} {Q : Unit → World → Prop}
    (new : ∀ l x, ¬ w.2.Linked b (l + 1) x)
    (h : ∀ w', Same cfg c w w' → Kept A w' → w'.1.view b = some page → (∀ l x, ¬ w'.2.Linked b (l + 1) x) →
      Q () w') (sane : Kept A w) : Within A (writeSync b page) Q w := by
  refine adds_post (.inl rfl) (fun _ _ more wrote => wrote.keep more) fun w₀ w₁ calm₀ sane₀ wrote₁ sane₁ => ?_
  refine adds_skipLast trivial fun _ w₂ calm₂ sane₂ => ?_
  have new₀ : ∀ l x, ¬ w₀.2.Linked b (l + 1) x := fun l x linked => new l x (calm₀.back sane.tree sane₀.tree linked)
  have same := calm₀.toSame.trans ((wrote₁.same_private new₀).trans calm₂.toSame)
  refine h w₂ same sane₂ ?_ fun l x linked => new l x (same.back sane.tree sane₂.tree linked)
  rw [calm₂.all, wrote₁.view]
  simp [Write.target, Write.apply]

/-! ### Pages above the leaves -/

theorem Wrote.others {a b : GlobalAddress} {page : Page} {w w' : World} (h : Wrote (.page a page) w w') (other : b ≠ a) :
    w'.1.view b = w.1.view b := by
  rw [h.view, if_neg]
  exact fun target => other (Option.some.inj target).symm

theorem Wrote.written {a : GlobalAddress} {page : Page} {w w' : World} (h : Wrote (.page a page) w w') :
    w'.1.view a = some page := by
  rw [h.view]
  simp [Write.target, Write.apply]

omit [Framed A] in
theorem Kept.inner (kept : Kept A w) {a : GlobalAddress} {level : Nat} {x : Key} (nonzero : level ≠ 0)
    (linked : w.2.Linked a level x) :
    ∃ p, w.1.view a = some (.internal p) ∧ p.hdr.level = level ∧ p.hdr.lowest = x := by
  obtain ⟨l, rfl⟩ := Nat.exists_eq_succ_of_ne_zero nonzero
  exact kept.tree.linked_internal linked

omit [Framed A] in
theorem Kept.owed_inside (kept : Kept A w) {a v : GlobalAddress} {p : InternalPage} {k x : Key}
    (linked : w.2.Linked a p.hdr.level x) (view : w.1.view a = some (.internal p))
    (child : w.2.Linked v (p.hdr.level - 1) k) (owed : w.2.owed v = some c) (low : p.hdr.lowest ≤ k) :
    p.hdr.lowest < k := by
  refine lt_of_le_of_ne low fun same => ?_
  have first : p.Child p.hdr.leftmostPtr p.hdr.lowest := .inl ⟨rfl, rfl⟩
  have start := kept.tree.child_linked view first
  rw [same] at start first
  have := kept.tree.unique _ _ _ _ child start
  exact (kept.tree.owed v c owed).2 a p view linked.2 k (this ▸ first)

omit [Framed A] in
theorem TreeInv.sibling_linked {s : Shared} {g : Ghost} (inv : TreeInv s g) {a b v : GlobalAddress}
    {p p' q sib : InternalPage} {k splitKey : Key} (written : s.view a = some (.internal q.setConsistent))
    (stored : p.Stored k v p') (halves : p'.Halves b q sib splitKey) : g.Linked b p.hdr.level splitKey := by
  obtain ⟨level, -, highest, sibling⟩ := halves.page_hdr
  rcases (inv.view_sound a _ written).points.1 with ⟨last, -⟩ | ⟨-, next⟩
  · have := halves.below
    have := halves.sibling_ok.highest_le
    simp only [InternalPage.setConsistent] at last this
    rw [highest] at last
    rw [halves.sibling_hdr.2.2.1] at this
    lia
  · simpa only [InternalPage.setConsistent, level, stored.level, highest, sibling] using next

/-! ## Other steps -/

omit [Framed A] in
theorem interfere_calm (w' : World) {e : Env} (inv : Invariant (.one c high) cfg w) (step : interfere e w.1 = some w'.1)
    (linked : ∀ a l x, w.2.Linked a l x → w'.2.Linked a l x) :
    Calm cfg c w w' ∧ ∀ n, (w.1.cache n).Ok → (w'.1.cache n).Ok := by
  cases e with
  | execute i =>
      obtain ⟨x, executed⟩ := executed_of_interfere step
      have leaves : Leaves w.1 w'.1 := ⟨executed.rootPtr, executed.view inv.lock.single, executed.dir,
        fun n => .inl (congrFun executed.cache n)⟩
      exact ⟨leaves.calm linked, fun n => leaves.ok⟩
  | evict m e =>
      simp only [interfere, Option.some.injEq] at step
      have leaves : Leaves w.1 w'.1 := by
        refine ⟨by rw [← step], by rw [← step]; exact view_congr rfl rfl, by rw [← step], fun n => ?_⟩
        rw [← step]
        by_cases same : n = m
        · subst same
          exact .inr ⟨e, Function.update_self ..⟩
        · exact .inl (Function.update_of_ne same _ _)
      exact ⟨leaves.calm linked, fun n => leaves.ok⟩
  | deliver m i =>
      simp only [interfere] at step
      split at step
      · cases step
      · rename_i a level _
        simp only [Option.some.injEq] at step
        have cache : w'.1.cache = w.1.cache := by rw [← step]
        have view : w'.1.view = w.1.view := by rw [← step]; exact view_congr rfl rfl
        have inner : SameInner w w' := ⟨by rw [← step], linked, fun b _ _ _ => by rw [view]⟩
        refine ⟨⟨⟨inner, ?_, fun on => ?_⟩, view⟩, fun n ok => by rwa [cache]⟩
        · rw [ownCache, ownCache, cache]
          exact .refl _
        · rw [← step]
          by_cases same : cfg.nodeOf c = m
          · rw [same] at on ⊢
            simp only [Function.update_self]
            exact enabled_processNewRoot on
          · simpa only [Function.update_of_ne same] using on

omit [Framed A] in
theorem ghost_calm {g : Ghost} (linked : ∀ a l x, w.2.Linked a l x → g.Linked a l x) : Calm cfg c w (w.1, g) :=
  ⟨⟨⟨rfl, linked, fun _ _ _ _ => rfl⟩, .refl _, id⟩, rfl⟩

end Rules

/-! ## The root of a client that caches -/

variable {w : World}

theorem adds_rootPtr {Q : GlobalAddress → World → Prop}
    (h : ∀ root w', Calm cfg c w w' → Sane cfg c w' → RootOk cfg c root w' → Q root w') :
    Adds cfg c getRootPtr Q w := by
  refine adds_plain trivial fun w₀ choice g w₁ calm₀ sane₀ step calm₁ sane₁ => ?_
  simp only [perform, Option.some.injEq, Prod.mk.injEq] at step
  obtain ⟨rfl, -⟩ := step
  have sound := sane₀.tree.dir (cfg.nodeOf c)
  split
  · rename_i null
    have empty : ownCache cfg c w₀ = [] := by
      refine sane₀.cache.empty ?_
      rcases sound with ⟨-, unknown, -⟩ | ⟨l, -, -, linked⟩
      · refine Bool.eq_false_iff.mpr fun on => ?_
        have := sane₀.inv.high trivial _ on
        omega
      · exact absurd null (sane₀.tree.ne_null linked)
    exact adds_skipLast trivial fun root w₂ calm₂ sane₂ => h root w₂ ((calm₀.trans calm₁).trans calm₂) sane₂
      (RootOk.same (.inl empty) (calm₁.trans calm₂).toSame)
  · rename_i nonnull
    refine adds_last (adds_plain trivial fun w₂ choice root w₃ calm₂ sane₂ step calm₃ sane₃ => ?_)
    simp only [perform, Option.some.injEq, Prod.mk.injEq] at step
    obtain ⟨rfl, -⟩ := step
    refine adds_ret fun w₄ calm₄ sane₄ => ?_
    refine h _ w₄ ((calm₀.trans (calm₁.trans calm₂)).trans (calm₃.trans calm₄)) sane₄ ?_
    refine RootOk.same ?_ (calm₃.trans calm₄).toSame
    cases on : (w₂.1.dir (cfg.nodeOf c)).enableCache with
    | false => exact .inl (sane₂.cache.empty on)
    | true =>
        have high := sane₂.inv.high trivial (cfg.nodeOf c) on
        rcases sane₂.tree.dir (cfg.nodeOf c) with ⟨-, unknown, -⟩ | ⟨l, level, -, linked⟩
        · omega
        · exact .inr ⟨l, Int.ofNat_le.mp (level ▸ high), linked⟩

end Sherman
