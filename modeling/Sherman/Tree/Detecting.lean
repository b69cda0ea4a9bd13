import Sherman.Tree.CacheRules

namespace Sherman

open Shared Concurrency IndexCache

def Op.fromRoot (root : GlobalAddress) : Op → Proc
  | .insert k v => .insertNext root k v root
  | .del k => .delNext root k
  | .search k => .searchNext root k root none

def Astray (view : GlobalAddress → Option Page) (k : Key) (a : GlobalAddress) : Prop :=
  ∀ p, view a = some (.leaf p) → k < p.hdr.lowest ∨ p.hdr.highest ≤ k

/-- Every entry of the cache for the key leads to a leaf that does not cover it. -/
def Misleads (view : GlobalAddress → Option Page) (k : Key) (cache : IndexCache) : Prop :=
  ∀ e ∈ cache, ∀ p, e.ptr = some p → e.fromKey ≤ k → k ≤ e.toKey → Astray view k (p.child k)

theorem Misleads.fades {view : GlobalAddress → Option Page} {k : Key} {cache cache' : IndexCache}
    (misleads : Misleads view k cache) (fades : cache.Fades cache') : Misleads view k cache' := by
  intro e he p live
  have kept : e ∈ cache := fades.live he (by simp [live])
  exact misleads e kept p live

theorem Misleads.hit {view : GlobalAddress → Option Page} {k : Key} {cache : IndexCache} (misleads : Misleads view k cache)
    {e : CacheEntry} {a : GlobalAddress} (hit : cache.searchFromCache k = some (e, a)) : Astray view k a := by
  obtain ⟨mem, p, live, low, high, rfl⟩ := searchFromCache_spec hit
  exact misleads e mem p live low high

/-! ## The contracts -/

def DetectPre (view : GlobalAddress → Option Page) (op : Op) : Proc → Prop
  | .pageSearch a k fromCache => k = op.key ∧ fromCache = true ∧ Astray view k a
  | .leafPageStore a k _ _ _ fromCache => k = op.key ∧ fromCache = true ∧ Astray view k a
  | .leafPageDel a k _ fromCache => k = op.key ∧ fromCache = true ∧ Astray view k a
  | .searchNext a k _ (some _) => op = .search k ∧ Astray view k a
  | _ => False

def DetectPost : (p : Proc) → Ret p → Prop
  | .pageSearch .., result => result = none
  | .leafPageStore .., stored => stored = false
  | .leafPageDel .., deleted => deleted = false
  | _, _ => False

/-- The client runs `op` on the tree `view` and has not come back to the root, so it never ends. -/
@[reducible] def detecting (cfg : Config) (c : Client) (high : Prop) (view : GlobalAddress → Option Page) (op : Op) :
    (protocol (.one c high) cfg).Strengthening where
  inv w := w.1.view = view ∧ Misleads view op.key (ownCache cfg c w)
  rely t w w' := t = c → Calm cfg c w w'
  rely_refl _ w _ := .refl cfg c w
  rely_trans _ _ _ _ h h' := Calm.trans_own h h'
  mayCall _ p s := s.view = view → ∀ root, p ≠ op.fromRoot root
  mayInvoke _ op' _ := op' = op
  pre _ p _ := DetectPre view op p
  post _ p _ r _ := DetectPost p r
  idle _ _ := True
  started t op' _ := t = c ∧ op' = op
  finished _ _ _ _ := False

variable {cfg : Config} {c : Client} {high : Prop} {view : GlobalAddress → Option Page} {op : Op} {w : World}
  {a root : GlobalAddress} {k : Key}

instance : Framed (detecting cfg c high view op) where
  rely _ _ rely := rely rfl
  others _ _ _ other same := absurd same other
  keep _ _ inv calm _ := ⟨calm.all.trans inv.1, inv.2.fades calm.cache⟩

/-! ## The programs -/

theorem detects_lastFromRoot {p : Proc} (atRoot : p = op.fromRoot root) {Q : Ret p → World → Prop} :
    Within (detecting cfg c high view op) (call p) Q w := by
  intro w' _ _ _ more _ may
  exact absurd atRoot (may more.1 root)

theorem detects_pageSearch (astray : Astray view op.key a) :
    Within (detecting cfg c high view op) (pageSearch a op.key true) (fun result _ => result = none) w := by
  refine adds_readPage fun w₁ _ kept₁ => ?_
  cases read : w₁.1.view a with
  | none => exact adds_stop
  | some page =>
      rw [kept₁.more.1] at read
      refine adds_bind (adds_storePath fun w₂ _ _ => ?_)
      split
      · rename_i p _
        unfold searchLeaf
        split
        · exact adds_lastCall fun _ _ _ _ => ⟨⟨rfl, rfl, astray⟩, fun _ _ _ _ missed _ _ => missed⟩
        · rw [if_pos ⟨rfl, astray p read⟩]
          exact adds_ret fun _ _ _ => rfl
      · exact adds_assert fun _ => adds_assert fun direct => by cases direct
      · exact adds_stop

theorem detects_leafPageStore {v : Value} {level : Nat} (astray : Astray view op.key a) :
    Within (detecting cfg c high view op) (leafPageStore cfg a op.key v root level true)
      (fun stored _ => stored = false) w := by
  refine adds_lockAndReadPage fun w₁ _ kept₁ => ?_
  split
  · rename_i p read
    rw [kept₁.more.1] at read
    refine adds_assert fun _ => adds_assert fun _ => ?_
    rw [if_pos ⟨rfl, astray p read⟩]
    exact adds_bind (adds_unlockAddr fun _ _ _ => adds_ret fun _ _ _ => rfl)
  · exact adds_stop

theorem detects_leafPageDel {level : Nat} (astray : Astray view op.key a) :
    Within (detecting cfg c high view op) (leafPageDel cfg a op.key level true)
      (fun deleted _ => deleted = false) w := by
  refine adds_lockAndReadPage fun w₁ _ kept₁ => ?_
  split
  · rename_i p read
    rw [kept₁.more.1] at read
    refine adds_assert fun _ => adds_assert fun _ => ?_
    rw [if_pos ⟨rfl, astray p read⟩]
    exact adds_bind (adds_unlockAddr fun _ _ _ => adds_ret fun _ _ _ => rfl)
  · exact adds_stop

theorem detects_searchNext {e : CacheEntry} (astray : Astray view k a) :
    Within (detecting cfg c high view (.search k)) (searchNext a k root (some e)) (fun _ _ => False) w := by
  refine adds_call fun w₁ _ _ _ => ⟨⟨rfl, rfl, astray⟩, fun result w₂ _ missed => ?_⟩
  obtain rfl : result = none := missed
  exact adds_skip trivial fun _ _ _ _ => detects_lastFromRoot rfl

theorem detects_lookup (op : Op) {α : Type} {next : Option (CacheEntry × GlobalAddress) → Code α} {Q : α → World → Prop}
    (miss : ∀ w', Within (detecting cfg c high view op) (next none) Q w')
    (hit : ∀ w' e a, Astray view op.key a → Within (detecting cfg c high view op) (next (some (e, a))) Q w') :
    Within (detecting cfg c high view op) (verb (.searchFromCache op.key) >>= next) Q w := by
  refine adds_searchFromCache fun w₁ _ kept₁ => ?_
  cases found : (ownCache cfg c w₁).searchFromCache op.key with
  | none => exact miss w₁
  | some entry => exact hit w₁ entry.1 entry.2 (kept₁.more.2.hit found)

section
variable {Q : Unit → World → Prop}

theorem detects_insertFromRoot {v : Value} : Within (detecting cfg c high view (.insert k v)) (insertFromRoot k v) Q w :=
  adds_bind (adds_getRootPtr fun _ _ _ _ => detects_lastFromRoot rfl)

theorem detects_insert {v : Value} : Within (detecting cfg c high view (.insert k v)) (insert k v) Q w := by
  refine adds_skip trivial fun _ w₁ _ _ => adds_skip trivial fun enableCache w₂ _ _ => ?_
  cases enableCache with
  | false => exact detects_insertFromRoot
  | true =>
      refine detects_lookup (.insert k v) (fun _ => detects_insertFromRoot) fun w₃ e a astray => ?_
      refine adds_bind (adds_getRootPtr fun root w₄ _ _ => ?_)
      refine adds_call fun w₅ _ _ _ => ⟨⟨rfl, rfl, astray⟩, fun stored w₆ _ missed => ?_⟩
      obtain rfl : stored = false := missed
      exact adds_skip trivial fun _ _ _ _ => detects_insertFromRoot

theorem detects_delFromRoot : Within (detecting cfg c high view (.del k)) (delFromRoot k) Q w :=
  adds_bind (adds_getRootPtr fun _ _ _ _ => detects_lastFromRoot rfl)

theorem detects_del : Within (detecting cfg c high view (.del k)) (del k) Q w := by
  refine adds_skip trivial fun _ w₁ _ _ => adds_skip trivial fun enableCache w₂ _ _ => ?_
  cases enableCache with
  | false => exact detects_delFromRoot
  | true =>
      refine detects_lookup (.del k) (fun _ => detects_delFromRoot) fun w₃ e a astray => ?_
      refine adds_call fun w₄ _ _ _ => ⟨⟨rfl, rfl, astray⟩, fun deleted w₅ _ missed => ?_⟩
      obtain rfl : deleted = false := missed
      exact adds_skip trivial fun _ _ _ _ => detects_delFromRoot

theorem detects_search {Q : Option Value → World → Prop} :
    Within (detecting cfg c high view (.search k)) (search k) Q w := by
  refine adds_bind (adds_getRootPtr fun root w₁ _ _ => adds_skip trivial fun enableCache w₂ _ _ => ?_)
  cases enableCache with
  | false => exact detects_lastFromRoot rfl
  | true =>
      refine detects_lookup (.search k) (fun _ => detects_lastFromRoot rfl) fun w₃ e a astray => ?_
      exact adds_lastCall fun _ _ _ _ => ⟨⟨rfl, astray⟩, fun _ _ _ _ never => never.elim⟩

end

theorem detects_main : Within (detecting cfg c high view op) (main op) (fun _ _ => False) w := by
  cases op with
  | insert k v => exact adds_bind detects_insert
  | del k => exact adds_bind detects_del
  | search k => exact adds_bind detects_search

theorem detects_body {p : Proc} (pre : DetectPre view op p) :
    Within (detecting cfg c high view op) (body cfg p) (fun r _ => DetectPost p r) w := by
  cases p with
  | pageSearch a k fromCache =>
      obtain ⟨rfl, rfl, astray⟩ := pre
      exact detects_pageSearch astray
  | leafPageStore a k v root level fromCache =>
      obtain ⟨rfl, rfl, astray⟩ := pre
      exact detects_leafPageStore astray
  | leafPageDel a k level fromCache =>
      obtain ⟨rfl, rfl, astray⟩ := pre
      exact detects_leafPageDel astray
  | searchNext a k root entry =>
      cases entry with
      | none => exact pre.elim
      | some e =>
          obtain ⟨rfl, astray⟩ := pre
          exact detects_searchNext astray
  | _ => exact pre.elim

theorem detecting_sound (cfg : Config) (c : Client) (high : Prop) (view : GlobalAddress → Option Page) (op : Op) :
    (detecting cfg c high view op).Sound (system cfg) where
  rely_idle _ _ _ _ _ _ := trivial
  invoke t op' w g inv more _ may same _ others _ := by
    have calm : Calm cfg c w (w.1, g) := ghost_calm (others (t + 1) (Nat.succ_ne_self t)).linked
    exact ⟨more, fun _ _ _ => calm, may.1 c rfl, same⟩
  respond _ _ _ _ _ _ _ never := never.elim
  interfere e w s g inv more step _ all := by
    obtain ⟨calm, ok⟩ := interfere_calm (s, g) inv step (all c).linked
    exact ⟨Framed.keep w (s, g) more calm (ok _), fun _ _ => calm⟩
  main t op' w _ _ _ started := by
    obtain ⟨rfl, rfl⟩ := started
    exact detects_main
  proc t p w _ _ _ pre may := by
    obtain rfl := may.1 c rfl
    exact detects_body pre

end Sherman
