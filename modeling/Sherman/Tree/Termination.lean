import Mathlib.Data.Prod.Lex
import Sherman.Concurrency.Termination
import Sherman.Tree.EntryWrites

namespace Sherman

open Concurrency

/-! ## Following a link leads right -/

def Rises : (p : Proc) → World → Ret p → World → Prop
  | .pageSearch a _ _, w, r, w' => ∀ result, r = some result → result.slibing ≠ .null →
      ∀ l x, w.2.Linked a l x → ∃ y, w'.2.Linked result.slibing l y ∧ x < y
  | _, _, _, _ => True

theorem sibling_right {page : Page} {w : World} (ok : page.Ok) (points : page.Points w.2.Linked)
    (exists_ : page.hdr.siblingPtr ≠ .null) :
    w.2.Linked page.hdr.siblingPtr page.hdr.level page.hdr.highest ∧ page.hdr.lowest < page.hdr.highest := by
  rcases points.sibling with ⟨-, last⟩ | ⟨-, linked⟩
  · exact absurd last exists_
  · exact ⟨linked, ok.fence⟩

structure Leads (l : Nat) (x k : Key) (result : SearchResult) (w : World) : Prop where
  level : result.level = l
  isLeaf : result.isLeaf = true ↔ l = 0
  right : result.slibing ≠ .null → ∃ y, w.2.Linked result.slibing l y ∧ x < y ∧ y ≤ k
  down : result.slibing = .null → l ≠ 0 → ∃ y, w.2.Linked result.nextLevel (l - 1) y

def Led (l : Nat) (x k : Key) (fromCache : Bool) : Option SearchResult → World → Prop
  | none, _ => fromCache = true
  | some result, w => Leads l x k result w

section
variable {t : Client} {a : GlobalAddress} {k : Key} {fromCache : Bool} {l : Nat} {x : Key} {r : Option SearchResult}
  {w w' : World}

theorem led_of_post (linked : w.2.Linked a l x) (post : Post .any t (.pageSearch a k fromCache) w r w')
    (rises : Rises (.pageSearch a k fromCache) w r w') : Led l x k fromCache r w' := by
  obtain ⟨-, -, answer⟩ := post
  cases r with
  | none => exact answer.1
  | some result =>
      obtain ⟨l', x', linked', ⟨level, isLeaf, rest⟩, -⟩ := answer
      obtain ⟨rfl, rfl⟩ := linked.level_eq linked'
      refine ⟨level, isLeaf, fun notNull => ?_, fun null inner => ?_⟩
      · rw [if_pos notNull] at rest
        obtain ⟨-, -, y, reach, le⟩ := rest
        obtain ⟨y', next, right⟩ := rises result rfl notNull l x linked
        obtain ⟨-, rfl⟩ := next.level_eq reach.1
        exact ⟨y', next, right, le⟩
      · rw [if_neg (not_not.mpr null), if_neg inner] at rest
        obtain ⟨-, y, reach, -⟩ := rest
        exact ⟨y, reach.1⟩

theorem Led.mono (led : Led l x k fromCache r w) (grows : Grows w w') : Led l x k fromCache r w' := by
  cases r with
  | none => exact led
  | some result =>
      refine ⟨led.level, led.isLeaf, fun notNull => ?_, fun null inner => ?_⟩
      · obtain ⟨y, linked, right⟩ := led.right notNull
        exact ⟨y, grows _ _ _ linked, right⟩
      · obtain ⟨y, linked⟩ := led.down null inner
        exact ⟨y, grows _ _ _ linked⟩

end

/-! ## The notes along a function -/

/-- What is noted along function `p`, whose page is the one of level `l` at `x`, is true of the tree. -/
structure NoteSound (p : Proc) (l : Nat) (x : Key) (n : Note) (w : World) : Prop where
  place : ∀ a k, p.place = some (a, k) → w.2.Linked a l x
  page : ∀ page, n.page = some page →
    page.hdr.level = l ∧ page.hdr.lowest = x ∧ page.Ok ∧ page.Points w.2.Linked
  search : ∀ fromCache r, n.search = some (fromCache, r) → ∃ a k, p.place = some (a, k) ∧ Led l x k fromCache r w

structure Above (cfg : Config) (P : Protocol signature Client Op Result Shared Ghost Env) : Prop where
  inv : ∀ w, P.inv w → Invariant .any cfg w
  rely : ∀ t w w', P.rely t w w' → Grows w w'
  guar : ∀ t v w w', P.guar t v w w' → Grows w w'
  post : ∀ t p w r w', P.post t p w r w' → Post .any t p w r w'

theorem above_protocol (cfg : Config) : Above cfg (protocol .any cfg) where
  inv _ inv := inv
  rely _ _ _ rely := rely.linked
  guar _ _ _ _ guar := guar.extends.linked
  post _ _ _ _ _ post := post

theorem above_strengthen {cfg : Config} (A : (protocol .any cfg).Strengthening) : Above cfg A.strengthen where
  inv _ inv := inv.1
  rely _ _ _ rely := rely.1.linked
  guar _ _ _ _ guar := guar.1.extends.linked
  post _ _ _ _ _ post := post.1

section
variable {cfg : Config} {P : Protocol signature Client Op Result Shared Ghost Env} {t : Client} {α : Type}
  {pre : Proc → World → Prop} {post : (p : Proc) → World → Ret p → World → Prop} {w w' : World} {p : Proc}
  {l : Nat} {x : Key} {n : Note}

theorem NoteSound.mono (sound : NoteSound p l x n w) (grows : Grows w w') : NoteSound p l x n w' where
  place a k at_ := grows _ _ _ (sound.place a k at_)
  page page read := by
    obtain ⟨level, lowest, ok, points⟩ := sound.page page read
    exact ⟨level, lowest, ok, points.mono fun c l y => grows c l y⟩
  search fromCache r found := by
    obtain ⟨a, k, at_, led⟩ := sound.search fromCache r found
    exact ⟨a, k, at_, led.mono grows⟩

theorem NoteSound.step (above : Above cfg P) (sound : NoteSound p l x n w) (inv : P.inv w) {v : Verb} {choice : Choice}
    {r : Resp v} {s : Shared} {g : Ghost} (step : perform cfg t v choice w.1 = some (r, s))
    (guar : P.guar t v w (s, g)) {n' : Note} (walked : (walk cfg p.place p.entryPage (Calls p)).step n v r n') :
    NoteSound p l x n' (s, g) := by
  obtain ⟨-, allowed, page, search⟩ := walked
  have grows := above.guar t v w (s, g) guar
  have after := sound.mono grows
  refine ⟨after.place, ?_, search ▸ after.search⟩
  rw [page]
  cases v with
  | readPage a =>
      obtain ⟨k, at_⟩ := allowed
      obtain ⟨page, mem, level, lowest⟩ := (above.inv w inv).tree.linked_mem (sound.place a k at_)
      have read := (above.inv w inv).tree.mem_sound a page mem
      change (if w.1.drained t a.nodeID then some (w.1.mem a, w.1) else none) = some (r, s) at step
      split at step
      · cases step
        rw [mem]
        rintro _ ⟨⟩
        exact ⟨level, lowest, read.ok, read.points.mono fun c l y => grows c l y⟩
      · cases step
  | _ => exact after.page

theorem NoteSound.back (sound : NoteSound p l x n w) (grows : Grows w w') {q : Proc} {r : Ret q}
    (after : Post .any t q w r w') (rises : Rises q w r w') :
    NoteSound p l x ⟨.none, n.page, searchAfter p.place q r⟩ w' := by
  have later := sound.mono grows
  refine ⟨later.place, later.page, ?_⟩
  intro fromCache r' found
  cases q with
  | pageSearch a k fromCache' =>
      simp only [searchAfter] at found
      split at found
      · rename_i at_
        cases found
        exact ⟨a, k, at_, led_of_post (sound.place a k at_) after rises⟩
      · cases found
  | _ => cases found

theorem adds_of_through (above : Above cfg P)
    (after : ∀ q w r w', P.post t q w r w' → post q w r w' → Grows w w' ∧ Rises q w r w')
    (allowed : ∀ n q w, NoteSound p l x n w → Calls p n q → pre q w) {m : Code α} {Q : α → Note → Prop}
    (through : Through cfg p m n Q) (sound : NoteSound p l x n w) {w₀ : World} (grows : Grows w₀ w) :
    (P.contracts pre post).adds (system cfg) t m
      (fun value w' => Grows w₀ w' ∧ ∃ n', Q value n' ∧ NoteSound p l x n' w') w := by
  induction m generalizing n w with
  | ret value =>
      intro w' rely _ _ _
      have step := above.rely t w w' rely
      exact ⟨grows.trans step, n, through, sound.mono step⟩
  | fault error => trivial
  | verb v next ih =>
      intro w' rely _ inv _ _ choice r s step g guar
      obtain ⟨n', walked, rest⟩ := through r
      have before := above.rely t w w' rely
      have during := above.guar t v w' (s, g) guar
      refine ⟨trivial, fun _ _ => trivial, ih r rest ?_ ((grows.trans before).trans during)⟩
      exact (sound.mono before).step above inv step guar walked
  | call q next ih =>
      intro w' rely _ _ _ _ _ _
      obtain ⟨⟨-, calls⟩, rest⟩ := through
      have before := above.rely t w w' rely
      refine ⟨allowed n q w' (sound.mono before) calls, fun r w'' ended ended' => ?_⟩
      obtain ⟨during, rises⟩ := after q w' r w'' ended ended'
      apply ih r (rest r ⟨.none, n.page, searchAfter p.place q r⟩ ⟨rfl, rfl, rfl⟩) _ ((grows.trans before).trans during)
      exact (sound.mono before).back during (above.post t q w' r w'' ended) rises

theorem place_of_pre (pre : Pre .any cfg t p w) : ∃ l x, ∀ a k, p.place = some (a, k) → w.2.Linked a l x := by
  cases p with
  | pageSearch a k fromCache =>
      obtain ⟨-, l, x, reach, -⟩ := pre
      exact ⟨l, x, by rintro _ _ ⟨⟩; exact reach.1⟩
  | internalPageStore a k v root level =>
      obtain ⟨-, ⟨x, linked, -⟩, -⟩ := pre
      exact ⟨level, x, by rintro _ _ ⟨⟩; exact linked⟩
  | leafPageStore a k v root level fromCache =>
      obtain ⟨-, -, ⟨x, reach, -⟩, -⟩ := pre
      exact ⟨0, x, by rintro _ _ ⟨⟩; exact reach.1⟩
  | leafPageDel a k level fromCache =>
      obtain ⟨-, -, ⟨x, reach, -⟩, -⟩ := pre
      exact ⟨0, x, by rintro _ _ ⟨⟩; exact reach.1⟩
  | insertInternalNext p k v root level =>
      obtain ⟨-, ⟨l, x, reach, -⟩, -⟩ := pre
      exact ⟨l, x, by rintro _ _ ⟨⟩; exact reach.1⟩
  | insertNext p k v root | delNext p k | searchNext p k root entry =>
      obtain ⟨-, ⟨l, x, reach, -⟩, -⟩ := pre
      exact ⟨l, x, by rintro _ _ ⟨⟩; exact reach.1⟩
  | internalSplitUp a splitKey sibling root level => exact ⟨0, 0, nofun⟩
  | leafSplitUp a splitKey sibling root level fromCache => exact ⟨0, 0, nofun⟩

def noNote : Note := ⟨.none, none, none⟩

theorem noNote_sound (place : ∀ a k, p.place = some (a, k) → w.2.Linked a l x) : NoteSound p l x noNote w :=
  ⟨place, nofun, nofun⟩

theorem rises_of_ended {r : Ret p} (ended : p.Ended r n) (sound : NoteSound p l x n w') (grows : Grows w w') :
    Rises p w r w' := by
  cases p with
  | pageSearch a k fromCache =>
      intro result found notNull l' x' linked
      obtain ⟨page, read, onward⟩ := Looked.onward ended
      obtain ⟨level, lowest, ok, points⟩ := sound.page page read
      obtain ⟨rfl, rfl⟩ := (grows _ _ _ linked).level_eq (sound.place a k rfl)
      have same := (onward ok result found).resolve_left notNull
      rw [same] at notNull ⊢
      obtain ⟨next, right⟩ := sibling_right ok points notNull
      exact ⟨page.hdr.highest, level ▸ next, lowest ▸ right⟩
  | _ => trivial

end

def risingProtocol (cfg : Config) : Protocol signature Client Op Result Shared Ghost Env :=
  ((protocol .any cfg).contracts (fun _ _ => True) fun p w r w' => Grows w w' ∧ Rises p w r w').strengthen

theorem risingProtocol_sound (cfg : Config) : (risingProtocol cfg).Sound (system cfg) := by
  apply Protocol.Strengthening.strengthen_sound (protocol_sound .any cfg)
  apply Protocol.contracts_sound fun _ _ => trivial
  intro t p w _ required
  obtain ⟨l, x, place⟩ := place_of_pre required
  have through := walks_body cfg p (n := noNote) rfl
  apply Protocol.Strengthening.adds_mono
  · exact adds_of_through (above_protocol cfg) (fun _ _ _ _ _ rises => rises) (fun _ _ _ _ _ => trivial) through
      (noNote_sound place) (fun _ _ _ linked => linked)
  · rintro r w' ⟨grows, n', ended, sound⟩
    exact ⟨grows, rises_of_ended ended sound grows⟩

theorem risingProtocol_may {cfg : Config} {s : State} {a : Action Client Op Choice Env}
    (may : (protocol .any cfg).May s a) : (risingProtocol cfg).May s a :=
  Protocol.Strengthening.strengthen_may may (fun _ _ _ _ _ => trivial) fun _ _ _ => trivial

theorem above_rising (cfg : Config) : Above cfg (risingProtocol cfg) := above_strengthen _

/-! ## The rank of a call -/

def remaining (w : World) : Option (GlobalAddress × Key) → Nat ×ₗ Nat
  | some (a, k) => toLex (((w.2.info a).getD (0, 0)).1, k - ((w.2.info a).getD (0, 0)).2)
  | none => toLex (0, 0)

/-- Within a phase a call goes down to lower levels, and within a level to the right. -/
def Proc.rank (p : Proc) (w : World) : Nat ×ₗ Nat ×ₗ Nat := toLex (p.phase, remaining w p.place)

theorem remaining_linked {w : World} {a : GlobalAddress} {k : Key} {l : Nat} {x : Key} (linked : w.2.Linked a l x) :
    remaining w (some (a, k)) = toLex (l, k - x) := by
  simp only [remaining, linked.1, Option.getD_some]

@[simp] theorem Proc.phase_moveTo (p : Proc) (b : GlobalAddress) : (p.moveTo b).phase = p.phase := by
  cases p <;> rfl

theorem Proc.place_moveTo {p : Proc} {a : GlobalAddress} {k : Key} (at_ : p.place = some (a, k)) (b : GlobalAddress) :
    (p.moveTo b).place = some (b, k) := by
  cases p <;> cases at_ <;> rfl

section
variable {p q : Proc} {a b : GlobalAddress} {k : Key} {l l' : Nat} {x y : Key} {n : Note} {w w' : World}

theorem rank_moveTo (at_ : p.place = some (a, k)) (linked : w.2.Linked a l x) (next : w.2.Linked b l' y)
    (less : toLex (l', k - y) < toLex (l, k - x)) : (p.moveTo b).rank w < p.rank w := by
  rw [Proc.rank, Proc.rank, Proc.phase_moveTo, Proc.place_moveTo at_, at_, remaining_linked next,
    remaining_linked linked]
  exact Prod.Lex.toLex_lt_toLex.mpr (.inr ⟨rfl, less⟩)

theorem remaining_right (right : x < y) (le : y ≤ k) : toLex (l, k - y) < toLex (l, k - x) := by
  have := right
  unfold Key at *
  exact Prod.Lex.toLex_lt_toLex.mpr (.inr ⟨rfl, by dsimp only; omega⟩)

theorem rank_right (at_ : p.place = some (a, k)) (linked : w.2.Linked a l x)
    (next : ∃ y, w.2.Linked b l y ∧ x < y ∧ y ≤ k) : (p.moveTo b).rank w < p.rank w := by
  obtain ⟨y, next, right, le⟩ := next
  exact rank_moveTo at_ linked next (remaining_right right le)

theorem rank_calls (calls : Calls p n q) (sound : NoteSound p l x n w) : q.rank w < p.rank w := by
  cases calls with
  | later less => exact Prod.Lex.toLex_lt_toLex.mpr (.inl less)
  | right read at_ past exists_ =>
      obtain ⟨rfl, rfl, ok, points⟩ := sound.page _ read
      obtain ⟨next, right⟩ := sibling_right ok points exists_
      exact rank_right at_ (sound.place _ _ at_) ⟨_, next, right, past⟩
  | onward found exists_ =>
      obtain ⟨a, k, at_, led⟩ := sound.search _ _ found
      exact rank_right at_ (sound.place a k at_) (led.right exists_)
  | down found last inner =>
      obtain ⟨a, k, at_, led⟩ := sound.search _ _ found
      have notLeaf : l ≠ 0 := fun leaf => inner ⟨led.isLeaf.mpr leaf, led.level.trans leaf⟩
      obtain ⟨y, next⟩ := led.down last notLeaf
      apply rank_moveTo at_ (sound.place a k at_) next
      exact Prod.Lex.toLex_lt_toLex.mpr (.inl (Nat.sub_lt (Nat.pos_of_ne_zero notLeaf) Nat.one_pos))
  | again read torn => exact absurd (sound.page _ read).2.2.1 torn
  | missed found =>
      obtain ⟨a, k, -, led⟩ := sound.search _ _ found
      cases led

theorem rank_same (place : ∀ a k, p.place = some (a, k) → w.2.Linked a l x) (sound : NoteSound p l x n w') :
    p.rank w' = p.rank w := by
  unfold Proc.rank
  cases at_ : p.place with
  | none => rfl
  | some at' => rw [remaining_linked (place _ _ at_), remaining_linked (sound.place _ _ at_)]

end

/-! ## Every operation comes to its end -/

theorem rising_descends (cfg : Config) : (risingProtocol cfg).Descends (system cfg) Proc.rank := by
  intro t p w _ required
  obtain ⟨l, x, place⟩ := place_of_pre required.1
  have lower : ∀ n q w', NoteSound p l x n w' → Calls p n q → q.rank w' < p.rank w := by
    intro n q w' sound calls
    exact rank_same place sound ▸ rank_calls calls sound
  have through := walks_body cfg p (n := noNote) rfl
  apply Protocol.Strengthening.adds_mono
  · exact adds_of_through (above_rising cfg) (fun _ _ _ _ rises _ => rises.2) lower through (noNote_sound place)
      (fun _ _ _ linked => linked)
  · exact fun _ _ _ => trivial

def KeyBelow (a : Action Client Op Choice Env) : Prop := ∀ t op, a = .invoke t op → op.key < kKeyMax

def Turn (cfg : Config) (t : Client) (s s' : State) : Prop := (system cfg).Turn KeyBelow t s s'

theorem turns_acc {cfg : Config} {s : State} (reachable : Reachable cfg s) {t : Client} {op : Op} {rest : Code Result}
    (running : s.threads t = .running op rest) : Acc (fun s'' s' => Turn cfg t s' s'') s := by
  obtain ⟨root, as, nonnull, keys, run⟩ := reachable
  have sound := risingProtocol_sound cfg
  have start : (risingProtocol cfg).Good (system cfg) (State.init root) (Ghost.init root) := by
    obtain ⟨inv, idle⟩ := init_good .any cfg nonnull
    exact ⟨⟨inv, trivial⟩, fun t => ⟨idle t, trivial⟩⟩
  have always : (system cfg).Throughout (risingProtocol cfg).May (State.init root) as :=
    System.Throughout.mono (system cfg) (fun _ _ => risingProtocol_may) (throughout_any keys)
  obtain ⟨g, good⟩ := Protocol.good_run sound start always run
  have ends := sound.ends (rising_descends cfg) (good.thread running).2
  have may : ∀ s a, KeyBelow a → (risingProtocol cfg).May s a := fun s a below => risingProtocol_may (may_any below)
  exact ends.acc sound may (by simp [KeyBelow]) good running

end Sherman
