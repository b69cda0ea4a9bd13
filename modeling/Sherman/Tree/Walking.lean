import Sherman.Concurrency.Monitor
import Sherman.Tree.Structure

/-!
# The functions of the tree, walked through

Along the functions is noted which lock is held, which page has been read and what the last search has found.
What they may write and which functions they call depends on it; the discipline of the locks, the writes of
entries and the end of every operation are read off from this.
-/

namespace Sherman

open Concurrency

/-! ## Locks -/

/-- How far a client is with a lock. Both ways to give it back start with `can_hand_over` and end with
`releases_local_lock`; when nobody waits, the lock word is zeroed in between. -/
inductive Phase where
  | free
  | held (la : GlobalAddress)
  | handing (la : GlobalAddress)
  | releasing (la : GlobalAddress)
  | zeroed (la : GlobalAddress)
  deriving DecidableEq

def Phase.lock : Phase → Option GlobalAddress
  | .held la | .handing la | .releasing la => some la
  | .free | .zeroed _ => none

structure Hold where
  phase : Phase
  fresh : Option GlobalAddress
  deriving DecidableEq

namespace Hold

def none : Hold := ⟨.free, .none⟩

def write (cfg : Config) (h : Hold) : Write → Option Hold
  | .unlock la => if h.phase = .releasing la then some { h with phase := .zeroed la } else .none
  | .page a _ | .entry a _ _ =>
      if h.phase.lock = some (cfg.lockAddr a) then some { h with fresh := .none }
      else if h.fresh = some a then some h
      else .none

def writes (cfg : Config) (h : Hold) : List Write → Option Hold
  | [] => some h
  | w :: ws => (h.write cfg w).bind fun h' => h'.writes cfg ws

end Hold

/-- The discipline: a verb out of order has no next state. -/
def lockMonitor (cfg : Config) : Monitor signature Hold where
  next h
    | .tryLock la, _ => if h.phase = .free then some { h with phase := .held la } else .none
    | .canHandOver la, handOverOther =>
        if h.phase = .held la then some { h with phase := if handOverOther then .handing la else .releasing la }
        else .none
    | .post ws, _ => h.writes cfg ws
    | .releaseLocalLock la, _ =>
        if h.phase = .handing la ∨ h.phase = .zeroed la then some { h with phase := .free } else .none
    | .alloc, a => some { h with fresh := some a }
    | .casRoot _ _, _ => some { h with fresh := .none }
    | _, _ => some h
  rest h := h.phase = .free

theorem write_locked {cfg : Config} {h : Hold} {w : Write} {a : GlobalAddress} (target : w.target = some a)
    (lock : h.phase.lock = some (cfg.lockAddr a)) : h.write cfg w = some { h with fresh := .none } := by
  cases w with
  | unlock la => cases target
  | page b p =>
      cases target
      exact if_pos lock
  | entry b i r =>
      cases target
      exact if_pos lock

/-! ## Calls -/

namespace Proc

/-- The page a function works at, and the key it works for. -/
def place : Proc → Option (GlobalAddress × Key)
  | .pageSearch a k _ | .internalPageStore a k _ _ _ | .leafPageStore a k _ _ _ _ | .leafPageDel a k _ _ => some (a, k)
  | .insertInternalNext p k _ _ _ | .insertNext p k _ _ | .delNext p k | .searchNext p k _ _ => some (p, k)
  | .internalSplitUp _ _ _ _ _ | .leafSplitUp _ _ _ _ _ _ => none

def moveTo (b : GlobalAddress) : Proc → Proc
  | .internalPageStore _ k v root level => .internalPageStore b k v root level
  | .leafPageStore _ k v root level _ => .leafPageStore b k v root level false
  | .leafPageDel _ k level _ => .leafPageDel b k level false
  | .insertInternalNext _ k v root level => .insertInternalNext b k v root level
  | .insertNext _ k v root => .insertNext b k v root
  | .delNext _ k => .delNext b k
  | .searchNext _ k root entry => .searchNext b k root entry
  | .pageSearch _ k fromCache => .pageSearch b k fromCache
  | p => p

/-- The later phases of an operation have lower numbers. -/
def phase : Proc → Nat
  | .searchNext _ _ _ entry => if entry.isSome then 20 else 19
  | .insertNext _ _ _ _ | .delNext _ _ => 19
  | .leafPageStore _ _ _ _ _ _ | .leafPageDel _ _ _ _ => 18
  | .leafSplitUp _ _ _ _ _ _ => 17
  | .insertInternalNext _ _ _ _ _ => 16
  | .internalPageStore _ _ _ _ level => 2 * (kMaxLevelOfTree - level) + 1
  | .internalSplitUp _ _ _ _ level => 2 * (kMaxLevelOfTree - level)
  | .pageSearch _ _ _ => 0

def entryPage : Proc → Option GlobalAddress
  | .leafPageStore a _ _ _ _ _ | .leafPageDel a _ _ _ => some a
  | _ => none

end Proc

structure Note where
  hold : Hold
  page : Option Page
  search : Option (Bool × Option SearchResult)

/-- Which functions function `p` calls: of a later phase, or itself at the next page. -/
inductive Calls (p : Proc) (n : Note) : Proc → Prop
  | later {q : Proc} (less : q.phase < p.phase) : Calls p n q
  | right {page : Page} {a : GlobalAddress} {k : Key} (read : n.page = some page) (at_ : p.place = some (a, k))
      (past : page.hdr.highest ≤ k) (exists_ : page.hdr.siblingPtr ≠ .null) : Calls p n (p.moveTo page.hdr.siblingPtr)
  | onward {fromCache : Bool} {result : SearchResult} (found : n.search = some (fromCache, some result))
      (exists_ : result.slibing ≠ .null) : Calls p n (p.moveTo result.slibing)
  | down {fromCache : Bool} {result : SearchResult} (found : n.search = some (fromCache, some result))
      (last : result.slibing = .null) (inner : ¬ (result.isLeaf = true ∧ result.level = 0)) :
      Calls p n (p.moveTo result.nextLevel)
  | again {page : Page} {q : Proc} (read : n.page = some page) (torn : ¬ page.Ok) : Calls p n q
  | missed {q : Proc} (found : n.search = some (false, none)) : Calls p n q

def EntryAt (target : Option GlobalAddress) : Write → Prop
  | .entry a i _ => target = some a ∧ i < kLeafCardinality
  | _ => True

def Allowed (place : Option (GlobalAddress × Key)) (target : Option GlobalAddress) : Verb → Prop
  | .readPage a => ∃ k, place = some (a, k)
  | .post ws => ∀ w ∈ ws, EntryAt target w
  | _ => True

def pageAfter (old : Option Page) : (v : Verb) → Resp v → Option Page
  | .readPage _, page => page
  | _, _ => old

def searchAfter (place : Option (GlobalAddress × Key)) : (q : Proc) → Ret q → Option (Bool × Option SearchResult)
  | .pageSearch a k fromCache, r => if place = some (a, k) then some (fromCache, r) else none
  | _, _ => none

def walk (cfg : Config) (place : Option (GlobalAddress × Key)) (target : Option GlobalAddress)
    (calls : Note → Proc → Prop) : Walk signature Note where
  step n v r n' := (lockMonitor cfg).next n.hold v r = some n'.hold ∧ Allowed place target v ∧
    n'.page = pageAfter n.page v r ∧ n'.search = n.search
  calls n q := n.hold.phase = .free ∧ calls n q
  back n q r n' := n'.hold.phase = .free ∧ n'.page = n.page ∧ n'.search = searchAfter place q r

def Verb.quiet : Verb → Bool
  | .readPage _ | .tryLock _ | .canHandOver _ | .releaseLocalLock _ | .post _ | .alloc | .casRoot _ _ => false
  | _ => true

/-! ## Rules -/

section
variable {cfg : Config} {place : Option (GlobalAddress × Key)} {target : Option GlobalAddress}
  {calls : Note → Proc → Prop} {n : Note} {α β : Type}

abbrev Walks (cfg : Config) (place : Option (GlobalAddress × Key)) (target : Option GlobalAddress)
    (calls : Note → Proc → Prop) (m : Code α) (n : Note) (Q : α → Note → Prop) : Prop :=
  (walk cfg place target calls).Follows m n Q

theorem walks_bind {m : Code α} {next : α → Code β} {Q : β → Note → Prop}
    (first : Walks cfg place target calls m n fun value n' => Walks cfg place target calls (next value) n' Q) :
    Walks cfg place target calls (m >>= next) n Q := first.bind

theorem walks_verb {v : Verb} {next : Resp v → Code β} {Q : β → Note → Prop} (allowed : Allowed place target v)
    (rest : ∀ r, ∃ hold, (lockMonitor cfg).next n.hold v r = some hold ∧
      Walks cfg place target calls (next r) ⟨hold, pageAfter n.page v r, n.search⟩ Q) :
    Walks cfg place target calls (verb v >>= next) n Q := by
  intro r
  obtain ⟨hold, step, tail⟩ := rest r
  exact ⟨⟨hold, pageAfter n.page v r, n.search⟩, ⟨step, allowed, rfl, rfl⟩, tail⟩

theorem walks_quiet {v : Verb} {next : Resp v → Code β} {Q : β → Note → Prop} (quiet : v.quiet = true)
    (rest : ∀ r, Walks cfg place target calls (next r) n Q) :
    Walks cfg place target calls (verb v >>= next) n Q := by
  intro r
  refine ⟨n, ?_, rest r⟩
  cases v with
  | readPage _ | tryLock _ | canHandOver _ | releaseLocalLock _ | post _ | alloc | casRoot _ _ => cases quiet
  | _ => exact ⟨rfl, trivial, rfl, rfl⟩

theorem walks_lastQuiet {v : Verb} {Q : Resp v → Note → Prop} (quiet : v.quiet = true) (rest : ∀ r, Q r n) :
    Walks cfg place target calls (verb v) n Q := by
  change Walks cfg place target calls (verb v >>= Program.ret) n Q
  exact walks_quiet quiet rest

theorem walks_call {q : Proc} {next : Ret q → Code β} {Q : β → Note → Prop} (free : n.hold.phase = .free)
    (called : calls n q)
    (rest : ∀ r n', n'.hold.phase = .free → n'.page = n.page → n'.search = searchAfter place q r →
      Walks cfg place target calls (next r) n' Q) : Walks cfg place target calls (call q >>= next) n Q :=
  ⟨⟨free, called⟩, fun r n' back => rest r n' back.1 back.2.1 back.2.2⟩

def Closed (_ : α) (n : Note) : Prop := n.hold.phase = .free

theorem walks_tailCall {q : Proc} (free : n.hold.phase = .free) (called : calls n q) :
    Walks cfg place target calls (call q) n Closed :=
  ⟨⟨free, called⟩, fun _ _ back => back.1⟩

theorem walks_assert {condition : Prop} [Decidable condition] {fn : Fn} {which : Check} {next : Unit → Code β}
    {Q : β → Note → Prop} (rest : condition → Walks cfg place target calls (next ()) n Q) :
    Walks cfg place target calls (assert condition fn which >>= next) n Q :=
  walks_bind (Walk.follows_check rest)

theorem walks_ofExcept {e : Except Fault α} {next : α → Code β} {Q : β → Note → Prop}
    (rest : ∀ value, e = .ok value → Walks cfg place target calls (next value) n Q) :
    Walks cfg place target calls (Program.ofExcept (S := signature) e >>= next) n Q :=
  walks_bind (Walk.follows_ofExcept rest)

/-! ## Locks and writes -/

variable {la a : GlobalAddress} {k : Key} {w : Write} {async : Bool}

/-- The lock is given back, and all else is noted as before. -/
structure Released (n : Note) (_ : Unit) (n' : Note) : Prop where
  free : n'.hold.phase = .free
  page : n'.page = n.page
  search : n'.search = n.search

theorem walks_lockAndReadPage {next : Option Page → Code β} {Q : β → Note → Prop} (free : n.hold.phase = .free)
    (at_ : place = some (a, k))
    (rest : ∀ page, Walks cfg place target calls (next page) ⟨{ n.hold with phase := .held la }, page, n.search⟩ Q) :
    Walks cfg place target calls (lockAndReadPage a la >>= next) n Q := by
  apply walks_verb
  · exact trivial
  · intro _
    refine ⟨_, if_pos free, ?_⟩
    apply walks_verb
    · exact ⟨k, at_⟩
    · exact fun page => ⟨_, rfl, rest page⟩

theorem walks_releaseLocalLock {m : Note} (held : n.hold.phase = .handing la ∨ n.hold.phase = .zeroed la)
    (page : n.page = m.page) (search : n.search = m.search) :
    Walks cfg place target calls (verb (.releaseLocalLock la)) n (Released m) := by
  change Walks cfg place target calls (verb (.releaseLocalLock la) >>= Program.ret) n (Released m)
  apply walks_verb
  · exact trivial
  · exact fun _ => ⟨_, if_pos held, rfl, page, search⟩

theorem walks_unlockAddr (held : n.hold.phase = .held la) :
    Walks cfg place target calls (unlockAddr la async) n (Released n) := by
  apply walks_verb
  · exact trivial
  · intro handOver
    refine ⟨_, if_pos held, ?_⟩
    cases handOver with
    | true => exact walks_releaseLocalLock (.inl rfl) rfl rfl
    | false =>
        apply walks_verb
        · exact List.forall_mem_singleton.mpr trivial
        · intro _
          refine ⟨{ n.hold with phase := .zeroed la }, by simp [lockMonitor, Hold.writes, Hold.write], ?_⟩
          cases async with
          | true => exact walks_releaseLocalLock (.inr rfl) rfl rfl
          | false => exact walks_quiet rfl fun _ => walks_releaseLocalLock (.inr rfl) rfl rfl

theorem walks_writePageAndUnlock (target_ : w.target = some a) (at_ : EntryAt target w)
    (held : n.hold.phase = .held (cfg.lockAddr a)) :
    Walks cfg place target calls (writePageAndUnlock w (cfg.lockAddr a) async) n (Released n) := by
  apply walks_verb
  · exact trivial
  · intro handOver
    refine ⟨_, if_pos held, ?_⟩
    cases handOver with
    | true =>
        apply walks_verb
        · exact List.forall_mem_singleton.mpr at_
        · intro _
          refine ⟨⟨.handing (cfg.lockAddr a), .none⟩, ?_, ?_⟩
          · simp only [lockMonitor, Hold.writes]
            rw [write_locked target_ rfl]
            rfl
          · exact walks_quiet rfl fun _ => walks_releaseLocalLock (.inl rfl) rfl rfl
    | false =>
        apply walks_verb
        · exact List.forall_mem_cons.mpr ⟨at_, List.forall_mem_singleton.mpr trivial⟩
        · intro _
          refine ⟨⟨.zeroed (cfg.lockAddr a), .none⟩, ?_, ?_⟩
          · simp only [lockMonitor, Hold.writes]
            rw [write_locked target_ rfl]
            simp [Hold.write]
          · cases async with
            | true => exact walks_releaseLocalLock (.inr rfl) rfl rfl
            | false => exact walks_quiet rfl fun _ => walks_releaseLocalLock (.inr rfl) rfl rfl

theorem walks_writePage {p : Page} (held : n.hold.phase = .held (cfg.lockAddr a)) :
    Walks cfg place target calls (writePageAndUnlock (.page a p) (cfg.lockAddr a) async) n (Released n) :=
  walks_writePageAndUnlock rfl trivial held

theorem walks_writeEntry {i : Nat} {r : LeafEntry} (less : i < kLeafCardinality)
    (held : n.hold.phase = .held (cfg.lockAddr a)) :
    Walks cfg place (some a) calls (writePageAndUnlock (.entry a i r) (cfg.lockAddr a) async) n (Released n) :=
  walks_writePageAndUnlock rfl ⟨rfl, less⟩ held

theorem walks_writeSync {p : Page} {next : Unit → Code β} {Q : β → Note → Prop} (fresh : n.hold.fresh = some a)
    (rest : ∀ hold, hold.phase = n.hold.phase → Walks cfg place target calls (next ()) ⟨hold, n.page, n.search⟩ Q) :
    Walks cfg place target calls (writeSync a p >>= next) n Q := by
  have allowed : ∃ hold, n.hold.write cfg (.page a p) = some hold ∧ hold.phase = n.hold.phase := by
    by_cases lock : n.hold.phase.lock = some (cfg.lockAddr a)
    · exact ⟨_, if_pos lock, rfl⟩
    · exact ⟨n.hold, by simp [Hold.write, lock, fresh], rfl⟩
  obtain ⟨hold, written, same⟩ := allowed
  apply walks_verb
  · exact List.forall_mem_singleton.mpr trivial
  · intro _
    refine ⟨hold, ?_, ?_⟩
    · simp only [lockMonitor, Hold.writes]
      rw [written]
      rfl
    · exact walks_quiet rfl fun _ => rest hold same

/-! ## The root pointer and `path_stack` -/

theorem walks_getRootPtr {next : GlobalAddress → Code β} {Q : β → Note → Prop}
    (rest : ∀ a, Walks cfg place target calls (next a) n Q) :
    Walks cfg place target calls (getRootPtr >>= next) n Q := by
  apply walks_bind
  apply walks_quiet rfl
  intro g
  split
  · exact walks_lastQuiet rfl rest
  · exact walks_lastQuiet rfl rest

theorem walks_loadPath {level : Nat} {next : GlobalAddress → Code β} {Q : β → Note → Prop}
    (rest : level < kMaxLevelOfTree → ∀ a, Walks cfg place target calls (next a) n Q) :
    Walks cfg place target calls (loadPath level >>= next) n Q := by
  apply walks_bind
  unfold loadPath
  split
  · rename_i below
    exact walks_lastQuiet rfl (rest below)
  · trivial

theorem walks_storePath {level : Nat} {b : GlobalAddress} {next : Unit → Code β} {Q : β → Note → Prop}
    (rest : Walks cfg place target calls (next ()) n Q) :
    Walks cfg place target calls (storePath level b >>= next) n Q := by
  apply walks_bind
  unfold storePath
  split
  · exact walks_lastQuiet rfl fun _ => rest
  · trivial

theorem walks_updateNewRoot {left right oldRoot : GlobalAddress} {level : Nat} {next : Bool → Code β}
    {Q : β → Note → Prop} (free : n.hold.phase = .free)
    (rest : ∀ updated n', n'.hold.phase = .free → Walks cfg place target calls (next updated) n' Q) :
    Walks cfg place target calls (updateNewRoot left k right level oldRoot >>= next) n Q := by
  apply walks_bind
  apply walks_verb
  · exact trivial
  · intro a
    refine ⟨_, rfl, walks_writeSync rfl fun hold same => ?_⟩
    apply walks_verb
    · exact trivial
    · intro swapped
      refine ⟨_, rfl, ?_⟩
      split
      · exact walks_quiet rfl fun _ => rest true _ (same.trans free)
      · exact rest false _ (same.trans free)

end

/-! ## Searching -/

section
variable {cfg : Config} {n : Note} {α β : Type}

abbrev Through (cfg : Config) (p : Proc) (m : Code α) (n : Note) (Q : α → Note → Prop) : Prop :=
  Walks cfg p.place p.entryPage (Calls p) m n Q

/-- A page sends a search on along its own link only. -/
def Onward (hdr : Header) (r : Option SearchResult) : Prop :=
  ∀ result, r = some result → result.slibing = .null ∨ result.slibing = hdr.siblingPtr

structure Looked (r : Option SearchResult) (n : Note) : Prop where
  free : n.hold.phase = .free
  onward : ∃ page, n.page = some page ∧ (page.Ok → Onward page.hdr r)

variable {a : GlobalAddress} {k : Key} {fromCache : Bool}

theorem walks_searchAgain {page : Page} (free : n.hold.phase = .free) (read : n.page = some page) (torn : ¬ page.Ok) :
    Through cfg (.pageSearch a k fromCache) (call (.pageSearch a k fromCache)) n Looked := by
  change Through cfg (.pageSearch a k fromCache) (call (.pageSearch a k fromCache) >>= Program.ret) n Looked
  apply walks_call free (.again read torn)
  intro r n' free' same _
  exact ⟨free', page, same.trans read, fun ok => absurd ok torn⟩

theorem walks_searchLeaf {p : LeafPage} (free : n.hold.phase = .free) (read : n.page = some (.leaf p)) :
    Through cfg (.pageSearch a k fromCache) (searchLeaf p a k fromCache) n Looked := by
  unfold searchLeaf
  split
  · rename_i torn
    apply walks_searchAgain free read
    exact fun ok => torn (by simp [LeafPage.checkConsistent, LeafPage.Ok.consistent ok])
  · split
    · exact ⟨free, _, read, fun _ result found => by cases found⟩
    · apply walks_assert
      intro _
      split
      · exact ⟨free, _, read, fun _ result found => by cases found; exact .inr rfl⟩
      · split
        · trivial
        · exact ⟨free, _, read, fun _ result found => by cases found; exact .inl rfl⟩

theorem walks_cacheLevelOne {p : InternalPage} {q : Proc} {next : Unit → Code β} {Q : β → Note → Prop}
    (rest : Through cfg q (next ()) n Q) : Through cfg q (cacheLevelOne p >>= next) n Q := by
  apply walks_bind
  unfold cacheLevelOne
  split
  · apply walks_quiet rfl
    intro enableCache
    split
    · exact walks_lastQuiet rfl fun _ => rest
    · exact rest
  · exact rest

theorem walks_searchInternal {p : InternalPage} (free : n.hold.phase = .free) (read : n.page = some (.internal p)) :
    Through cfg (.pageSearch a k fromCache) (searchInternal p a k fromCache) n Looked := by
  apply walks_assert
  intro _
  apply walks_assert
  intro _
  split
  · rename_i torn
    apply walks_searchAgain free read
    exact fun ok => torn (by simp [InternalPage.checkConsistent, InternalPage.Ok.consistent ok])
  · apply walks_cacheLevelOne
    split
    · exact ⟨free, _, read, fun _ result found => by cases found; exact .inr rfl⟩
    · split
      · trivial
      · apply walks_ofExcept
        exact fun _ _ => ⟨free, _, read, fun _ result found => by cases found; exact .inl rfl⟩

theorem walks_pageSearch (free : n.hold.phase = .free) :
    Through cfg (.pageSearch a k fromCache) (pageSearch a k fromCache) n Looked := by
  apply walks_verb
  · exact ⟨k, rfl⟩
  · intro page
    refine ⟨_, rfl, ?_⟩
    cases page with
    | none => trivial
    | some page =>
        apply walks_storePath
        split
        · rename_i p same _
          cases same
          exact walks_searchLeaf free rfl
        · rename_i p same _
          cases same
          exact walks_searchInternal free rfl
        · trivial

/-! ## Storing -/

variable {v root sibling : GlobalAddress} {value : Value} {level : Nat}

theorem walks_internalPageStore (free : n.hold.phase = .free) :
    Through cfg (.internalPageStore a k v root level) (internalPageStore cfg a k v root level) n Closed := by
  apply walks_lockAndReadPage free rfl
  intro page
  split
  · rename_i page
    apply walks_assert
    intro _
    apply walks_assert
    intro _
    split
    · -- the page to the right
      rename_i past
      apply walks_bind
      refine (walks_unlockAddr rfl).mono fun _ n' released => ?_
      apply walks_assert
      exact fun exists_ => walks_tailCall released.free (.right released.page rfl past exists_)
    · apply walks_assert
      intro _
      apply walks_ofExcept
      intro page _
      split
      · apply walks_verb
        · exact trivial
        · intro siblingAddr
          refine ⟨_, rfl, ?_⟩
          apply walks_ofExcept
          rintro ⟨page, sibling, splitKey⟩ _
          apply walks_writeSync rfl
          intro hold same
          apply walks_bind
          refine (walks_writePage same).mono fun _ n' released => ?_
          exact walks_tailCall released.free (.later (Nat.lt_succ_self _))
      · exact (walks_writePage rfl).mono fun _ _ released => released.free
  · trivial

theorem walks_leafPageStore (free : n.hold.phase = .free) :
    Through cfg (.leafPageStore a k value root level fromCache) (leafPageStore cfg a k value root level fromCache) n
      Closed := by
  apply walks_lockAndReadPage free rfl
  intro page
  split
  · rename_i page
    apply walks_assert
    intro _
    apply walks_assert
    intro _
    split
    · apply walks_bind
      exact (walks_unlockAddr rfl).mono fun _ _ released => released.free
    · split
      · rename_i past
        apply walks_bind
        refine (walks_unlockAddr rfl).mono fun _ n' released => ?_
        apply walks_assert
        intro exists_
        exact walks_call released.free (.right released.page rfl past exists_) fun _ _ free' _ _ => free'
      · apply walks_assert
        intro _
        apply walks_ofExcept
        rintro ⟨i, page, cnt⟩ stored
        dsimp only
        split
        · apply walks_bind
          exact (walks_writeEntry (LeafPage.store_lt stored) rfl).mono fun _ _ released => released.free
        · apply walks_verb
          · exact trivial
          · intro siblingAddr
            refine ⟨_, rfl, ?_⟩
            apply walks_ofExcept
            rintro ⟨page, sibling, splitKey⟩ _
            apply walks_writeSync rfl
            intro hold same
            apply walks_bind
            refine (walks_writePage same).mono fun _ n' released => ?_
            exact walks_call released.free (.later (Nat.lt_succ_self 17)) fun _ _ free' _ _ => free'
  · trivial

theorem walks_leafPageDel (free : n.hold.phase = .free) :
    Through cfg (.leafPageDel a k level fromCache) (leafPageDel cfg a k level fromCache) n Closed := by
  apply walks_lockAndReadPage free rfl
  intro page
  split
  · rename_i page
    apply walks_assert
    intro _
    apply walks_assert
    intro _
    split
    · apply walks_bind
      exact (walks_unlockAddr rfl).mono fun _ _ released => released.free
    · split
      · rename_i past
        apply walks_bind
        refine (walks_unlockAddr rfl).mono fun _ n' released => ?_
        apply walks_assert
        intro exists_
        exact walks_call released.free (.right released.page rfl past exists_) fun _ _ free' _ _ => free'
      · apply walks_assert
        intro _
        split
        · rename_i i page deleted
          apply walks_bind
          exact (walks_writeEntry (LeafPage.del_lt deleted) rfl).mono fun _ _ released => released.free
        · apply walks_bind
          exact (walks_unlockAddr rfl).mono fun _ _ released => released.free
  · trivial

/-! ## After a split -/

theorem walks_internalParentStore (free : n.hold.phase = .free) :
    Through cfg (.internalSplitUp a k sibling root level) (internalParentStore k sibling root level) n Closed := by
  apply walks_loadPath
  intro below upLevel
  split
  · refine walks_tailCall free (.later ?_)
    simp only [Proc.phase]
    omega
  · trivial

theorem walks_internalSplitUp (free : n.hold.phase = .free) :
    Through cfg (.internalSplitUp a k sibling root level) (internalSplitUp a k sibling root level) n Closed := by
  unfold internalSplitUp
  split
  · apply walks_updateNewRoot free
    intro updated n' free'
    split
    · exact free'
    · exact walks_internalParentStore free'
  · exact walks_internalParentStore free

theorem walks_leafParentStore (free : n.hold.phase = .free) :
    Through cfg (.leafSplitUp a k sibling root level fromCache) (leafParentStore k sibling root level fromCache) n
      Closed := by
  apply walks_loadPath
  intro _ upLevel
  split
  · refine walks_tailCall free (.later ?_)
    simp only [Proc.phase, kMaxLevelOfTree]
    omega
  · apply walks_assert
    intro _
    apply walks_getRootPtr
    exact fun root => walks_tailCall free (.later (Nat.lt_succ_self 16))

theorem walks_leafSplitUp (free : n.hold.phase = .free) :
    Through cfg (.leafSplitUp a k sibling root level fromCache) (leafSplitUp a k sibling root level fromCache) n
      Closed := by
  unfold leafSplitUp
  split
  · apply walks_updateNewRoot free
    intro updated n' free'
    split
    · exact free'
    · exact walks_leafParentStore free'
  · exact walks_leafParentStore free

/-! ## The loops -/

variable {p : GlobalAddress}

theorem searchAfter_self {q : Proc} {r : Option SearchResult} (at_ : q.place = some (a, k)) :
    searchAfter q.place (.pageSearch a k fromCache) r = some (fromCache, r) := if_pos at_

theorem walks_search {q : Proc} {next : Option SearchResult → Code β} {Q : β → Note → Prop}
    (free : n.hold.phase = .free) (at_ : q.place = some (a, k)) (later : 0 < q.phase)
    (rest : ∀ r n', n'.hold.phase = .free → n'.search = some (fromCache, r) → Through cfg q (next r) n' Q) :
    Through cfg q (call (.pageSearch a k fromCache) >>= next) n Q := by
  apply walks_call free (.later later)
  exact fun r n' free' _ found => rest r n' free' (found.trans (searchAfter_self at_))

theorem walks_onward {q : Proc} {result : SearchResult} {fn : Fn} {which : Check} {m : GlobalAddress → Code β}
    {last : Code β} {Q : β → Note → Prop} (found : n.search = some (fromCache, some result))
    (next : ∀ b, Calls q n (q.moveTo b) → Through cfg q (m b) n Q) (leaf : Through cfg q last n Q) :
    Through cfg q (assert (result.level ≠ 0) fn which >>= fun _ =>
      if result.slibing ≠ .null then m result.slibing
      else if result.level ≠ level then m result.nextLevel
      else last) n Q := by
  apply walks_assert
  intro inner
  split
  · rename_i exists_
    exact next _ (.onward found exists_)
  · rename_i null
    split
    · exact next _ (.down found (not_not.mp null) fun isLeaf => inner isLeaf.2)
    · exact leaf

theorem walks_insertInternalNext (free : n.hold.phase = .free) :
    Through cfg (.insertInternalNext p k v root level) (insertInternalNext p k v root level) n Closed := by
  refine walks_search free rfl (Nat.succ_pos 15) fun r n' free' found => ?_
  cases r with
  | none => exact walks_getRootPtr fun _ => walks_tailCall free' (.missed found)
  | some result =>
      apply walks_onward (m := fun b => call (.insertInternalNext b k v root level)) found
      · exact fun b again => walks_tailCall free' again
      · refine walks_tailCall free' (.later ?_)
        simp only [Proc.phase, kMaxLevelOfTree]
        omega

theorem walks_insertNext (free : n.hold.phase = .free) :
    Through cfg (.insertNext p k value root) (insertNext p k value root) n Closed := by
  refine walks_search free rfl (Nat.succ_pos 18) fun r n' free' found => ?_
  cases r with
  | none => exact walks_getRootPtr fun _ => walks_tailCall free' (.missed found)
  | some result =>
      dsimp only
      split
      · exact walks_call free' (.later (Nat.lt_succ_self 18)) fun _ _ free'' _ _ => free''
      · apply walks_onward (m := fun b => call (.insertNext b k value root)) found
        · exact fun b again => walks_tailCall free' again
        · exact walks_call free' (.later (Nat.lt_succ_self 18)) fun _ _ free'' _ _ => free''

theorem walks_delNext (free : n.hold.phase = .free) : Through cfg (.delNext p k) (delNext p k) n Closed := by
  refine walks_search free rfl (Nat.succ_pos 18) fun r n' free' found => ?_
  cases r with
  | none => exact walks_getRootPtr fun _ => walks_tailCall free' (.missed found)
  | some result =>
      dsimp only
      split
      · exact walks_call free' (.later (Nat.lt_succ_self 18)) fun _ _ free'' _ _ => free''
      · apply walks_onward (m := fun b => call (.delNext b k)) found
        · exact fun b again => walks_tailCall free' again
        · exact walks_call free' (.later (Nat.lt_succ_self 18)) fun _ _ free'' _ _ => free''

theorem walks_searchNext {entry : Option CacheEntry} (free : n.hold.phase = .free) :
    Through cfg (.searchNext p k root entry) (searchNext p k root entry) n Closed := by
  have later : 0 < (Proc.searchNext p k root entry).phase := by
    simp only [Proc.phase]
    split <;> decide
  apply walks_search free rfl later
  intro r n' free' found
  cases r with
  | none =>
      cases entry with
      | none => exact walks_tailCall free' (.missed found)
      | some e => exact walks_quiet rfl fun _ => walks_tailCall free' (.later (Nat.lt_succ_self 19))
  | some result =>
      dsimp only
      split
      · split
        · exact free'
        · split
          · rename_i exists_
            exact walks_tailCall free' (.onward found exists_)
          · exact free'
      · rename_i inner
        by_cases exists_ : result.slibing ≠ .null
        · rw [if_pos exists_]
          exact walks_tailCall free' (.onward found exists_)
        · rw [if_neg exists_]
          exact walks_tailCall free' (.down found (not_not.mp exists_) fun leaf => inner leaf.1)

def Proc.Ended : (p : Proc) → Ret p → Note → Prop
  | .pageSearch _ _ _, r, n => Looked r n
  | _, _, n => n.hold.phase = .free

theorem walks_body (cfg : Config) (p : Proc) (free : n.hold.phase = .free) : Through cfg p (body cfg p) n p.Ended := by
  cases p with
  | pageSearch a k fromCache => exact walks_pageSearch free
  | internalPageStore a k v root level => exact walks_internalPageStore free
  | internalSplitUp a splitKey sibling root level => exact walks_internalSplitUp free
  | leafPageStore a k v root level fromCache => exact walks_leafPageStore free
  | leafSplitUp a splitKey sibling root level fromCache => exact walks_leafSplitUp free
  | leafPageDel a k level fromCache => exact walks_leafPageDel free
  | insertInternalNext p k v root level => exact walks_insertInternalNext free
  | insertNext p k v root => exact walks_insertNext free
  | delNext p k => exact walks_delNext free
  | searchNext p k root entry => exact walks_searchNext free

end

/-! ## The operations -/

section
variable {cfg : Config} {n : Note} {k : Key} {v : Value} {α : Type}

abbrev WalksMain (cfg : Config) (m : Code α) (n : Note) : Prop := Walks cfg none none (fun _ _ => True) m n Closed

theorem walks_insertFromRoot (free : n.hold.phase = .free) : WalksMain cfg (insertFromRoot k v) n :=
  walks_getRootPtr fun _ => walks_tailCall free trivial

theorem walks_insert (free : n.hold.phase = .free) : WalksMain cfg (insert k v) n := by
  apply walks_quiet rfl
  intro _
  apply walks_quiet rfl
  intro enableCache
  split
  · apply walks_quiet rfl
    intro hit
    cases hit with
    | none => exact walks_insertFromRoot free
    | some hit =>
        apply walks_getRootPtr
        intro root
        apply walks_call free trivial
        intro stored n' free' _ _
        split
        · exact free'
        · exact walks_quiet rfl fun _ => walks_insertFromRoot free'
  · exact walks_insertFromRoot free

theorem walks_delFromRoot (free : n.hold.phase = .free) : WalksMain cfg (delFromRoot k) n :=
  walks_getRootPtr fun _ => walks_tailCall free trivial

theorem walks_del (free : n.hold.phase = .free) : WalksMain cfg (del k) n := by
  apply walks_quiet rfl
  intro _
  apply walks_quiet rfl
  intro enableCache
  split
  · apply walks_quiet rfl
    intro hit
    cases hit with
    | none => exact walks_delFromRoot free
    | some hit =>
        apply walks_call free trivial
        intro deleted n' free' _ _
        split
        · exact free'
        · exact walks_quiet rfl fun _ => walks_delFromRoot free'
  · exact walks_delFromRoot free

theorem walks_searchOp (free : n.hold.phase = .free) : WalksMain cfg (search k) n := by
  apply walks_getRootPtr
  intro root
  apply walks_quiet rfl
  intro enableCache
  split
  · apply walks_quiet rfl
    intro hit
    cases hit with
    | none => exact walks_tailCall free trivial
    | some hit => exact walks_tailCall free trivial
  · exact walks_tailCall free trivial

theorem walks_main (cfg : Config) (op : Op) (free : n.hold.phase = .free) : WalksMain cfg (main op) n := by
  cases op with
  | insert k v => exact walks_bind ((walks_insert free).mono fun _ _ free' => free')
  | del k => exact walks_bind ((walks_del free).mono fun _ _ free' => free')
  | search k => exact walks_bind ((walks_searchOp free).mono fun _ _ free' => free')

end

end Sherman
