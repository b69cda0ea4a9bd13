import Mathlib.Data.List.Infix
import Mathlib.Data.Set.Subsingleton
import Sherman.Lock.Machine

namespace Sherman.Lock

open Concurrency

variable {Data : Type} {cfg : Config}

/-! ## Who is where -/

namespace Pc

/-- Between the loop of `acquire_local_lock` and `releases_local_lock`. -/
def Holds (cfg : Config) (la : GlobalAddress) : Pc Data → Prop
  | .idle | .waiting _ _ _ => False
  | .casing a | .locked a | .holding a _ | .leaving a _ _ _ | .polling a _ | .releasing a _ =>
      cfg.lockAddr a = la

def Inside (cfg : Config) (la : GlobalAddress) : Pc Data → Prop
  | .locked a | .holding a _ | .leaving a _ _ _ => cfg.lockAddr a = la
  | _ => False

def Passing (cfg : Config) (la : GlobalAddress) : Pc Data → Prop
  | .polling a true | .releasing a true => cfg.lockAddr a = la
  | _ => False

def decided : Pc Data → Option (GlobalAddress × Bool)
  | .leaving a _ _ b | .polling a b | .releasing a b => some (a, b)
  | _ => none

theorem Inside.holds {la : GlobalAddress} {pc : Pc Data} (h : pc.Inside cfg la) :
    pc.Holds cfg la := by
  cases pc <;> first | exact h | cases h

theorem Passing.holds {la : GlobalAddress} {pc : Pc Data} (h : pc.Passing cfg la) :
    pc.Holds cfg la := by
  cases pc <;> simp only [Passing, Holds] at h ⊢ <;> split at h <;> simp_all

theorem holds_of_decided {a : GlobalAddress} {b : Bool} {pc : Pc Data}
    (h : pc.decided = some (a, b)) : pc.Holds cfg (cfg.lockAddr a) := by
  cases pc <;> simp only [decided, reduceCtorEq, Option.some.injEq, Prod.mk.injEq] at h <;>
    simp only [Holds, h.1]

@[simp] theorem posted_decided (a : GlobalAddress) (w : Option Data) (async b : Bool) :
    (posted a w async b).decided = some (a, b) := by
  cases w <;> cases async <;> cases b <;> rfl

@[simp] theorem posted_holds (a la : GlobalAddress) (w : Option Data) (async b : Bool) :
    (posted a w async b).Holds cfg la ↔ cfg.lockAddr a = la := by
  cases w <;> cases async <;> cases b <;> rfl

@[simp] theorem posted_inside (a la : GlobalAddress) (w : Option Data) (async b : Bool) :
    ¬ (posted a w async b).Inside cfg la := by
  cases w <;> cases async <;> cases b <;> exact id

@[simp] theorem posted_passing (a la : GlobalAddress) (w : Option Data) (async b : Bool) :
    (posted a w async b).Passing cfg la ↔ b = true ∧ cfg.lockAddr a = la := by
  cases w <;> cases async <;> cases b <;> simp [posted, Passing]

end Pc

/-- The local locks are mutually exclusive among the coroutines of a node. -/
def State.LocalExclusive (cfg : Config) (s : State Data) : Prop :=
  ∀ la c d, (s.pc c).Holds cfg la → (s.pc d).Holds cfg la → c.node = d.node → c = d

def Write.lock (cfg : Config) : Write Data → GlobalAddress
  | .page a _ => cfg.lockAddr a
  | .zero la => la

def Write.isPage : Write Data → Bool
  | .page _ _ => true
  | .zero _ => false

inductive Operation where
  | running (c : Coro)
  | posted (i : Nat)

/-- The operations between the return of `try_lock_addr` and the execution of their page write. -/
def State.critical (cfg : Config) (s : State Data) (la : GlobalAddress) : Set Operation
  | .running c => (s.pc c).Inside cfg la
  | .posted i => ∃ c a data, s.pending[i]? = some ⟨c, .page a data⟩ ∧ cfg.lockAddr a = la

/-! ## The owner of a lock word -/

inductive Owner where
  | free
  | held (c : Coro)
  | passing (c : Coro)
  | flying (c : Coro)
  | handed (n : NodeID)

def Owner.node : Owner → Option NodeID
  | .free => none
  | .held c | .passing c | .flying c => some c.node
  | .handed n => some n

def State.posts (cfg : Config) (s : State Data) (la : GlobalAddress) : List (Posted Data) :=
  s.pending.filter fun x => decide (x.write.lock cfg = la)

def Owner.Posts (s : State Data) (la : GlobalAddress) : Owner → List (Posted Data) → Prop
  | .passing c, ws => ws = [] ∨ ∃ a data, ws = [⟨c, .page a data⟩] ∧ s.pc c = .polling a true
  | .flying c, ws => ws = [⟨c, .zero la⟩] ∨
      ∃ a data, a.nodeID = la.nodeID ∧ ws = [⟨c, .page a data⟩, ⟨c, .zero la⟩]
  | _, ws => ws = []

structure Owned (cfg : Config) (s : State Data) (la : GlobalAddress) (owner : Owner) : Prop where
  inside : ∀ c, (s.pc c).Inside cfg la ↔ owner = .held c
  passing : ∀ c, (s.pc c).Passing cfg la ↔ owner = .passing c
  handed : ∀ n, ((s.localLock n la).handOver = true ∧ ∀ c, c.node = n → ¬ (s.pc c).Holds cfg la) ↔
    owner = .handed n
  posts : owner.Posts s la (s.posts cfg la)
  free : s.word la = 0 ↔ owner = .free
  node : ∀ n, owner.node = some n → ∃ t : Thread, t.nodeID = n ∧ s.word la = t.tag

structure Consistent (cfg : Config) (s : State Data) : Prop where
  owned : ∀ la, ∃ owner, Owned cfg s la owner
  decided : ∀ c a b, (s.pc c).decided = some (a, b) →
    (s.localLock c.node (cfg.lockAddr a)).handOver = b

theorem Thread.tag_toNat (t : Thread) : t.tag.toNat = t.threadID + t.nodeID * 2 ^ 32 + 1 := by
  have node := t.node_lt
  have thread := t.thread_lt
  rw [tag, BitVec.toNat_ofNat, Nat.mod_eq_of_lt (by omega)]

theorem Thread.tag_ne_zero (t : Thread) : t.tag ≠ 0 := by
  intro h
  have := congrArg BitVec.toNat h
  rw [t.tag_toNat] at this
  exact Nat.succ_ne_zero _ this

theorem Thread.node_of_tag {t u : Thread} (h : t.tag = u.tag) : t.nodeID = u.nodeID := by
  have same := congrArg BitVec.toNat h
  have := t.thread_lt
  have := u.thread_lt
  rw [t.tag_toNat, u.tag_toNat] at same
  omega

theorem init_consistent (mem : GlobalAddress → Data) : Consistent cfg (.init mem) where
  owned la := by
    refine ⟨.free, ?_, ?_, ?_, ?_, ?_, ?_⟩ <;>
      simp [State.init, Pc.Inside, Pc.Passing, LocalLockNode.init, Owner.Posts, State.posts,
        Owner.node]
  decided c a b h := by simp [State.init, Pc.decided] at h

/-! ## What a step leaves alone -/

structure Alike (cfg : Config) (la : GlobalAddress) (s s' : State Data) : Prop where
  inside : ∀ c, (s'.pc c).Inside cfg la ↔ (s.pc c).Inside cfg la
  passing : ∀ c, (s'.pc c).Passing cfg la ↔ (s.pc c).Passing cfg la
  polling : ∀ c a, cfg.lockAddr a = la → s.pc c = .polling a true → s'.pc c = .polling a true
  handed : ∀ n, ((s'.localLock n la).handOver = true ∧
      ∀ c, c.node = n → ¬ (s'.pc c).Holds cfg la) ↔
    ((s.localLock n la).handOver = true ∧ ∀ c, c.node = n → ¬ (s.pc c).Holds cfg la)
  posts : s'.posts cfg la = s.posts cfg la
  word : s'.word la = s.word la

theorem mem_posts {s : State Data} {la : GlobalAddress} {x : Posted Data} :
    x ∈ s.posts cfg la ↔ x ∈ s.pending ∧ x.write.lock cfg = la := by simp [State.posts]

theorem Owned.alike {s s' : State Data} {la : GlobalAddress} {owner : Owner}
    (owned : Owned cfg s la owner) (alike : Alike cfg la s s') : Owned cfg s' la owner where
  inside c := (alike.inside c).trans (owned.inside c)
  passing c := (alike.passing c).trans (owned.passing c)
  handed n := (alike.handed n).trans (owned.handed n)
  posts := by
    have posts := owned.posts
    rw [alike.posts]
    cases owner with
    | passing c =>
        refine posts.imp_right ?_
        rintro ⟨a, data, writes, polling⟩
        have member : (⟨c, .page a data⟩ : Posted Data) ∈ s.posts cfg la := by simp [writes]
        exact ⟨a, data, writes, alike.polling c a (mem_posts.mp member).2 polling⟩
    | _ => exact posts
  free := by rw [alike.word]; exact owned.free
  node n h := by rw [alike.word]; exact owned.node n h

theorem alike_other {s s' : State Data} {la : GlobalAddress} {c : Coro} {a : GlobalAddress}
    (other : cfg.lockAddr a ≠ la)
    (before : ∀ lb, (s.pc c).Holds cfg lb → lb = cfg.lockAddr a)
    (after : ∀ lb, (s'.pc c).Holds cfg lb → lb = cfg.lockAddr a)
    (others : ∀ d, d ≠ c → s'.pc d = s.pc d)
    (locals : ∀ n, s'.localLock n la = s.localLock n la)
    (posts : s'.posts cfg la = s.posts cfg la) (word : s'.word la = s.word la) :
    Alike cfg la s s' := by
  have out : ¬ (s.pc c).Holds cfg la := fun h => other (before la h).symm
  have out' : ¬ (s'.pc c).Holds cfg la := fun h => other (after la h).symm
  have holds : ∀ d, (s'.pc d).Holds cfg la ↔ (s.pc d).Holds cfg la := by
    intro d
    by_cases same : d = c
    · subst same; simp [out, out']
    · rw [others d same]
  refine ⟨fun d => ?_, fun d => ?_, fun d b under polling => ?_, fun n => ?_, posts, word⟩
  · by_cases same : d = c
    · subst same
      exact ⟨fun h => absurd h.holds out', fun h => absurd h.holds out⟩
    · rw [others d same]
  · by_cases same : d = c
    · subst same
      exact ⟨fun h => absurd h.holds out', fun h => absurd h.holds out⟩
    · rw [others d same]
  · by_cases same : d = c
    · subst same
      refine absurd ?_ out
      rw [polling]
      exact under
    · rw [others d same, polling]
  · simp only [locals n, holds]

theorem batch_posts (c : Coro) (a : GlobalAddress) (w : Option Data) (handOver : Bool)
    (la : GlobalAddress) : (batch cfg c a w handOver).filter
      (fun x => decide (x.write.lock cfg = la)) =
    if cfg.lockAddr a = la then batch cfg c a w handOver else [] := by
  cases w <;> cases handOver <;> by_cases same : cfg.lockAddr a = la <;>
    simp [batch, Write.lock, same]

/-! ## Executing a posted write -/

theorem take_drop_of_getElem {α : Type} {xs : List α} {i : Nat} {x : α} (found : xs[i]? = some x) :
    xs = xs.take i ++ x :: xs.drop (i + 1) := by
  obtain ⟨bound, rfl⟩ := List.getElem?_eq_some_iff.mp found
  simp

theorem posts_split {s : State Data} {i : Nat} {x : Posted Data} (found : s.pending[i]? = some x)
    {la : GlobalAddress} (under : x.write.lock cfg = la) :
    s.posts cfg la = ((s.pending.take i).filter fun y => decide (y.write.lock cfg = la)) ++
      x :: ((s.pending.drop (i + 1)).filter fun y => decide (y.write.lock cfg = la)) ∧
    ((s.pending.eraseIdx i).filter fun y => decide (y.write.lock cfg = la)) =
      ((s.pending.take i).filter fun y => decide (y.write.lock cfg = la)) ++
      ((s.pending.drop (i + 1)).filter fun y => decide (y.write.lock cfg = la)) := by
  refine ⟨?_, ?_⟩
  · conv_lhs => rw [State.posts, take_drop_of_getElem found]
    simp [under]
  · rw [List.eraseIdx_eq_take_drop_succ, List.filter_append]

theorem posts_erase_other {s : State Data} {i : Nat} {x : Posted Data}
    (found : s.pending[i]? = some x) {la : GlobalAddress} (other : x.write.lock cfg ≠ la) :
    ((s.pending.eraseIdx i).filter fun y => decide (y.write.lock cfg = la)) = s.posts cfg la := by
  conv_rhs => rw [State.posts, take_drop_of_getElem found]
  rw [List.eraseIdx_eq_take_drop_succ, List.filter_append]
  simp [other]

theorem Owned.execute {s : State Data} {la : GlobalAddress} {owner : Owner}
    (owned : Owned cfg s la owner) {i : Nat} {x : Posted Data} (found : s.pending[i]? = some x)
    (first : ∀ y ∈ s.pending.take i, y.coro.thread = x.coro.thread → y.write.node ≠ x.write.node) :
    ∃ owner', Owned cfg ({ s with pending := s.pending.eraseIdx i }.execute x.write) la owner' := by
  by_cases under : x.write.lock cfg = la
  case neg =>
    refine ⟨owner, owned.alike ⟨?_, ?_, ?_, ?_, ?_, ?_⟩⟩
    · simp
    · simp
    · simp
    · simp
    · simpa [State.posts] using posts_erase_other found under
    · cases write : x.write with
      | page a data => rfl
      | zero lb =>
          rw [write] at under
          simp only [State.execute]
          exact Function.update_of_ne (Ne.symm under) _ _
  obtain ⟨split, erased⟩ := posts_split found under
  generalize before : (s.pending.take i).filter (fun y => decide (y.write.lock cfg = la)) = ahead
    at split erased
  generalize (s.pending.drop (i + 1)).filter (fun y => decide (y.write.lock cfg = la)) = behind
    at split erased
  have posts := owned.posts
  rw [split] at posts
  have earlier : ∀ y ∈ ahead, y.coro.thread = x.coro.thread → y.write.node ≠ x.write.node := by
    intro y member
    rw [← before] at member
    exact first y (List.mem_of_mem_filter member)
  have same : ∀ {new : Owner}, new = owner → x.write ≠ .zero la →
      new.Posts s la (ahead ++ behind) →
      Owned cfg ({ s with pending := s.pending.eraseIdx i }.execute x.write) la new := by
    intro new eq page writes
    subst eq
    have word : ({ s with pending := s.pending.eraseIdx i }.execute x.write).word la = s.word la := by
      cases write : x.write with
      | page a data => rfl
      | zero lb =>
          refine absurd ?_ page
          simp only [write, Write.lock] at under
          rw [write, under]
    refine ⟨by simpa using owned.inside, by simpa using owned.passing, by simpa using owned.handed,
      ?_, by rw [word]; exact owned.free, by rw [word]; exact owned.node⟩
    have posts' : ({ s with pending := s.pending.eraseIdx i }.execute x.write).posts cfg la =
        ahead ++ behind := by simpa [State.posts] using erased
    rw [posts']
    cases new with
    | passing c => simpa [Owner.Posts] using writes
    | _ => simpa [Owner.Posts] using writes
  have impossible : ahead ++ x :: behind ≠ [] := by simp
  cases owner with
  | free => exact absurd posts impossible
  | held c => exact absurd posts impossible
  | handed n => exact absurd posts impossible
  | passing c =>
      obtain none | ⟨a, data, writes, polling⟩ := posts
      · exact absurd none impossible
      · -- the page write of a hand-over
        have shape : ahead = [] ∧ x = ⟨c, .page a data⟩ ∧ behind = [] := by
          cases ahead with
          | nil => simpa using writes
          | cons y ys => simp at writes
        obtain ⟨rfl, rfl, rfl⟩ := shape
        exact ⟨.passing c, same rfl (by simp) (.inl rfl)⟩
  | flying c =>
      obtain zero | ⟨a, data, local_, writes⟩ := posts
      · have shape : ahead = [] ∧ x = ⟨c, .zero la⟩ ∧ behind = [] := by
          cases ahead with
          | nil => simpa using zero
          | cons y ys => simp at zero
        obtain ⟨rfl, rfl, rfl⟩ := shape
        refine ⟨.free, ?_, ?_, ?_, ?_, ?_, ?_⟩
        · intro d
          simpa using owned.inside d
        · intro d
          simpa using owned.passing d
        · intro n
          simpa using owned.handed n
        · simpa [State.posts, Owner.Posts] using erased
        · simp [State.execute]
        · intro n h
          cases h
      · cases ahead with
        | nil =>
            obtain ⟨rfl, rfl⟩ : x = ⟨c, .page a data⟩ ∧ behind = [⟨c, .zero la⟩] := by
              simpa using writes
            exact ⟨.flying c, same rfl (by simp) (.inl rfl)⟩
        | cons y ys =>
            -- the write of zero does not overtake the page write before it
            have head : y = ⟨c, .page a data⟩ := by simp at writes; exact writes.1
            have tail : x = ⟨c, .zero la⟩ := by
              cases ys with
              | nil => simp at writes; exact writes.2.1
              | cons z zs => simp at writes
            refine absurd (earlier y (by simp) (by rw [head, tail])) ?_
            simp [head, tail, Write.node, local_]

/-! ## Every step keeps the owners consistent -/

theorem alike_move {s : State Data} {la : GlobalAddress} {c : Coro} {pc : Pc Data}
    (inside : pc.Inside cfg la ↔ (s.pc c).Inside cfg la)
    (passing : pc.Passing cfg la ↔ (s.pc c).Passing cfg la)
    (holds : pc.Holds cfg la ↔ (s.pc c).Holds cfg la)
    (polling : ∀ a, s.pc c ≠ .polling a true) : Alike cfg la s (s.setPc c pc) := by
  refine ⟨fun d => ?_, fun d => ?_, fun d b under at_ => ?_, fun n => ?_, rfl, rfl⟩
  · by_cases same : d = c
    · subst same; simpa using inside
    · simp [Function.update_of_ne same]
  · by_cases same : d = c
    · subst same; simpa using passing
    · simp [Function.update_of_ne same]
  · by_cases same : d = c
    · exact absurd (same ▸ at_) (polling b)
    · simpa [Function.update_of_ne same] using at_
  · have eq : ∀ d, ((s.setPc c pc).pc d).Holds cfg la ↔ (s.pc d).Holds cfg la := by
      intro d
      by_cases same : d = c
      · subst same; simpa using holds
      · simp [Function.update_of_ne same]
    simp only [State.setPc_localLock, eq]

theorem alike_local {s : State Data} {la lb : GlobalAddress} {n : NodeID} {l : LocalLockNode}
    (flag : l.handOver = (s.localLock n lb).handOver) : Alike cfg la s (s.setLocal n lb l) := by
  have flags : ∀ m, ((s.setLocal n lb l).localLock m la).handOver = (s.localLock m la).handOver := by
    intro m
    rw [State.setLocal_localLock]
    split
    case isTrue h => rw [flag, h.1, h.2]
    case isFalse => rfl
  exact ⟨fun _ => .rfl, fun _ => .rfl, fun _ _ _ h => h, fun m => by simp [flags], rfl, rfl⟩

theorem Alike.trans {la : GlobalAddress} {s t u : State Data} (h : Alike cfg la s t)
    (h' : Alike cfg la t u) : Alike cfg la s u where
  inside c := (h'.inside c).trans (h.inside c)
  passing c := (h'.passing c).trans (h.passing c)
  polling c a under at_ := h'.polling c a under (h.polling c a under at_)
  handed n := (h'.handed n).trans (h.handed n)
  posts := h'.posts.trans h.posts
  word := h'.word.trans h.word

theorem Consistent.decided_move {s : State Data} (inv : Consistent cfg s)
    (exclusive : s.LocalExclusive cfg) {c : Coro} {a : GlobalAddress} {pc : Pc Data}
    {l : LocalLockNode} (own : ∀ b, pc.decided = some b → b = (a, l.handOver))
    (held : l.handOver = (s.localLock c.node (cfg.lockAddr a)).handOver ∨
      (s.pc c).Holds cfg (cfg.lockAddr a)) (d : Coro) (b : GlobalAddress) (bit : Bool)
    (decided : (((s.setLocal c.node (cfg.lockAddr a) l).setPc c pc).pc d).decided = some (b, bit)) :
    (((s.setLocal c.node (cfg.lockAddr a) l).setPc c pc).localLock d.node
      (cfg.lockAddr b)).handOver = bit := by
  simp only [State.setPc_pc, State.setLocal_pc, Function.update_apply] at decided
  simp only [State.setPc_localLock, State.setLocal_localLock]
  by_cases same : d = c
  · subst same
    simp only [if_true] at decided
    have := own _ decided
    simp only [Prod.mk.injEq] at this
    obtain ⟨rfl, rfl⟩ := this
    simp
  · simp only [same, if_false] at decided
    split
    case isFalse => exact inv.decided d b bit decided
    case isTrue h =>
      obtain unchanged | holds := held
      · rw [unchanged, ← h.1, ← h.2]
        exact inv.decided d b bit decided
      · refine absurd (exclusive _ d c ?_ holds h.1) same
        rw [← h.2]
        exact Pc.holds_of_decided decided

theorem Consistent.decided_same {s : State Data} (inv : Consistent cfg s) {c : Coro} {pc : Pc Data}
    (own : ∀ b, pc.decided = some b → (s.pc c).decided = some b) (d : Coro) (b : GlobalAddress)
    (bit : Bool) (decided : (Function.update s.pc c pc d).decided = some (b, bit)) :
    (s.localLock d.node (cfg.lockAddr b)).handOver = bit := by
  by_cases same : d = c
  · subst same
    rw [Function.update_self] at decided
    exact inv.decided d b bit (own _ decided)
  · rw [Function.update_of_ne same] at decided
    exact inv.decided d b bit decided

theorem State.LocalExclusive.alone {s : State Data} (h : s.LocalExclusive cfg) {la : GlobalAddress}
    {c d : Coro} (holds : (s.pc c).Holds cfg la) (node : d.node = c.node) (other : d ≠ c) :
    ¬ (s.pc d).Holds cfg la :=
  fun holds' => other (h la d c holds' holds node)

theorem Owned.become {s s' : State Data} {la : GlobalAddress} {owner owner' : Owner} {c : Coro}
    (owned : Owned cfg s la owner) (others : ∀ d, d ≠ c → s'.pc d = s.pc d)
    (notInside : ∀ d, owner = .held d → d = c) (notPassing : ∀ d, owner = .passing d → d = c)
    (inside : ∀ d, ((d = c ∧ (s'.pc c).Inside cfg la) ↔ owner' = .held d))
    (passing : ∀ d, ((d = c ∧ (s'.pc c).Passing cfg la) ↔ owner' = .passing d))
    (handed : ∀ n, ((s'.localLock n la).handOver = true ∧
        ∀ c, c.node = n → ¬ (s'.pc c).Holds cfg la) ↔ owner' = .handed n)
    (posts : owner'.Posts s' la (s'.posts cfg la)) (free : s'.word la = 0 ↔ owner' = .free)
    (node : ∀ n, owner'.node = some n → ∃ t : Thread, t.nodeID = n ∧ s'.word la = t.tag) :
    Owned cfg s' la owner' where
  inside d := by
    rw [← inside d]
    constructor
    · intro h
      by_cases same : d = c
      · exact ⟨same, same ▸ h⟩
      · rw [others d same] at h
        exact absurd (notInside d ((owned.inside d).mp h)) same
    · rintro ⟨rfl, h⟩
      exact h
  passing d := by
    rw [← passing d]
    constructor
    · intro h
      by_cases same : d = c
      · exact ⟨same, same ▸ h⟩
      · rw [others d same] at h
        exact absurd (notPassing d ((owned.passing d).mp h)) same
    · rintro ⟨rfl, h⟩
      exact h
  handed := handed
  posts := posts
  free := free
  node := node

theorem Owned.become_holding {s s' : State Data} {la : GlobalAddress} {owner owner' : Owner}
    {c : Coro} (owned : Owned cfg s la owner) (others : ∀ d, d ≠ c → s'.pc d = s.pc d)
    (locals : ∀ n, n ≠ c.node → s'.localLock n la = s.localLock n la)
    (holds : (s'.pc c).Holds cfg la)
    (notInside : ∀ d, owner = .held d → d = c) (notPassing : ∀ d, owner = .passing d → d = c)
    (notHanded : ∀ n, owner = .handed n → n = c.node) (notHanded' : ∀ n, owner' ≠ .handed n)
    (inside : ∀ d, ((d = c ∧ (s'.pc c).Inside cfg la) ↔ owner' = .held d))
    (passing : ∀ d, ((d = c ∧ (s'.pc c).Passing cfg la) ↔ owner' = .passing d))
    (posts : owner'.Posts s' la (s'.posts cfg la)) (free : s'.word la = 0 ↔ owner' = .free)
    (node : ∀ n, owner'.node = some n → ∃ t : Thread, t.nodeID = n ∧ s'.word la = t.tag) :
    Owned cfg s' la owner' := by
  refine owned.become others notInside notPassing inside passing (fun n => ?_) posts free node
  refine iff_of_false ?_ (notHanded' n)
  rintro ⟨flag, nobody⟩
  by_cases same : n = c.node
  · exact nobody c same.symm holds
  · rw [locals n same] at flag
    refine same (notHanded n ((owned.handed n).mp ⟨flag, fun d node holds' => ?_⟩))
    refine nobody d node ?_
    rw [others d (by rintro rfl; exact same node.symm)]
    exact holds'

theorem alike_unflagged {s : State Data} {la : GlobalAddress} {c : Coro} {pc : Pc Data}
    (flag : (s.localLock c.node la).handOver = false)
    (inside : pc.Inside cfg la ↔ (s.pc c).Inside cfg la)
    (passing : pc.Passing cfg la ↔ (s.pc c).Passing cfg la)
    (polling : ∀ a, s.pc c ≠ .polling a true) : Alike cfg la s (s.setPc c pc) := by
  refine ⟨fun d => ?_, fun d => ?_, fun d b under at_ => ?_, fun n => ?_, rfl, rfl⟩
  · by_cases same : d = c
    · subst same; simpa using inside
    · simp [Function.update_of_ne same]
  · by_cases same : d = c
    · subst same; simpa using passing
    · simp [Function.update_of_ne same]
  · by_cases same : d = c
    · exact absurd (same ▸ at_) (polling b)
    · simpa [Function.update_of_ne same] using at_
  · rw [State.setPc_localLock]
    by_cases node : n = c.node
    · simp [node, flag]
    · refine and_congr_right fun _ => forall_congr' fun d => imp_congr_right fun at_ => ?_
      have other : d ≠ c := by rintro rfl; exact node at_.symm
      simp [Function.update_of_ne other]

theorem Owned.held_of_inside {s : State Data} {la : GlobalAddress} {owner : Owner} {c : Coro}
    (owned : Owned cfg s la owner) (h : (s.pc c).Inside cfg la) : owner = .held c :=
  (owned.inside c).mp h

theorem Consistent.step {s s' : State Data} {act : Action Data} (inv : Consistent cfg s)
    (exclusive : s.LocalExclusive cfg) (exclusive' : s'.LocalExclusive cfg)
    (moves : Moves cfg s act s') : Consistent cfg s' := by
  cases moves with
  | @acquire c a pc =>
      refine ⟨fun la => ?_, inv.decided_move exclusive (by simp [Pc.decided]) (.inl (by simp))⟩
      obtain ⟨owner, owned⟩ := inv.owned la
      refine ⟨owner, owned.alike ((alike_local (by simp)).trans (alike_move ?_ ?_ ?_ ?_))⟩ <;>
        simp [pc, Pc.Inside, Pc.Passing, Pc.Holds]
  | @recheck c a ticket current pc waits =>
      refine ⟨fun la => ?_, inv.decided_same (by simp [Pc.decided])⟩
      obtain ⟨owner, owned⟩ := inv.owned la
      refine ⟨owner, owned.alike (alike_move ?_ ?_ ?_ ?_)⟩ <;>
        simp [pc, Pc.Inside, Pc.Passing, Pc.Holds]
  | @handed c a ticket pc handOver =>
      refine ⟨fun la => ?_, inv.decided_move exclusive (by simp [Pc.decided]) (.inl (by simp))⟩
      obtain ⟨owner, owned⟩ := inv.owned la
      by_cases same : cfg.lockAddr a = la
      case neg =>
        refine ⟨owner, owned.alike ((alike_local (by simp)).trans
          (alike_other (c := c) same ?_ ?_ ?_ (fun _ => rfl) rfl rfl))⟩
        · simp [pc, Pc.Holds]
        · simp [Pc.Holds, eq_comm]
        · exact fun d other => Function.update_of_ne other _ _
      subst same
      have nobody : ∀ d, d.node = c.node → ¬ (s.pc d).Holds cfg (cfg.lockAddr a) := by
        intro d node holds
        have other : d ≠ c := by rintro rfl; simp [pc, Pc.Holds] at holds
        refine other (exclusive' (cfg.lockAddr a) d c ?_ ?_ node)
        · simpa [Function.update_of_ne other] using holds
        · simp [Pc.Holds]
      have owner_eq := (owned.handed c.node).mp ⟨handOver, nobody⟩
      refine ⟨.held c, owned.become_holding (c := c) (fun d other => ?_) (fun n other => ?_) ?_ ?_ ?_ ?_ ?_ ?_
        ?_ ?_ ?_ ?_⟩
      · simp [Function.update_of_ne other]
      · simp [State.setLocal_localLock, other]
      · simp [Pc.Holds]
      · simp [owner_eq]
      · simp [owner_eq]
      · simp [owner_eq]
      · simp
      · simp [Pc.Inside, eq_comm]
      · simp [Pc.Passing]
      · have := owned.posts
        rw [owner_eq] at this
        exact this
      · simpa [owner_eq] using owned.free
      · simpa [owner_eq, Owner.node] using owned.node
  | @enter c a ticket pc handOver =>
      refine ⟨fun la => ?_, inv.decided_move exclusive (by simp [Pc.decided]) (.inl (by simp))⟩
      obtain ⟨owner, owned⟩ := inv.owned la
      by_cases same : cfg.lockAddr a = la
      case neg =>
        refine ⟨owner, owned.alike ((alike_local (by simp)).trans
          (alike_other (c := c) same ?_ ?_ ?_ (fun _ => rfl) rfl rfl))⟩
        · simp [pc, Pc.Holds]
        · simp [Pc.Holds, eq_comm]
        · exact fun d other => Function.update_of_ne other _ _
      subst same
      refine ⟨owner, owned.alike ((alike_local (by simp)).trans (alike_unflagged ?_ ?_ ?_ ?_))⟩
      · simp [State.setLocal_localLock, handOver]
      all_goals simp [pc, Pc.Inside, Pc.Passing]
  | @cas c a pc drained free =>
      refine ⟨fun la => ?_, inv.decided_same (by simp [Pc.decided])⟩
      obtain ⟨owner, owned⟩ := inv.owned la
      by_cases same : cfg.lockAddr a = la
      case neg =>
        refine ⟨owner, owned.alike (alike_other (c := c) same ?_ ?_ ?_ (fun _ => rfl) rfl ?_)⟩
        · simp [pc, Pc.Holds, eq_comm]
        · simp [Pc.Holds, eq_comm]
        · exact fun d other => Function.update_of_ne other _ _
        · simp [Function.update_of_ne (Ne.symm same)]
      subst same
      have owner_eq := owned.free.mp free
      refine ⟨.held c, owned.become_holding (c := c) (fun d other => ?_) (fun n other => rfl) ?_ ?_ ?_ ?_ ?_ ?_
        ?_ ?_ ?_ ?_⟩
      · simp [Function.update_of_ne other]
      · simp [Pc.Holds]
      · simp [owner_eq]
      · simp [owner_eq]
      · simp [owner_eq]
      · simp
      · simp [Pc.Inside, eq_comm]
      · simp [Pc.Passing]
      · have := owned.posts
        rw [owner_eq] at this
        exact this
      · simpa using c.thread.tag_ne_zero
      · intro n h
        simp only [Owner.node, Option.some.injEq] at h
        exact ⟨c.thread, h, by simp⟩
  | @retry c a pc taken => exact inv
  | @read c a pc drained =>
      refine ⟨fun la => ?_, inv.decided_same (by simp [Pc.decided])⟩
      obtain ⟨owner, owned⟩ := inv.owned la
      refine ⟨owner, owned.alike (alike_move ?_ ?_ ?_ ?_)⟩ <;>
        simp [pc, Pc.Inside, Pc.Passing, Pc.Holds]
  | @decide c a d w async pc =>
      refine ⟨fun la => ?_, inv.decided_move exclusive (by simp [Pc.decided, eq_comm])
        (.inr (by simp [pc, Pc.Holds]))⟩
      obtain ⟨owner, owned⟩ := inv.owned la
      by_cases same : cfg.lockAddr a = la
      case neg =>
        refine ⟨owner, owned.alike (alike_other (c := c) same ?_ ?_ ?_ (fun n => ?_) rfl rfl)⟩
        · simp [pc, Pc.Holds, eq_comm]
        · simp [Pc.Holds, eq_comm]
        · exact fun d other => Function.update_of_ne other _ _
        · simp [State.setLocal_localLock, Ne.symm same]
      subst same
      have owner_eq := owned.held_of_inside (c := c) (by simp [pc, Pc.Inside])
      refine ⟨.held c, owned.become_holding (c := c) (fun d other => ?_) (fun n other => ?_) ?_ ?_ ?_ ?_ ?_ ?_
        ?_ ?_ ?_ ?_⟩
      · simp [Function.update_of_ne other]
      · simp [State.setLocal_localLock, other]
      · simp [Pc.Holds]
      · simp [owner_eq, eq_comm]
      · simp [owner_eq]
      · simp [owner_eq]
      · simp
      · simp [Pc.Inside, eq_comm]
      · simp [Pc.Passing]
      · have := owned.posts
        rw [owner_eq] at this
        exact this
      · simpa [owner_eq] using owned.free
      · simpa [owner_eq, Owner.node] using owned.node
  | @post c a w async handOver pc =>
      refine ⟨fun la => ?_, inv.decided_same (by rw [pc, Pc.posted_decided]; exact fun _ h => h)⟩
      obtain ⟨owner, owned⟩ := inv.owned la
      have posts : ({ s with pending := s.pending ++ batch cfg c a w handOver } : State Data).posts
          cfg la = s.posts cfg la ++ if cfg.lockAddr a = la then batch cfg c a w handOver else [] := by
        simp only [State.posts, List.filter_append, batch_posts]
      by_cases same : cfg.lockAddr a = la
      case neg =>
        refine ⟨owner, owned.alike (alike_other (c := c) same ?_ ?_ ?_ (fun _ => rfl) ?_ rfl)⟩
        · simp [pc, Pc.Holds, eq_comm]
        · simp [eq_comm]
        · exact fun d other => Function.update_of_ne other _ _
        · rw [if_neg same, List.append_nil] at posts
          exact posts
      subst same
      have owner_eq := owned.held_of_inside (c := c) (by simp [pc, Pc.Inside])
      have none := owned.posts
      rw [owner_eq] at none
      simp only [if_true, show s.posts cfg (cfg.lockAddr a) = [] from none, List.nil_append] at posts
      refine ⟨if handOver then .passing c else .flying c, owned.become_holding (c := c) (fun d other => ?_)
        (fun n other => rfl) ?_ ?_ ?_ ?_ ?_ ?_ ?_ ?_ ?_ ?_⟩
      · simp [Function.update_of_ne other]
      · simp
      · simp [owner_eq, eq_comm]
      · simp [owner_eq]
      · simp [owner_eq]
      · intro n; split <;> simp
      · intro d; cases handOver <;> simp
      · intro d; cases handOver <;> simp [eq_comm]
      · have posts' : (({ s with pending := s.pending ++ batch cfg c a w handOver } : State
          Data).setPc c (Pc.posted a w async handOver)).posts cfg (cfg.lockAddr a) =
            batch cfg c a w handOver := posts
        rw [posts']
        cases handOver with
        | true => cases w with
          | none => exact .inl (by simp [batch])
          | some data => exact .inr ⟨a, data, by simp [batch], by simp [Pc.posted]⟩
        | false => cases w with
          | none => exact .inl (by simp [batch])
          | some data => exact .inr ⟨a, data, rfl, by simp [batch]⟩
      · have := owned.free
        cases handOver <;> simpa [owner_eq] using this
      · have := owned.node
        cases handOver <;> simpa [owner_eq, Owner.node] using this
  | @poll c a handOver pc drained =>
      refine ⟨fun la => ?_, inv.decided_same (by simp [pc, Pc.decided])⟩
      obtain ⟨owner, owned⟩ := inv.owned la
      cases handOver with
      | false =>
          refine ⟨owner, owned.alike (alike_move ?_ ?_ ?_ ?_)⟩ <;>
            simp [pc, Pc.Inside, Pc.Passing, Pc.Holds]
      | true =>
          by_cases same : cfg.lockAddr a = la
          case neg =>
            refine ⟨owner, owned.alike (alike_other (c := c) same ?_ ?_ ?_ (fun _ => rfl) rfl rfl)⟩
            · simp [pc, Pc.Holds, eq_comm]
            · simp [Pc.Holds, eq_comm]
            · exact fun d other => Function.update_of_ne other _ _
          subst same
          have owner_eq := (owned.passing c).mp (by simp [pc, Pc.Passing])
          have posts := owned.posts
          rw [owner_eq] at posts
          refine ⟨.passing c, owned.become_holding (c := c) (fun d other => ?_) (fun n other => rfl) ?_ ?_ ?_ ?_
            ?_ ?_ ?_ ?_ ?_ ?_⟩
          · simp [Function.update_of_ne other]
          · simp [Pc.Holds]
          · simp [owner_eq]
          · simp [owner_eq, eq_comm]
          · simp [owner_eq]
          · simp
          · simp [Pc.Inside]
          · simp [Pc.Passing, eq_comm]
          · refine posts.imp_right ?_
            rintro ⟨b, data, writes, polling⟩
            -- the completion of the write has been polled
            have member : (⟨c, .page b data⟩ : Posted Data) ∈ s.posts cfg (cfg.lockAddr a) := by
              simp [writes]
            rw [pc] at polling
            cases polling
            exact absurd rfl (drained _ (mem_posts.mp member).1 rfl)
          · simpa [owner_eq] using owned.free
          · simpa [owner_eq, Owner.node] using owned.node
  | @release c a handOver pc =>
      have bit := inv.decided c a handOver (by simp [pc, Pc.decided])
      refine ⟨fun la => ?_, inv.decided_move exclusive (by simp [Pc.decided]) (.inl (by simp))⟩
      obtain ⟨owner, owned⟩ := inv.owned la
      by_cases same : cfg.lockAddr a = la
      case neg =>
        refine ⟨owner, owned.alike ((alike_local (by simp)).trans
          (alike_other (c := c) same ?_ ?_ ?_ (fun _ => rfl) rfl rfl))⟩
        · simp [pc, Pc.Holds, eq_comm]
        · simp [Pc.Holds]
        · exact fun d other => Function.update_of_ne other _ _
      subst same
      cases handOver with
      | false =>
          refine ⟨owner, owned.alike ((alike_local (by simp)).trans (alike_unflagged ?_ ?_ ?_ ?_))⟩
          · simp [State.setLocal_localLock, bit]
          all_goals simp [pc, Pc.Inside, Pc.Passing]
      | true =>
          have owner_eq := (owned.passing c).mp (by simp [pc, Pc.Passing])
          have posts := owned.posts
          rw [owner_eq] at posts
          refine ⟨.handed c.node, owned.become (c := c) (fun d other => ?_) ?_ ?_ ?_ ?_ (fun n => ?_) ?_
            ?_ ?_⟩
          · simp [Function.update_of_ne other]
          · simp [owner_eq]
          · simp [owner_eq, eq_comm]
          · simp [Pc.Inside]
          · simp [Pc.Passing]
          · by_cases node : n = c.node
            · subst node
              simp only [State.setPc_localLock, State.setLocal_localLock, and_self, if_true,
                LocalLockNode.releaseLocalLock_handOver, bit, true_and, iff_true]
              intro d node
              by_cases other : d = c
              · simp [other, Pc.Holds]
              · simpa [Function.update_of_ne other] using
                  exclusive.alone (by simp [pc, Pc.Holds] : (s.pc c).Holds cfg (cfg.lockAddr a)) node other
            · refine iff_of_false ?_ (by simpa using Ne.symm node)
              rintro ⟨flag, nobody⟩
              simp only [State.setPc_localLock, State.setLocal_localLock, node, false_and, if_false]
                at flag
              have := (owned.handed n).mp ⟨flag, fun d at_ holds => ?_⟩
              · simp [owner_eq] at this
              · refine nobody d at_ ?_
                have other : d ≠ c := by rintro rfl; exact node at_.symm
                simpa [Function.update_of_ne other] using holds
          · obtain none | ⟨b, data, writes, polling⟩ := posts
            · exact none
            · rw [pc] at polling
              cases polling
          · simpa [owner_eq] using owned.free
          · simpa [owner_eq, Owner.node] using owned.node
  | @execute i x found first =>
      refine ⟨fun la => ?_, fun c a b decided => ?_⟩
      · obtain ⟨owner, owned⟩ := inv.owned la
        exact owned.execute found first
      · rw [State.execute_localLock]
        exact inv.decided c a b (by simpa using decided)

/-! ## Mutual exclusion -/

theorem position_unique {α : Type} {p : α → Bool} {xs : List α} (one : (xs.filter p).length ≤ 1)
    {i j : Nat} {x y : α} (hi : xs[i]? = some x) (hj : xs[j]? = some y) (hx : p x = true)
    (hy : p y = true) : i = j := by
  induction xs generalizing i j with
  | nil => simp at hi
  | cons z zs ih =>
      have some_member : ∀ {k : Nat} {w : α}, zs[k]? = some w → p w = true → 1 ≤ (zs.filter p).length :=
        fun found sat => List.length_pos_of_mem (List.mem_filter.mpr ⟨List.mem_of_getElem? found, sat⟩)
      cases i with
      | zero =>
          cases j with
          | zero => rfl
          | succ j =>
              simp only [List.getElem?_cons_zero, Option.some.injEq] at hi
              simp only [List.getElem?_cons_succ] at hj
              have := some_member hj hy
              simp only [List.filter_cons, hi, hx, if_true, List.length_cons] at one
              omega
      | succ i =>
          simp only [List.getElem?_cons_succ] at hi
          have := some_member hi hx
          cases j with
          | zero =>
              simp only [List.getElem?_cons_zero, Option.some.injEq] at hj
              simp only [List.filter_cons, hj, hy, if_true, List.length_cons] at one
              omega
          | succ j =>
              simp only [List.getElem?_cons_succ] at hj
              refine congrArg Nat.succ (ih ?_ hi hj)
              refine le_trans (List.Sublist.length_le ?_) one
              exact (List.sublist_cons_self z zs).filter p

theorem Owned.pages {s : State Data} {la : GlobalAddress} {owner : Owner}
    (owned : Owned cfg s la owner) : ((s.posts cfg la).filter fun x => x.write.isPage).length ≤ 1 := by
  have posts := owned.posts
  cases owner with
  | passing c =>
      obtain none | ⟨a, data, writes, -⟩ := posts
      · simp [none]
      · simp [writes, Write.isPage]
  | flying c =>
      obtain zero | ⟨a, data, -, writes⟩ := posts
      · simp [zero, Write.isPage]
      · simp [writes, Write.isPage]
  | _ => simp [show s.posts cfg la = [] from posts]

theorem Owned.posted_of_critical {s : State Data} {la : GlobalAddress} {owner : Owner}
    (owned : Owned cfg s la owner) {i : Nat} (h : Operation.posted i ∈ s.critical cfg la) :
    ∃ c, owner = .passing c ∨ owner = .flying c := by
  obtain ⟨c, a, data, found, under⟩ := h
  have member : (⟨c, .page a data⟩ : Posted Data) ∈ s.posts cfg la :=
    mem_posts.mpr ⟨List.mem_of_getElem? found, under⟩
  have posts := owned.posts
  cases owner with
  | passing d => exact ⟨d, .inl rfl⟩
  | flying d => exact ⟨d, .inr rfl⟩
  | _ => rw [show s.posts cfg la = [] from posts] at member; cases member

theorem Consistent.critical_subsingleton {s : State Data} (inv : Consistent cfg s)
    (la : GlobalAddress) : (s.critical cfg la).Subsingleton := by
  obtain ⟨owner, owned⟩ := inv.owned la
  intro op critical op' critical'
  cases op with
  | running c =>
      have held := owned.held_of_inside critical
      cases op' with
      | running d =>
          have := held.symm.trans (owned.held_of_inside critical')
          simp only [Owner.held.injEq] at this
          rw [this]
      | posted j =>
          obtain ⟨d, shape⟩ := owned.posted_of_critical critical'
          simp [held] at shape
  | posted i =>
      cases op' with
      | running d =>
          obtain ⟨c, shape⟩ := owned.posted_of_critical critical
          simp [owned.held_of_inside critical'] at shape
      | posted j =>
          obtain ⟨c, a, data, found, under⟩ := critical
          obtain ⟨d, b, data', found', under'⟩ := critical'
          have one := owned.pages
          simp only [State.posts, List.filter_filter] at one
          refine congrArg Operation.posted (position_unique one found found' ?_ ?_)
          · simp [Write.isPage, Write.lock, under]
          · simp [Write.isPage, Write.lock, under']

theorem Consistent.word_of_critical {s : State Data} (inv : Consistent cfg s) {la : GlobalAddress}
    (h : (s.critical cfg la).Nonempty) : s.word la ≠ 0 := by
  obtain ⟨owner, owned⟩ := inv.owned la
  obtain ⟨op, critical⟩ := h
  intro zero
  have free := owned.free.mp zero
  cases op with
  | running c => simpa [free] using owned.held_of_inside critical
  | posted i =>
      obtain ⟨c, shape⟩ := owned.posted_of_critical critical
      simp [free] at shape

theorem Consistent.mem_eq_view {s : State Data} (inv : Consistent cfg s) {c : Coro}
    {a : GlobalAddress} (inside : (s.pc c).Inside cfg (cfg.lockAddr a)) : s.mem a = s.view a := by
  obtain ⟨owner, owned⟩ := inv.owned (cfg.lockAddr a)
  have none := owned.posts
  rw [owned.held_of_inside inside] at none
  have quiet : ∀ x ∈ s.pending, ∀ data : Data, x.write.applyTo a data = data := by
    intro x member data
    cases write : x.write with
    | zero lb => rfl
    | page b new =>
        refine if_neg ?_
        rintro rfl
        have : x ∈ s.posts cfg (cfg.lockAddr b) := mem_posts.mpr ⟨member, by simp [write, Write.lock]⟩
        rw [show s.posts cfg (cfg.lockAddr b) = [] from none] at this
        cases this
  unfold State.view
  generalize s.pending = writes at quiet
  induction writes with
  | nil => rfl
  | cons x xs ih =>
      rw [List.foldl_cons, quiet x (by simp)]
      exact ih fun y member => quiet y (List.mem_cons_of_mem x member)

def State.Fresh (s : State Data) : Prop := ∀ c a data, s.pc c = .holding a data → s.mem a = data

theorem Consistent.fresh {s s' : State Data} {act : Action Data} (inv : Consistent cfg s)
    (fresh : s.Fresh) (moves : Moves cfg s act s') : s'.Fresh := by
  have keep : ∀ {c : Coro} {pc : Pc Data}, (∀ a data, pc = .holding a data → s.mem a = data) →
      ∀ d a data, Function.update s.pc c pc d = .holding a data → s.mem a = data := by
    intro c pc own d a data at_
    by_cases same : d = c
    · subst same
      exact own a data (by simpa using at_)
    · exact fresh d a data (by simpa [Function.update_of_ne same] using at_)
  cases moves with
  | acquire | recheck | handed | enter | cas | decide | poll | release => exact keep (by simp)
  | retry => exact fresh
  | read => exact keep (by simp)
  | @post c a w async handOver pc =>
      exact keep (by cases w <;> cases async <;> cases handOver <;> simp [Pc.posted])
  | @execute i x found first =>
      intro c a data at_
      rw [State.execute_pc] at at_
      cases write : x.write with
      | zero la => exact fresh c a data at_
      | page b new =>
          have other : a ≠ b := by
            rintro rfl
            have running : Operation.running c ∈ s.critical cfg (cfg.lockAddr a) := by
              change (s.pc c).Inside cfg _
              rw [at_]
              rfl
            have posted : Operation.posted i ∈ s.critical cfg (cfg.lockAddr a) :=
              ⟨x.coro, a, new, by rw [found, ← write], rfl⟩
            cases inv.critical_subsingleton _ running posted
          simp only [State.execute, Function.update_of_ne other]
          exact fresh c a data at_

/-- At most one operation of the cluster is between the return of `try_lock_addr` for a lock word and
the execution of its page write, the word is not zero meanwhile, and whoever has read a page under its
lock has read all writes posted so far. -/
theorem lock_word_exclusive (mem : GlobalAddress → Data) (as : List (Action Data)) (s : State Data)
    (run : (machine Data cfg).run (.init mem) as = some s)
    (exclusive : ∀ front t, front <+: as → (machine Data cfg).run (.init mem) front = some t →
      t.LocalExclusive cfg) :
    (∀ la, (s.critical cfg la).Subsingleton) ∧
    (∀ la, (s.critical cfg la).Nonempty → s.word la ≠ 0) ∧
    ∀ c a data, s.pc c = .holding a data → s.view a = data := by
  have inv : Consistent cfg s ∧ s.Fresh := by
    refine Machine.run_invariant (I := fun t => Consistent cfg t ∧ t.Fresh) ?_
      ⟨init_consistent mem, by simp [State.Fresh, State.init]⟩
      (Machine.throughout_of_prefixes exclusive) run
    rintro t a t' ⟨inv, fresh⟩ ⟨before, after⟩ step
    have moves := moves_of_step step
    exact ⟨inv.step before (after t' step) moves, inv.fresh fresh moves⟩
  refine ⟨inv.1.critical_subsingleton, fun la => inv.1.word_of_critical, fun c a data at_ => ?_⟩
  rw [← inv.1.mem_eq_view (c := c) (by rw [at_]; rfl)]
  exact inv.2 c a data at_

/-! ## Coroutines that take no step -/

def Action.coro? : Action Data → Option Coro
  | .acquire c _ | .recheck c | .enter c | .cas c | .read c | .decide c _ _ | .post c | .poll c
  | .release c => some c
  | .execute _ => none

theorem idle_of_coros {p : Coro → Prop} {s s' : State Data} {as : List (Action Data)}
    (coros : ∀ act ∈ as, ∀ c, act.coro? = some c → p c) (idle : ∀ c, ¬ p c → s.pc c = .idle)
    (run : (machine Data cfg).run s as = some s') : ∀ c, ¬ p c → s'.pc c = .idle := by
  refine Machine.run_invariant (I := fun t => ∀ c, ¬ p c → t.pc c = .idle) ?_ idle
    (Machine.throughout_of_forall (p := fun act => ∀ c, act.coro? = some c → p c) coros) run
  intro t act t' idle ours step c out
  have stays : ∀ {d : Coro} {pc : Pc Data}, act.coro? = some d → Function.update t.pc d pc c = .idle := by
    intro d pc mine
    have other : c ≠ d := by rintro rfl; exact out (ours c mine)
    rw [Function.update_of_ne other]
    exact idle c out
  cases moves_of_step step with
  | execute => rw [State.execute_pc]; exact idle c out
  | retry => exact idle c out
  | _ => exact stays rfl

def first : Coro := ⟨⟨0, 0, by decide, by decide⟩, 0⟩

def second : Coro := ⟨⟨0, 1, Nat.two_pow_pos 16, Nat.one_lt_two_pow (Nat.succ_ne_zero 30)⟩, 0⟩

def oneLock : Config where
  cityHash64 := fun _ => 0
  nodeOf := fun _ => 0

/-- While `second` waits, `first` writes 7 to the page and hands the lock over. -/
def handedOver : List (Action Nat) :=
  [.acquire first ⟨0, 1024⟩, .enter first, .cas first, .read first, .acquire second ⟨0, 1024⟩,
    .decide first (some 7) true, .post first, .execute 0, .poll first, .release first, .recheck second,
    .enter second, .read second]

def Pc.past : Pc Data → Bool
  | .idle | .waiting _ _ _ => false
  | _ => true

theorem Pc.Holds.past {la : GlobalAddress} {pc : Pc Data} (h : pc.Holds cfg la) : pc.past = true := by
  cases pc <;> first | rfl | cases h

theorem localExclusive_of_two {s : State Data} (idle : ∀ c, ¬ (c = first ∨ c = second) → s.pc c = .idle)
    (apart : ((s.pc first).past && (s.pc second).past) = false) : s.LocalExclusive cfg := by
  intro la c d holds holds' _
  have mine : ∀ e, (s.pc e).Holds cfg la → e = first ∨ e = second := by
    intro e holds
    by_contra other
    rw [idle e other] at holds
    exact holds
  rcases mine c holds with rfl | rfl
  · rcases mine d holds' with rfl | rfl
    · rfl
    · simp [holds.past, holds'.past] at apart
  · rcases mine d holds' with rfl | rfl
    · simp [holds.past, holds'.past] at apart
    · rfl

theorem handedOver_reads : ((machine Nat oneLock).run (.init fun _ => 0) handedOver).map (fun s => match s.pc second with
    | .holding a data => a = ⟨0, 1024⟩ && data = 7
    | _ => false) = some true := by
  decide +kernel

theorem handedOver_apart : (handedOver.inits.all fun front =>
    ((machine Nat oneLock).run (.init fun _ => 0) front).all fun t => !((t.pc first).past && (t.pc second).past)) = true := by
  decide +kernel

theorem handedOver_run : ∃ s, (machine Nat oneLock).run (.init fun _ => 0) handedOver = some s ∧
    s.pc second = .holding ⟨0, 1024⟩ 7 := by
  obtain ⟨s, run, reads⟩ := Option.map_eq_some_iff.mp handedOver_reads
  refine ⟨s, run, ?_⟩
  split at reads
  · rename_i a data at_
    simp only [Bool.and_eq_true, decide_eq_true_eq] at reads
    rw [at_, reads.1, reads.2]
  · cases reads

theorem lock_word_exclusive_first : ∃ s : State Nat, (machine Nat oneLock).run (.init fun _ => 0) handedOver = some s ∧
    s.pc second = .holding ⟨0, 1024⟩ 7 ∧ s.view ⟨0, 1024⟩ = 7 ∧ s.word ⟨0, 0⟩ ≠ 0 ∧
    (s.critical oneLock ⟨0, 0⟩).Subsingleton := by
  obtain ⟨s, run, reads⟩ := handedOver_run
  have exclusive : ∀ front t, front <+: handedOver → (machine Nat oneLock).run (.init fun _ => 0) front = some t →
      t.LocalExclusive oneLock := by
    intro front t before run
    have apart := List.all_eq_true.mp handedOver_apart front ((List.mem_inits front handedOver).mpr before)
    rw [run, Option.all_some, Bool.not_eq_true'] at apart
    refine localExclusive_of_two ?_ apart
    refine idle_of_coros (p := fun c => c = first ∨ c = second) (fun act member c same => ?_) (fun _ _ => rfl) run
    have := before.subset member
    simp only [handedOver, List.mem_cons, List.not_mem_nil, or_false] at this
    rcases this with rfl | rfl | rfl | rfl | rfl | rfl | rfl | rfl | rfl | rfl | rfl | rfl | rfl <;> cases same <;> simp
  obtain ⟨alone, locked, fresh⟩ := lock_word_exclusive (fun _ => 0) handedOver s run exclusive
  have inside : Operation.running second ∈ s.critical oneLock ⟨0, 0⟩ := by
    show (s.pc second).Inside oneLock ⟨0, 0⟩
    rw [reads]
    rfl
  exact ⟨s, run, reads, fresh second _ 7 reads, locked _ ⟨_, inside⟩, alone _⟩

end Sherman.Lock
