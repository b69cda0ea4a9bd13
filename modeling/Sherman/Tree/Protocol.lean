import Sherman.Concurrency.RelyGuarantee
import Sherman.Tree.Executing

/-!
# The protocol of the clients

The invariant, what a client may rely on while others run, what its verbs may do, and the contracts
of the functions. A mode selects what is assumed of the runs: that one client runs alone, that no
hidden page is published, that no client splits below an outdated root, that no client uses its cache
below a root of level 3.
-/

namespace Sherman

open Concurrency

structure Mode where
  only : Option Client
  visible : Prop
  current : Prop
  high : Prop

def Directory.High (d : Directory) : Prop := d.enableCache = true → 3 ≤ d.gRootLevel

def LinkPending (s : Shared) (c : Client) : Prop :=
  ∃ z ∈ s.pending, z.client = c ∧ ∃ a p, z.write = .page a (.leaf p) ∧ (s.mem a).isSome

def Publishes (s : Shared) : Verb → Prop
  | .post ws => ∃ a p, Write.page a (.internal p) ∈ ws ∧ (s.mem a).isSome
  | .casRoot _ _ => True
  | _ => False

def WritesLeaf (s : Shared) : Verb → Prop
  | .post ws => ∃ w ∈ ws, ∃ a p, w.target = some a ∧ s.mem a = some (.leaf p)
  | _ => False

/-- A client reads pages that are written, and decides about the hand-over of locks it holds. -/
def Sanctioned (t : Client) (v : Verb) (w : World) : Prop :=
  match v with
  | .readPage a => ∃ page, w.1.mem a = some page
  | .canHandOver la => w.2.holding la = some t
  | _ => True

def Silent (t : Client) (v : Verb) (w : World) : Prop := ¬ WritesLeaf w.1 v ∧ Sanctioned t v w

/-! ## Invariant and interference -/

structure Invariant (m : Mode) (cfg : Config) (w : World) : Prop where
  tree : TreeInv w.1 w.2
  lock : LockInv cfg w.1 w.2
  visible : m.visible → VisibleInv w.1 w.2
  only : ∀ c, m.only = some c → ∀ z ∈ w.1.pending, z.client = c
  high : m.high → ∀ n, (w.1.dir n).High

def Reach (m : Mode) (w : World) (a : GlobalAddress) (l : Nat) (x : Key) : Prop :=
  w.2.Linked a l x ∧ (m.visible → ¬ Hidden w.1 w.2 a)

def StatusLe (t : Client) (w w' : World) : Prop :=
  w'.2.status t = w.2.status t ∨ ∃ op wr r, w.2.status t = some ⟨op, some wr, some r, none⟩ ∧
    w'.2.status t = some ⟨op, some wr, some r, some r⟩

structure Rely (m : Mode) (cfg : Config) (t : Client) (w w' : World) : Prop where
  linked : ∀ a l x, w.2.Linked a l x → w'.2.Linked a l x
  reach : m.visible → ∀ a l x, w.2.Linked a l x → ¬ Hidden w.1 w.2 a → ¬ Hidden w'.1 w'.2 a
  path : w'.1.path t = w.1.path t
  owner : ∀ a, w.2.owner a = some t → w'.2.owner a = some t ∧ w'.2.info a = w.2.info a
  private_ : ∀ a, w.2.owner a = some t →
    (w.1.Quiet a → w'.1.Quiet a) ∧ w'.1.view a = w.1.view a
  owed : ∀ a, w.2.owed a = some t → w'.2.owed a = some t
  holding : ∀ la, w.2.holding la = some t →
    w'.2.holding la = some t ∧ w'.1.lock la = w.1.lock la
  held : ∀ a l x, w.2.holding (cfg.lockAddr a) = some t → w.2.Linked a l x →
    w'.1.mem a = w.1.mem a
  lock : ∀ la b, w'.1.lock la = some (t, b) → w.1.lock la = some (t, b)
  pending : ∀ z ∈ w'.1.pending, z.client = t → z ∈ w.1.pending
  status : StatusLe t w w'
  enabled : ∀ n, (w.1.dir n).enableCache = true → (w'.1.dir n).enableCache = true
  rooted : ∀ n, (w.1.dir n).gRootPtr ≠ .null → (w'.1.dir n).gRootPtr ≠ .null

/-- What a client sees of the abstract map object: its operation, and the result once the operation
has taken effect. -/
abbrev Track := Client → Option (Op × Option Result)

def postedTrack (g : Ghost) : Track := fun c => (g.status c).map fun r => (r.op, r.posted)
def executedTrack (g : Ghost) : Track := fun c => (g.status c).map fun r => (r.op, r.executed)

/-- A step changes nothing of the abstract map object, or the operation of `t` takes effect. -/
def Linearizes (t : Client) (before : Track) (bindings : Key → Value → Prop) (after : Track)
    (bindings' : Key → Value → Prop) : Prop :=
  (after = before ∧ bindings' = bindings) ∨
    ∃ op r, before t = some (op, none) ∧ after = Function.update before t (some (op, some r)) ∧
      op.Effect r bindings bindings'

structure Guarantee (m : Mode) (cfg : Config) (t : Client) (v : Verb) (w w' : World) : Prop where
  inv : Invariant m cfg w'
  rely : ∀ u, u ≠ t → Rely m cfg u w w'
  sanctioned : Sanctioned t v w
  posted : Linearizes t (postedTrack w.2) (Bindings w.1 w.2) (postedTrack w'.2) (Bindings w'.1 w'.2)
  quiet : ¬ WritesLeaf w.1 v → Bindings w'.1 w'.2 = Bindings w.1 w.2
  writes : WritesLeaf w.1 v → ∃ op, postedTrack w.2 t = some (op, none) ∧
    op.Effect .done (Bindings w.1 w.2) (Bindings w'.1 w'.2)
  executed : m.visible → Linearizes t (executedTrack w.2) (Executed w.1 w.2)
    (executedTrack w'.2) (Executed w'.1 w'.2)
  op : ∀ c, (w'.2.status c).map Running.op = (w.2.status c).map Running.op

theorem StatusLe.refl (t : Client) (w : World) : StatusLe t w w := .inl rfl

theorem StatusLe.trans {t : Client} {u v w : World} (h : StatusLe t u v) (h' : StatusLe t v w) :
    StatusLe t u w := by
  rcases h with h | ⟨op, wr, r, before, after⟩
  · unfold StatusLe
    rw [← h]
    exact h'
  · rcases h' with h' | ⟨op', wr', r', before', -⟩
    · exact .inr ⟨op, wr, r, before, h'.trans after⟩
    · rw [after] at before'
      simp at before'

theorem Rely.refl (m : Mode) (cfg : Config) (t : Client) (w : World) : Rely m cfg t w w :=
  ⟨fun _ _ _ h => h, fun _ _ _ _ _ h => h, rfl, fun _ h => ⟨h, rfl⟩, fun _ _ => ⟨id, rfl⟩,
    fun _ h => h, fun _ h => ⟨h, rfl⟩, fun _ _ _ _ _ => rfl, fun _ _ h => h, fun _ h _ => h, .refl t w,
    fun _ h => h, fun _ h => h⟩

theorem Rely.trans {m : Mode} {cfg : Config} {t : Client} {u v w : World} (h : Rely m cfg t u v)
    (h' : Rely m cfg t v w) : Rely m cfg t u w where
  linked a l x hl := h'.linked a l x (h.linked a l x hl)
  reach vis a l x hl hh := h'.reach vis a l x (h.linked a l x hl) (h.reach vis a l x hl hh)
  path := h'.path.trans h.path
  owner a ho := by
    obtain ⟨owner, info⟩ := h.owner a ho
    obtain ⟨owner', info'⟩ := h'.owner a owner
    exact ⟨owner', info'.trans info⟩
  private_ a ho := by
    obtain ⟨quiet, view⟩ := h.private_ a ho
    obtain ⟨quiet', view'⟩ := h'.private_ a (h.owner a ho).1
    exact ⟨quiet' ∘ quiet, view'.trans view⟩
  owed a ho := h'.owed a (h.owed a ho)
  holding la hl := by
    obtain ⟨held, lock⟩ := h.holding la hl
    obtain ⟨held', lock'⟩ := h'.holding la held
    exact ⟨held', lock'.trans lock⟩
  held a l x hl hk := (h'.held a l x (h.holding _ hl).1 (h.linked a l x hk)).trans (h.held a l x hl hk)
  lock la b hl := h.lock la b (h'.lock la b hl)
  pending z hz hc := h.pending z (h'.pending z hz hc) hc
  status := h.status.trans h'.status
  enabled n hn := h'.enabled n (h.enabled n hn)
  rooted n hn := h'.rooted n (h.rooted n hn)

theorem Linearizes.refl (t : Client) (track : Track) (bindings : Key → Value → Prop) :
    Linearizes t track bindings track bindings := .inl ⟨rfl, rfl⟩

theorem Guarantee.refl {m : Mode} {cfg : Config} {t : Client} {v : Verb} {w : World}
    (inv : Invariant m cfg w) (silent : Silent t v w) : Guarantee m cfg t v w w :=
  ⟨inv, fun u _ => .refl m cfg u w, silent.2, .refl _ _ _, fun _ => rfl, fun writes => absurd writes silent.1,
    fun _ => .refl _ _ _, fun _ => rfl⟩

/-! ## Contracts -/

structure Extends (m : Mode) (w w' : World) : Prop where
  linked : ∀ a l x, w.2.Linked a l x → w'.2.Linked a l x
  reach : m.visible → ∀ a l x, w.2.Linked a l x → ¬ Hidden w.1 w.2 a → ¬ Hidden w'.1 w'.2 a
  enabled : ∀ n, (w.1.dir n).enableCache = true → (w'.1.dir n).enableCache = true
  rooted : ∀ n, (w.1.dir n).gRootPtr ≠ .null → (w'.1.dir n).gRootPtr ≠ .null

theorem Extends.refl (m : Mode) (w : World) : Extends m w w :=
  ⟨fun _ _ _ h => h, fun _ _ _ _ _ h => h, fun _ h => h, fun _ h => h⟩

theorem Extends.trans {m : Mode} {u v w : World} (h : Extends m u v) (h' : Extends m v w) : Extends m u w :=
  ⟨fun a l x hl => h'.linked a l x (h.linked a l x hl),
    fun vis a l x hl hh => h'.reach vis a l x (h.linked a l x hl) (h.reach vis a l x hl hh),
    fun n hn => h'.enabled n (h.enabled n hn), fun n hn => h'.rooted n (h.rooted n hn)⟩

theorem Extends.reach_mono {m : Mode} {w w' : World} (h : Extends m w w') {a : GlobalAddress} {l : Nat} {x : Key}
    (r : Reach m w a l x) : Reach m w' a l x :=
  ⟨h.linked a l x r.1, fun vis => h.reach vis a l x r.1 (r.2 vis)⟩

/-- From level `l` on, every page on `path_stack` is at its level and not right of the key. -/
def PathOk (t : Client) (l : Nat) (k : Key) (w : World) : Prop :=
  ∀ i, l ≤ i → w.1.path t i = .null ∨ ∃ x, x ≤ k ∧ w.2.Linked (w.1.path t i) i x

/-- The snapshot of the root was one, and unless clients split below an outdated root, `path_stack`
has a page for every level from it down to `l`. -/
def Cover (m : Mode) (t : Client) (l : Nat) (root : GlobalAddress) (w : World) : Prop :=
  ∃ top, w.2.Linked root top kKeyMin ∧
    (m.current → l ≤ top ∧ ∀ i, l < i → i ≤ top → w.1.path t i ≠ .null)

def Route (m : Mode) (cfg : Config) (t : Client) (k : Key) (root : GlobalAddress)
    (fromCache : Bool) (w : World) : Prop :=
  if fromCache then (∀ l, w.1.path t l = .null) ∧ (w.1.dir (cfg.nodeOf t)).enableCache = true ∧
    ∃ top, 1 ≤ top ∧ w.2.Linked root top kKeyMin
  else PathOk t 0 k w ∧ Cover m t 0 root w

def Fresh (t : Client) (op : Op) (w : World) : Prop := w.2.status t = some ⟨op, none, none, none⟩

def Committed (m : Mode) (t : Client) (op : Op) (w : World) : Prop :=
  ∃ commit executed, w.2.status t = some ⟨op, commit, some .done, executed⟩ ∧
    (m.visible → executed = some .done ∨
      executed = none ∧ ∃ a p, commit = some (.page a (.leaf p)))

def found (val : Value) : Result := .value (if val = kValueNull then none else some val)

def Searched (m : Mode) (t : Client) (k : Key) (r : Result) (w : World) : Prop :=
  ∃ posted executed, w.2.status t = some ⟨.search k, none, posted, executed⟩ ∧
    (m.only = some t → posted = some r) ∧ (m.visible → executed = some r)

def Pre (m : Mode) (cfg : Config) (t : Client) : Proc → World → Prop
  | .pageSearch a k fromCache, w =>
      k < kKeyMax ∧ ∃ l x, Reach m w a l x ∧ x ≤ k ∧ (fromCache = true → l = 0)
  | .internalPageStore a k v root level, w =>
      level ≠ 0 ∧ (∃ x, w.2.Linked a level x ∧ x ≤ k) ∧ w.2.Linked v (level - 1) k ∧
        w.2.owed v = some t ∧ PathOk t level k w ∧ Cover m t level root w
  | .internalSplitUp a splitKey sibling root level, w =>
      level ≠ 0 ∧ (∃ x, w.2.Linked a level x) ∧ w.2.Linked sibling level splitKey ∧
        w.2.owed sibling = some t ∧ PathOk t level splitKey w ∧ Cover m t level root w
  | .leafPageStore a k v root level fromCache, w =>
      level = 0 ∧ k < kKeyMax ∧ (∃ x, Reach m w a 0 x ∧ x ≤ k) ∧ Fresh t (.insert k v) w ∧
        Route m cfg t k root fromCache w
  | .leafSplitUp a splitKey sibling root level fromCache, w =>
      level = 0 ∧ (∃ x, w.2.Linked a 0 x) ∧ w.2.Linked sibling 0 splitKey ∧
        w.2.owed sibling = some t ∧ Route m cfg t splitKey root fromCache w
  | .leafPageDel a k level _, w =>
      level = 0 ∧ k < kKeyMax ∧ (∃ x, Reach m w a 0 x ∧ x ≤ k) ∧ Fresh t (.del k) w
  | .insertInternalNext p k v root level, w =>
      level ≠ 0 ∧ (∃ l x, Reach m w p l x ∧ x ≤ k ∧ (m.high → level + 1 ≤ l) ∧ Cover m t l root w) ∧
        w.2.Linked v (level - 1) k ∧ w.2.owed v = some t ∧ PathOk t level k w
  | .insertNext p k v root, w =>
      k < kKeyMax ∧ (∃ l x, Reach m w p l x ∧ x ≤ k ∧ Cover m t l root w) ∧ Fresh t (.insert k v) w ∧
        PathOk t 0 k w
  | .delNext p k, w => k < kKeyMax ∧ (∃ l x, Reach m w p l x ∧ x ≤ k) ∧ Fresh t (.del k) w
  | .searchNext p k root entry, w =>
      k < kKeyMax ∧ (∃ l x, Reach m w p l x ∧ x ≤ k ∧ (entry.isSome = true → l = 0)) ∧
        (∃ l, Reach m w root l kKeyMin) ∧ Fresh t (.search k) w

def Answer (m : Mode) (t : Client) (k : Key) (l : Nat) (w : World) (result : SearchResult)
    (w' : World) : Prop :=
  result.level = l ∧ (result.isLeaf = true ↔ l = 0) ∧
    if result.slibing ≠ .null then
      StatusLe t w w' ∧ result.val = kValueNull ∧ ∃ y, Reach m w' result.slibing l y ∧ y ≤ k
    else if l = 0 then
      (Fresh t (.search k) w → Searched m t k (found result.val) w') ∧
        ((∀ k', (w.2.status t).map Running.op ≠ some (.search k')) → StatusLe t w w')
    else StatusLe t w w' ∧ ∃ y, Reach m w' result.nextLevel (l - 1) y ∧ y ≤ k

def Post (m : Mode) (t : Client) : (p : Proc) → World → Ret p → World → Prop
  | .pageSearch a k fromCache, w, result, w' =>
      Extends m w w' ∧ (∀ b, w.2.owed b = some t → w'.2.owed b = some t) ∧ match result with
      | none => fromCache = true ∧ StatusLe t w w'
      | some result => ∃ l x, w.2.Linked a l x ∧ Answer m t k l w result w' ∧
          (∀ i, w'.1.path t i = if i = l then a else w.1.path t i) ∧
          (fromCache = true → result.slibing = .null)
  | .internalPageStore .., w, _, w' => StatusLe t w w'
  | .internalSplitUp .., w, _, w' => StatusLe t w w'
  | .leafPageStore _ k v _ _ fromCache, w, stored, w' =>
      if stored then Committed m t (.insert k v) w'
      else fromCache = true ∧ Fresh t (.insert k v) w' ∧ w'.1.path t = w.1.path t
  | .leafSplitUp .., w, _, w' => StatusLe t w w'
  | .leafPageDel _ k _ fromCache, _, deleted, w' =>
      if deleted then Committed m t (.del k) w' else fromCache = true ∧ Fresh t (.del k) w'
  | .insertInternalNext .., w, _, w' => StatusLe t w w'
  | .insertNext _ k v _, _, _, w' => Committed m t (.insert k v) w'
  | .delNext _ k, _, _, w' => Committed m t (.del k) w'
  | .searchNext _ k _ _, _, v, w' => Searched m t k (.value v) w'

/-! ## The protocol -/

/-- A fault that is not excluded: a tree higher than `path_stack`, unless no client splits below an
outdated root, a split without a parent, and unless the cache waits for a root of level 3, a root without
level 2. -/
def Tolerates (m : Mode) (error : Fault) : Prop :=
  error = .pathStackOverflow ∨ ¬ m.current ∧ (error = .assertion .leafPageStore .notFromCache ∨
    error = .assertion .internalPageStore .parent) ∨ ¬ m.high ∧ error = .assertion .insertInternal .level

/-- A client whose page write of a leaf split is pending does not publish its sibling. -/
def MayVerb (m : Mode) (t : Client) (v : Verb) (s : Shared) : Prop :=
  (∀ c, m.only = some c → t = c) ∧ (m.visible → Publishes s v → ¬ LinkPending s t) ∧
    (m.current → ∀ old new, v = .casRoot old new → s.rootPtr = old)

/-- A split at the level of the client's snapshot of the root is a split of that root. -/
def MayCall (m : Mode) (t : Client) (p : Proc) (s : Shared) : Prop :=
  (∀ c, m.only = some c → t = c) ∧ (m.current → ∀ a splitKey sibling root level,
    (p = .internalSplitUp a splitKey sibling root level ∨
      ∃ fromCache, p = .leafSplitUp a splitKey sibling root level fromCache) →
    ∀ page, s.mem root = some page → page.hdr.level = level → a = root)

def Finished (m : Mode) (t : Client) (op : Op) (r : Result) (w : World) : Prop :=
  match op with
  | .insert k v => r = .done ∧ Committed m t (.insert k v) w
  | .del k => r = .done ∧ Committed m t (.del k) w
  | .search k => Searched m t k r w

def protocol (m : Mode) (cfg : Config) :
    Protocol signature Client Op Result Shared Ghost Env where
  inv := Invariant m cfg
  rely := Rely m cfg
  rely_refl := Rely.refl m cfg
  rely_trans _ _ _ _ := Rely.trans
  tolerates := Tolerates m
  mayVerb := MayVerb m
  mayCall := MayCall m
  mayInvoke t op _ := (∀ c, m.only = some c → t = c) ∧ op.key < kKeyMax
  mayRespond t s := m.visible → ¬ LinkPending s t
  guar := Guarantee m cfg
  onInvoke t op w w' := Bindings w'.1 w'.2 = Bindings w.1 w.2 ∧
    Executed w'.1 w'.2 = Executed w.1 w.2 ∧ w.2.status t = none ∧
    w'.2 = w.2.setStatus t (some ⟨op, none, none, none⟩)
  onRespond t op r w w' := Bindings w'.1 w'.2 = Bindings w.1 w.2 ∧
    Executed w'.1 w'.2 = Executed w.1 w.2 ∧ w'.2 = w.2.setStatus t none ∧
    ((m.only = some t ∨ ∀ k, op ≠ .search k) → postedTrack w.2 t = some (op, some r)) ∧
    (m.visible → executedTrack w.2 t = some (op, some r))
  onInterfere _ w w' := Bindings w'.1 w'.2 = Bindings w.1 w.2 ∧
    postedTrack w'.2 = postedTrack w.2 ∧
    (m.visible → ∃ c, Linearizes c (executedTrack w.2) (Executed w.1 w.2)
      (executedTrack w'.2) (Executed w'.1 w'.2)) ∧
    ∀ c, (w'.2.status c).map Running.op = (w.2.status c).map Running.op
  pre := Pre m cfg
  post := Post m
  idle t w := w.2.status t = none
  active t op w := (w.2.status t).map Running.op = some op
  started t op w := Fresh t op w ∧ op.key < kKeyMax
  finished := Finished m

end Sherman
