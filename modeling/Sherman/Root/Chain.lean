import Sherman.Root.Machine

namespace Sherman.Root

open Concurrency

def Page.head (p : Page) : Nat × GlobalAddress := (p.hdr.level, p.hdr.leftmostPtr)

def Event.wins : Event → Bool
  | .constructed _ _ won => won
  | _ => false

def Written (s : State) (c : Client) (a : GlobalAddress) : Prop :=
  a ∈ s.allocated ∧ ((s.mem a).isSome ∨ ∃ p, ⟨c, .page a p⟩ ∈ s.pending)

def PcOk (head : GlobalAddress → Nat × GlobalAddress) (s : State) (h : List Event) (c : Client) : Pc → Prop
  | .idle | .rooted _ => True
  | .constructing a => head a = (0, .null) ∧ Written s c a
  | .loaded _ a p | .full _ a p | .cut _ a p _ _ => a ∈ s.allocated ∧ Page.head p = head a
  | .rootSplit root level _ _ => root ∈ s.allocated ∧ (head root).1 = level
  | .growing old new level =>
      old ∈ s.allocated ∧ head new = (level, old) ∧ level = (head old).1 + 1 ∧ Written s c new
  | .broadcasting new level _ => (roots h)[level]? = some new

def WriteOk (head : GlobalAddress → Nat × GlobalAddress) (s : State) : Write → Prop
  | .page a p => a ∈ s.allocated ∧ Page.head p = head a
  | .entry a _ _ => a ∈ s.allocated
  | .unlock _ => True

structure Pages (head : GlobalAddress → Nat × GlobalAddress) (s : State) (h : List Event) : Prop where
  null : .null ∉ s.allocated
  mem : ∀ a p, s.mem a = some p → a ∈ s.allocated ∧ Page.head p = head a
  pending : ∀ x ∈ s.pending, WriteOk head s x.write
  pc : ∀ c, PcOk head s h c (s.pc c)

structure Roots (head : GlobalAddress → Nat × GlobalAddress) (s : State) (h : List Event) : Prop where
  rootPtr : s.rootPtr = (roots h).getLast?.getD .null
  installed : ∀ i a, (roots h)[i]? = some a →
    a ∈ s.allocated ∧ (s.mem a).isSome ∧ (head a).1 = i
  parent : ∀ i a b, (roots h)[i]? = some a → (roots h)[i + 1]? = some b → (head b).2 = a
  first : roots h = [] ∧ (∀ c a won, .constructed c a won ∉ h) ∨
    ∃ c a, h.filter Event.wins = [.constructed c a true] ∧ (roots h)[0]? = some a

/-- What the announcements have brought about. -/
structure Announced (s : State) (h : List Event) : Prop where
  sent : ∀ m, .sent m ∈ h ↔ m ∈ s.sent
  root : ∀ m ∈ s.sent, (roots h)[m.level]? = some m.addr
  dir : ∀ n, ((s.dir n).gRootPtr = .null ∧ (s.dir n).gRootLevel = -1) ∨
    ∃ m ∈ s.sent, (s.dir n).gRootPtr = m.addr ∧ (s.dir n).gRootLevel = m.level
  processed : ∀ m, .processed m ∈ h → m ∈ s.sent ∧ (m.level : Int) ≤ (s.dir m.node).gRootLevel

structure Chain (head : GlobalAddress → Nat × GlobalAddress) (s : State) (h : List Event) : Prop where
  pages : Pages head s h
  roots : Roots head s h
  announced : Announced s h

/-! ## What the stores keep -/

theorem head_storeRecord {a : GlobalAddress} {p p' : Page} {e : Entry} {w : Write} {full : Bool}
    (h : storeRecord a p e = some (p', w, full)) : Page.head p' = Page.head p ∧
      (∀ q, w = .page a q → Page.head q = Page.head p) ∧
      ((∃ q, w = .page a q) ∨ ∃ i r, w = .entry a i r) := by
  unfold storeRecord at h
  split at h
  · split at h
    · rename_i stored
      obtain ⟨rfl, rfl, -⟩ := by simpa using h
      simp only [LeafPage.store] at stored
      split at stored
      · cases stored
      · split at stored
        · obtain ⟨rfl, rfl, -⟩ := by simpa using stored
          exact ⟨rfl, by simp, .inr ⟨_, _, rfl⟩⟩
        · split at stored
          · cases stored
          · obtain ⟨rfl, rfl, -⟩ := by simpa using stored
            exact ⟨rfl, by simp, .inr ⟨_, _, rfl⟩⟩
    · cases h
  · split at h
    · rename_i removed
      obtain ⟨rfl, rfl, -⟩ := by simpa using h
      simp only [LeafPage.del] at removed
      split at removed
      · cases removed
      · obtain ⟨rfl, rfl⟩ := by simpa using removed
        exact ⟨rfl, by simp, .inr ⟨_, _, rfl⟩⟩
    · cases h
  · split at h
    · rename_i stored
      obtain ⟨rfl, rfl, -⟩ := by simpa using h
      simp only [InternalPage.store] at stored
      split at stored
      · cases stored
      · split at stored
        · simp only [Except.ok.injEq] at stored
          subst stored
          exact ⟨rfl, fun q eq => by cases eq; rfl, .inl ⟨_, rfl⟩⟩
        · simp only [Except.ok.injEq] at stored
          subst stored
          exact ⟨rfl, fun q eq => by cases eq; rfl, .inl ⟨_, rfl⟩⟩
    · cases h
  · cases h

theorem head_splitPage {sibling : GlobalAddress} {p p' q : Page} {k : Key}
    (h : splitPage sibling p = some (p', q, k)) : Page.head p' = Page.head p := by
  unfold splitPage at h
  split at h
  · split at h
    · rename_i cut
      obtain ⟨rfl, rfl, rfl⟩ := by simpa using h
      simp only [LeafPage.split] at cut
      split at cut
      · simp only [Except.ok.injEq, Prod.mk.injEq] at cut
        obtain ⟨rfl, -, -⟩ := cut
        rfl
      · cases cut
    · cases h
  · split at h
    · rename_i cut
      obtain ⟨rfl, rfl, rfl⟩ := by simpa using h
      simp only [InternalPage.split] at cut
      split at cut
      · simp only [Except.ok.injEq, Prod.mk.injEq] at cut
        obtain ⟨rfl, -, -⟩ := cut
        rfl
      · cases cut
    · cases h

theorem Written.present {s : State} {c : Client} {a : GlobalAddress} (ok : Written s c a)
    (drained : s.drained c a.nodeID) : (s.mem a).isSome := by
  obtain ⟨-, present | ⟨p, posted⟩⟩ := ok
  · exact present
  · exact absurd rfl (drained _ posted rfl)

/-! ## Steps that keep the root and the announcements -/

section
variable {head head' : GlobalAddress → Nat × GlobalAddress} {s s' : State} {h h' : List Event}

theorem PcOk.mono {c : Client} {pc : Pc} (ok : PcOk head s h c pc)
    (more : ∀ a ∈ s.allocated, a ∈ s'.allocated ∧ head' a = head a)
    (written : ∀ a, Written s c a → Written s' c a)
    (grows : ∀ (i : Nat) (a : GlobalAddress), (roots h)[i]? = some a → (roots h')[i]? = some a) :
    PcOk head' s' h' c pc := by
  cases pc with
  | idle => trivial
  | rooted root => trivial
  | constructing a => exact ⟨(more a ok.2.1).2.trans ok.1, written a ok.2⟩
  | loaded root a p => exact ⟨(more a ok.1).1, ok.2.trans (more a ok.1).2.symm⟩
  | full root a p => exact ⟨(more a ok.1).1, ok.2.trans (more a ok.1).2.symm⟩
  | cut root a p k sibling => exact ⟨(more a ok.1).1, ok.2.trans (more a ok.1).2.symm⟩
  | rootSplit root level k sibling =>
      exact ⟨(more root ok.1).1, (congrArg Prod.fst (more root ok.1).2).trans ok.2⟩
  | growing old new level =>
      refine ⟨(more old ok.1).1, (more new ok.2.2.2.1).2.trans ok.2.1, ?_, written new ok.2.2.2⟩
      rw [(more old ok.1).2]
      exact ok.2.2.1
  | broadcasting new level i => exact grows level new ok

theorem WriteOk.mono {w : Write} (ok : WriteOk head s w)
    (more : ∀ a ∈ s.allocated, a ∈ s'.allocated ∧ head' a = head a) : WriteOk head' s' w := by
  cases w with
  | page a p => exact ⟨(more a ok.1).1, ok.2.trans (more a ok.1).2.symm⟩
  | entry a i r => exact (more a ok).1
  | unlock la => trivial

theorem Roots.congr (ok : Roots head s h) (rootPtr : s'.rootPtr = s.rootPtr)
    (more : ∀ a ∈ s.allocated, a ∈ s'.allocated ∧ head' a = head a)
    (present : ∀ a, (s.mem a).isSome → (s'.mem a).isSome) : Roots head' s' h where
  rootPtr := rootPtr.trans ok.rootPtr
  installed i a at_ := by
    obtain ⟨allocated, page, level⟩ := ok.installed i a at_
    exact ⟨(more a allocated).1, present a page, (congrArg Prod.fst (more a allocated).2).trans level⟩
  parent i a b at_ next := by
    rw [(more b (ok.installed (i + 1) b next).1).2]
    exact ok.parent i a b at_ next
  first := ok.first

theorem Announced.congr (ok : Announced s h) (sent : s'.sent = s.sent) (dir : s'.dir = s.dir) :
    Announced s' h where
  sent := by
    rw [sent]
    exact ok.sent
  root := by
    rw [sent]
    exact ok.root
  dir := by
    rw [sent, dir]
    exact ok.dir
  processed := by
    rw [sent, dir]
    exact ok.processed

theorem Chain.setPc (chain : Chain head s h) {c : Client} {pc : Pc} (ok : PcOk head s h c pc) :
    Chain head (s.setPc c pc) h where
  pages := {
    null := chain.pages.null
    mem := chain.pages.mem
    pending x member := (chain.pages.pending x member).mono fun a at_ => ⟨at_, rfl⟩
    pc c' := by
      have ok' : PcOk head s h c' (Function.update s.pc c pc c') := by
        by_cases same : c' = c
        · subst same
          rw [Function.update_self]
          exact ok
        · rw [Function.update_of_ne same]
          exact chain.pages.pc c'
      exact ok'.mono (fun a at_ => ⟨at_, rfl⟩) (fun a ok => ok) fun i a at_ => at_ }
  roots := chain.roots.congr rfl (fun a at_ => ⟨at_, rfl⟩) fun a page => page
  announced := chain.announced.congr rfl rfl

theorem Chain.post (chain : Chain head s h) {c : Client} {w : Write} (ok : WriteOk head s w) :
    Chain head (s.post c w) h where
  pages := {
    null := chain.pages.null
    mem := chain.pages.mem
    pending x member := by
      rcases List.mem_append.mp member with old | new
      · exact (chain.pages.pending x old).mono fun a at_ => ⟨at_, rfl⟩
      · rw [List.mem_singleton.mp new]
        exact ok.mono fun a at_ => ⟨at_, rfl⟩
    pc c' := by
      refine (chain.pages.pc c').mono (fun a at_ => ⟨at_, rfl⟩) ?_ fun i a at_ => at_
      rintro a ⟨allocated, present | ⟨p, posted⟩⟩
      · exact ⟨allocated, .inl present⟩
      · exact ⟨allocated, .inr ⟨p, List.mem_append_left _ posted⟩⟩ }
  roots := chain.roots.congr rfl (fun a at_ => ⟨at_, rfl⟩) fun a page => page
  announced := chain.announced.congr rfl rfl

theorem Chain.alloc (chain : Chain head s h) {a : GlobalAddress} (fresh : s.Fresh a)
    (v : Nat × GlobalAddress) : Chain (Function.update head a v) (s.alloc a) h := by
  have more : ∀ b ∈ s.allocated, b ∈ (s.alloc a).allocated ∧ Function.update head a v b = head b := by
    intro b member
    have other : b ≠ a := fun same => fresh.2 (same ▸ member)
    exact ⟨List.mem_cons_of_mem a member, by rw [Function.update_of_ne other]⟩
  refine ⟨⟨?_, ?_, ?_, ?_⟩, chain.roots.congr rfl more fun b page => page, chain.announced.congr rfl rfl⟩
  · intro member
    rcases List.mem_cons.mp member with same | old
    · exact fresh.1 same.symm
    · exact chain.pages.null old
  · intro b p at_
    obtain ⟨allocated, eq⟩ := chain.pages.mem b p at_
    exact ⟨(more b allocated).1, eq.trans (more b allocated).2.symm⟩
  · exact fun x member => (chain.pages.pending x member).mono more
  · exact fun c => (chain.pages.pc c).mono more (fun b ok => ⟨(more b ok.1).1, ok.2⟩) fun i b at_ => at_

theorem Chain.allocPost (chain : Chain head s h) {c : Client} {a : GlobalAddress} (fresh : s.Fresh a)
    (p : Page) : Chain (Function.update head a (Page.head p)) ((s.alloc a).post c (.page a p)) h ∧
      Written ((s.alloc a).post c (.page a p)) c a := by
  refine ⟨(chain.alloc fresh _).post ⟨List.mem_cons_self, ?_⟩, List.mem_cons_self, .inr ⟨p, ?_⟩⟩
  · rw [Function.update_self]
  · exact List.mem_append_right _ (List.mem_singleton_self _)

theorem head_apply {w : Write} {old p : Page} (h : w.apply (some old) = some p) :
    (∃ a, w = .page a p) ∨ Page.head p = Page.head old := by
  cases w with
  | page a q =>
      simp only [Write.apply, Option.some.injEq] at h
      exact .inl ⟨a, by rw [h]⟩
  | entry a i r =>
      cases old with
      | leaf q =>
          simp only [Write.apply, Option.some.injEq] at h
          subst h
          exact .inr rfl
      | internal q =>
          simp only [Write.apply, Option.some.injEq] at h
          exact .inr (by rw [h])
  | unlock la =>
      simp only [Write.apply, Option.some.injEq] at h
      exact .inr (by rw [h])

theorem Chain.execute (chain : Chain head s h) {i : Nat} {x : Posted} (found : s.pending[i]? = some x)
    {mem : GlobalAddress → Option Page} (eq : mem = match x.write.target with
      | some a => Function.update s.mem a (x.write.apply (s.mem a))
      | none => s.mem) : Chain head { s with pending := s.pending.eraseIdx i, mem := mem } h := by
  have ok := chain.pages.pending x (List.mem_of_getElem? found)
  have kept : ∀ a, (s.mem a).isSome → (mem a).isSome := by
    intro a present
    subst eq
    cases w : x.write with
    | page b p =>
        by_cases same : a = b
        · simp [Write.target, Write.apply, same]
        · simpa [Write.target, Function.update_of_ne same] using present
    | entry b i r =>
        by_cases same : a = b
        · subst same
          obtain ⟨p, at_⟩ := Option.isSome_iff_exists.mp present
          cases p <;> simp [Write.target, Write.apply, at_]
        · simpa [Write.target, Function.update_of_ne same] using present
    | unlock la => simpa [Write.target] using present
  refine ⟨⟨chain.pages.null, ?_, ?_, ?_⟩, chain.roots.congr rfl (fun a at_ => ⟨at_, rfl⟩) kept,
    chain.announced.congr rfl rfl⟩
  · intro a p at_
    change mem a = some p at at_
    subst eq
    cases w : x.write with
    | page b q =>
        rw [w] at ok at_
        by_cases same : a = b
        · subst same
          simp only [Write.target, Write.apply, Function.update_self, Option.some.injEq] at at_
          exact at_ ▸ ok
        · simp only [Write.target, Function.update_of_ne same] at at_
          exact chain.pages.mem a p at_
    | entry b i r =>
        rw [w] at ok at_
        by_cases same : a = b
        · subst same
          simp only [Write.target, Function.update_self] at at_
          cases old : s.mem a with
          | none =>
              rw [old] at at_
              cases at_
          | some q =>
              rw [old] at at_
              obtain ⟨b, page⟩ | head := head_apply at_
              · cases page
              · exact ⟨ok, head.trans (chain.pages.mem a q old).2⟩
        · simp only [Write.target, Function.update_of_ne same] at at_
          exact chain.pages.mem a p at_
    | unlock la =>
        rw [w] at at_
        exact chain.pages.mem a p at_
  · exact fun y member => (chain.pages.pending y (List.mem_of_mem_eraseIdx member)).mono
      fun a at_ => ⟨at_, rfl⟩
  · refine fun c => (chain.pages.pc c).mono (fun a at_ => ⟨at_, rfl⟩) ?_ fun i a at_ => at_
    rintro a ⟨allocated, present | ⟨p, posted⟩⟩
    · exact ⟨allocated, .inl (kept a present)⟩
    · -- the write that has just been executed may be the one the client waits for
      by_cases this : x = ⟨c, .page a p⟩
      · refine ⟨allocated, .inl ?_⟩
        subst eq
        simp [this, Write.target, Write.apply]
      · exact ⟨allocated, .inr ⟨p, mem_eraseIdx posted found (Ne.symm this)⟩⟩
where
  mem_eraseIdx {l : List Posted} {x y : Posted} {i : Nat} (member : y ∈ l) (at_ : l[i]? = some x)
      (other : y ≠ x) : y ∈ l.eraseIdx i := by
    obtain ⟨j, inside, rfl⟩ := List.mem_iff_getElem.mp member
    refine List.mem_eraseIdx_iff_getElem.mpr ⟨j, inside, ?_, rfl⟩
    rintro rfl
    rw [List.getElem?_eq_getElem inside] at at_
    exact other (Option.some.inj at_)

/-! ## Steps that install and announce roots -/

theorem roots_append (h h' : List Event) : roots (h ++ h') = roots h ++ roots h' :=
  List.filterMap_append

theorem grows_append (h h' : List Event) (i : Nat) (a : GlobalAddress) (at_ : (roots h)[i]? = some a) :
    (roots (h ++ h'))[i]? = some a := by
  rw [roots_append, List.getElem?_append_left (List.getElem?_eq_some_iff.mp at_).1]
  exact at_

theorem getElem?_snoc {l : List GlobalAddress} {a b : GlobalAddress} {i : Nat}
    (at_ : (l ++ [a])[i]? = some b) : l[i]? = some b ∨ i = l.length ∧ b = a := by
  rw [List.getElem?_append] at at_
  split at at_
  · exact .inl at_
  · rename_i past
    obtain ⟨inside, eq⟩ := List.getElem?_eq_some_iff.mp at_
    simp only [List.length_singleton] at inside
    have zero : i - l.length = 0 := by omega
    simp only [zero, List.getElem_cons_zero] at eq
    exact .inr ⟨by omega, eq.symm⟩

theorem Announced.other (ok : Announced s h) {e : Event} (sent : ∀ m, e ≠ .sent m)
    (processed : ∀ m, e ≠ .processed m) : Announced s (h ++ [e]) where
  sent m := by
    rw [List.mem_append, List.mem_singleton, ← ok.sent m]
    exact or_iff_left fun eq => sent m eq.symm
  root m member := grows_append h [e] _ _ (ok.root m member)
  dir := ok.dir
  processed m member := by
    rcases List.mem_append.mp member with old | new
    · exact ok.processed m old
    · exact absurd (List.mem_singleton.mp new).symm (processed m)

theorem Pages.history (ok : Pages head s h) (e : List Event) : Pages head s (h ++ e) where
  null := ok.null
  mem := ok.mem
  pending := ok.pending
  pc c := (ok.pc c).mono (fun _ at_ => ⟨at_, rfl⟩) (fun _ ok => ok) (grows_append h e)

theorem chain_setRoot (chain : Chain head s h) {a : GlobalAddress} {e : Event} (new : roots [e] = [a])
    (allocated : a ∈ s.allocated) (present : (s.mem a).isSome)
    (level : (head a).1 = (roots h).length)
    (parent : ∀ b, (roots h).getLast? = some b → (head a).2 = b)
    (first : ∃ c a', (h ++ [e]).filter Event.wins = [.constructed c a' true] ∧
      (roots (h ++ [e]))[0]? = some a')
    (sent : ∀ m, e ≠ .sent m) (processed : ∀ m, e ≠ .processed m) :
    Chain head (s.setRoot a) (h ++ [e]) := by
  have pages := chain.pages.history [e]
  have announced := chain.announced.other sent processed
  refine ⟨⟨pages.null, pages.mem, ?_, ?_⟩, ⟨?_, ?_, ?_, .inr first⟩, announced.congr rfl rfl⟩
  · exact fun x member => (pages.pending x member).mono fun a at_ => ⟨at_, rfl⟩
  · exact fun c => (pages.pc c).mono (fun _ at_ => ⟨at_, rfl⟩) (fun _ ok => ok) fun _ _ at_ => at_
  · rw [roots_append, new, List.getLast?_concat]
    rfl
  · intro i b at_
    rw [roots_append, new] at at_
    obtain old | ⟨rfl, rfl⟩ := getElem?_snoc at_
    · exact chain.roots.installed i b old
    · exact ⟨allocated, present, level⟩
  · intro i b b' at_ next
    rw [roots_append, new] at at_ next
    obtain old | ⟨eq, rfl⟩ := getElem?_snoc next
    · rw [List.getElem?_append_left (by have := (List.getElem?_eq_some_iff.mp old).1; omega)] at at_
      exact chain.roots.parent i b b' at_ old
    · rw [List.getElem?_append_left (by omega)] at at_
      refine parent b ?_
      rw [List.getLast?_eq_getElem?, ← eq, Nat.add_sub_cancel]
      exact at_

theorem last_of_rootPtr (chain : Chain head s h) (nonnull : s.rootPtr ≠ .null) :
    (roots h).getLast? = some s.rootPtr := by
  have eq := chain.roots.rootPtr
  cases last : (roots h).getLast? with
  | none =>
      rw [last] at eq
      exact absurd eq nonnull
  | some a =>
      rw [last] at eq
      rw [eq]
      rfl

theorem roots_nil_of_null (chain : Chain head s h) (null : s.rootPtr = .null) : roots h = [] := by
  have eq := chain.roots.rootPtr
  cases last : (roots h).getLast? with
  | none => exact List.getLast?_eq_none_iff.mp last
  | some a =>
      rw [last, null] at eq
      obtain ⟨i, inside, rfl⟩ := List.mem_iff_getElem.mp (List.mem_of_getLast? last)
      have := (chain.roots.installed i _ (List.getElem?_eq_getElem inside)).1
      simp only [Option.getD_some] at eq
      rw [← eq] at this
      exact absurd this chain.pages.null

theorem chain_install (chain : Chain head s h) {c : Client} {a : GlobalAddress}
    (at_ : s.pc c = .constructing a) (drained : s.drained c a.nodeID) :
    Chain head (s.setRoot (if s.rootPtr = .null then a else s.rootPtr))
      (h ++ [.constructed c a (s.rootPtr = .null)]) := by
  have ok := chain.pages.pc c
  rw [at_] at ok
  by_cases null : s.rootPtr = .null
  · have empty := roots_nil_of_null chain null
    rw [if_pos null]
    refine chain_setRoot chain (by simp [roots, null]) ok.2.1 (ok.2.present drained) ?_ ?_ ?_
      (fun m eq => by cases eq) (fun m eq => by cases eq)
    · rw [ok.1, empty]
      rfl
    · intro b last
      rw [empty] at last
      cases last
    · refine ⟨c, a, ?_, ?_⟩
      · obtain ⟨-, none⟩ | ⟨c', a', -, zero⟩ := chain.roots.first
        · have quiet : h.filter Event.wins = [] := by
            rw [List.filter_eq_nil_iff]
            intro e member
            cases e with
            | constructed c' a' won => exact absurd member (none c' a' won)
            | _ => simp [Event.wins]
          simp [quiet, Event.wins, null]
        · rw [empty] at zero
          cases zero
      · rw [roots_append, empty]
        simp [roots, null]
  · have last := last_of_rootPtr chain null
    have quiet : roots [.constructed c a (decide (s.rootPtr = .null))] = [] := by simp [roots, null]
    have same : roots (h ++ [.constructed c a (decide (s.rootPtr = .null))]) = roots h := by
      rw [roots_append, quiet, List.append_nil]
    rw [if_neg null]
    refine ⟨chain.pages.history _, ⟨?_, ?_, ?_, ?_⟩,
      chain.announced.other (fun m eq => by cases eq) fun m eq => by cases eq⟩
    · rw [same]
      exact chain.roots.rootPtr
    · rw [same]
      exact chain.roots.installed
    · rw [same]
      exact chain.roots.parent
    · obtain ⟨empty, -⟩ | ⟨c', a', wins, zero⟩ := chain.roots.first
      · rw [empty] at last
        cases last
      · refine .inr ⟨c', a', ?_, by rw [same]; exact zero⟩
        rw [List.filter_append, wins]
        simp [Event.wins, null]

theorem chain_casRoot (chain : Chain head s h) {c : Client} {old new : GlobalAddress} {level : Nat}
    (at_ : s.pc c = .growing old new level) (drained : s.drained c new.nodeID)
    (current : s.rootPtr = old) : Chain head (s.setRoot new) (h ++ [.grown c old new]) ∧
      (roots (h ++ [.grown c old new]))[level]? = some new := by
  have ok := chain.pages.pc c
  rw [at_] at ok
  obtain ⟨allocated, eq, up, written⟩ := ok
  have nonnull : s.rootPtr ≠ .null := by
    rintro null
    rw [← current, null] at allocated
    exact chain.pages.null allocated
  have last := last_of_rootPtr chain nonnull
  rw [current] at last
  have size : (head old).1 + 1 = (roots h).length := by
    rw [List.getLast?_eq_getElem?] at last
    have inside := (List.getElem?_eq_some_iff.mp last).1
    have := (chain.roots.installed _ old last).2.2
    omega
  have append : roots (h ++ [.grown c old new]) = roots h ++ [new] := roots_append _ _
  refine ⟨chain_setRoot chain rfl written.1 (written.present drained) ?_ ?_ ?_
    (fun m eq => by cases eq) (fun m eq => by cases eq), ?_⟩
  · rw [eq, ← size]
    exact up
  · intro b last'
    rw [eq]
    exact Option.some.inj (last.symm.trans last')
  · obtain ⟨empty, -⟩ | ⟨c', a', wins, zero⟩ := chain.roots.first
    · rw [empty] at last
      cases last
    · refine ⟨c', a', ?_, grows_append h _ 0 a' zero⟩
      rw [List.filter_append, wins]
      rfl
  · rw [append, up, size, List.getElem?_concat_length]

theorem chain_send (chain : Chain head s h) {c : Client} {new : GlobalAddress} {level : Nat} {i : NodeID}
    (at_ : s.pc c = .broadcasting new level i) :
    Chain head (s.send ⟨i, new, level⟩) (h ++ [.sent ⟨i, new, level⟩]) := by
  have ok := chain.pages.pc c
  rw [at_] at ok
  have same : roots (h ++ [.sent ⟨i, new, level⟩]) = roots h := by
    rw [roots_append]
    exact List.append_nil _
  have pages := chain.pages.history [.sent ⟨i, new, level⟩]
  refine ⟨⟨pages.null, pages.mem, ?_, ?_⟩, ⟨?_, ?_, ?_, ?_⟩, ⟨?_, ?_, ?_, ?_⟩⟩
  · exact fun x member => (pages.pending x member).mono fun a at_ => ⟨at_, rfl⟩
  · exact fun c => (pages.pc c).mono (fun _ at_ => ⟨at_, rfl⟩) (fun _ ok => ok) fun _ _ at_ => at_
  · rw [same]
    exact chain.roots.rootPtr
  · rw [same]
    exact chain.roots.installed
  · rw [same]
    exact chain.roots.parent
  · rw [same]
    obtain ⟨empty, none⟩ | ⟨c', a', wins, zero⟩ := chain.roots.first
    · exact .inl ⟨empty, fun c a won => by simp [none]⟩
    · refine .inr ⟨c', a', ?_, zero⟩
      rw [List.filter_append, wins]
      rfl
  · intro m
    simp [State.send, chain.announced.sent m, or_comm]
  · intro m member
    rw [same]
    rcases List.mem_cons.mp member with rfl | old
    · exact ok
    · exact chain.announced.root m old
  · intro n
    refine (chain.announced.dir n).imp id ?_
    rintro ⟨m, member, eq⟩
    exact ⟨m, List.mem_cons_of_mem _ member, eq⟩
  · intro m member
    simp only [List.mem_append, List.mem_singleton, reduceCtorEq, or_false] at member
    obtain ⟨sent, le⟩ := chain.announced.processed m member
    exact ⟨List.mem_cons_of_mem _ sent, le⟩

theorem processNewRoot_cases (d : Directory) (a : GlobalAddress) (level : Nat) :
    (d.gRootLevel < level ∧ (d.processNewRoot a level).gRootPtr = a ∧
      (d.processNewRoot a level).gRootLevel = level) ∨
    (level ≤ d.gRootLevel ∧ d.processNewRoot a level = d) := by
  unfold Directory.processNewRoot
  split
  · exact .inl ⟨by assumption, rfl, rfl⟩
  · exact .inr ⟨by omega, rfl⟩

theorem processNewRoot_le (d : Directory) (a : GlobalAddress) (level : Nat) :
    d.gRootLevel ≤ (d.processNewRoot a level).gRootLevel ∧
      (level : Int) ≤ (d.processNewRoot a level).gRootLevel := by
  obtain ⟨less, -, eq⟩ | ⟨le, eq⟩ := processNewRoot_cases d a level
  · rw [eq]
    exact ⟨less.le, Int.le_refl _⟩
  · rw [eq]
    exact ⟨Int.le_refl _, le⟩

theorem chain_deliver (chain : Chain head s h) {m : Message} (member : m ∈ s.sent) :
    Chain head { s with
      dir := Function.update s.dir m.node ((s.dir m.node).processNewRoot m.addr m.level) }
      (h ++ [.processed m]) := by
  have same : roots (h ++ [.processed m]) = roots h := by
    rw [roots_append]
    exact List.append_nil _
  have pages := chain.pages.history [.processed m]
  refine ⟨⟨pages.null, pages.mem, ?_, ?_⟩, ⟨?_, ?_, ?_, ?_⟩, ⟨?_, ?_, ?_, ?_⟩⟩
  · exact fun x member => (pages.pending x member).mono fun a at_ => ⟨at_, rfl⟩
  · exact fun c => (pages.pc c).mono (fun _ at_ => ⟨at_, rfl⟩) (fun _ ok => ok) fun _ _ at_ => at_
  · rw [same]
    exact chain.roots.rootPtr
  · rw [same]
    exact chain.roots.installed
  · rw [same]
    exact chain.roots.parent
  · rw [same]
    obtain ⟨empty, none⟩ | ⟨c', a', wins, zero⟩ := chain.roots.first
    · exact .inl ⟨empty, fun c a won => by simp [none]⟩
    · refine .inr ⟨c', a', ?_, zero⟩
      rw [List.filter_append, wins]
      rfl
  · intro m'
    simp [chain.announced.sent m']
  · intro m' member'
    rw [same]
    exact chain.announced.root m' member'
  · intro n
    by_cases here : n = m.node
    · subst here
      simp only [Function.update_self]
      obtain ⟨-, addr, level⟩ | ⟨-, eq⟩ := processNewRoot_cases (s.dir m.node) m.addr m.level
      · exact .inr ⟨m, member, addr, level⟩
      · rw [eq]
        exact chain.announced.dir m.node
    · simp only [Function.update_of_ne here]
      exact chain.announced.dir n
  · intro m' member'
    have le := processNewRoot_le (s.dir m.node) m.addr m.level
    by_cases here : m'.node = m.node
    · simp only [here, Function.update_self]
      rcases List.mem_append.mp member' with old | new
      · obtain ⟨sent, level⟩ := chain.announced.processed m' old
        rw [here] at level
        exact ⟨sent, level.trans le.1⟩
      · cases List.mem_singleton.mp new
        exact ⟨member, le.2⟩
    · simp only [Function.update_of_ne here]
      rcases List.mem_append.mp member' with old | new
      · exact chain.announced.processed m' old
      · cases List.mem_singleton.mp new
        exact absurd rfl here

end

/-! ## Runs -/

theorem init_chain : Chain (fun _ => (0, .null)) .init [] where
  pages := {
    null := List.not_mem_nil
    mem a p at_ := nomatch at_
    pending x member := nomatch member
    pc c := trivial }
  roots := {
    rootPtr := rfl
    installed i a at_ := nomatch at_
    parent i a b at_ := nomatch at_
    first := .inl ⟨rfl, fun c a won member => nomatch member⟩ }
  announced := {
    sent m := by simp [State.init]
    root m member := nomatch member
    dir n := .inl ⟨rfl, rfl⟩
    processed m member := nomatch member }

theorem chain_step {cl : Cluster} {s s' : State} {h : List Event} {a : Action}
    {head : GlobalAddress → Nat × GlobalAddress} (chain : Chain head s h)
    (step : (machine cl).step s a = some s') : ∃ head', Chain head' s' (h ++ event s a) := by
  cases a with
  | construct c a =>
      simp only [machine, Root.step] at step
      split at step
      · split at step
        · rename_i fresh
          simp only [Option.some.injEq] at step
          subst step
          obtain ⟨next, written⟩ := chain.allocPost (c := c) fresh (.leaf (LeafPage.new 0).setConsistent)
          simp only [event, List.append_nil]
          refine ⟨_, next.setPc ⟨?_, written⟩⟩
          rw [Function.update_self]
          rfl
        · cases step
      · cases step
  | install c =>
      simp only [machine, Root.step] at step
      split at step
      · rename_i a at_
        split at step
        · rename_i drained
          simp only [Option.some.injEq] at step
          subst step
          simp only [event, at_]
          exact ⟨head, (chain_install chain at_ drained).setPc trivial⟩
        · cases step
      · cases step
  | getRootPtr c =>
      simp only [machine, Root.step] at step
      split at step
      · simp only [Option.some.injEq] at step
        subst step
        simp only [event, List.append_nil]
        exact ⟨head, chain.setPc trivial⟩
      · cases step
  | readPage c a =>
      simp only [machine, Root.step] at step
      split at step
      · split at step
        · rename_i p at_
          split at step
          · simp only [Option.some.injEq] at step
            subst step
            simp only [event, List.append_nil]
            exact ⟨head, chain.setPc (chain.pages.mem a p at_)⟩
          · cases step
        · cases step
      · cases step
  | store c e =>
      simp only [machine, Root.step] at step
      split at step
      · rename_i root a p at_
        have ok := chain.pages.pc c
        rw [at_] at ok
        split at step
        · rename_i p' w needSplit stored
          obtain ⟨same, page, kind⟩ := head_storeRecord stored
          split at step
          · simp only [Option.some.injEq] at step
            subst step
            simp only [event, List.append_nil]
            exact ⟨head, chain.setPc ⟨ok.1, same.trans ok.2⟩⟩
          · simp only [Option.some.injEq] at step
            subst step
            have posted : WriteOk head s w := by
              obtain ⟨q, rfl⟩ | ⟨i, r, rfl⟩ := kind
              · exact ⟨ok.1, (page q rfl).trans ok.2⟩
              · exact ok.1
            simp only [event, List.append_nil]
            exact ⟨head, (chain.post posted).setPc trivial⟩
        · cases step
      · cases step
  | split c sibling =>
      simp only [machine, Root.step] at step
      split at step
      · rename_i root a p at_
        have ok := chain.pages.pc c
        rw [at_] at ok
        split at step
        · rename_i fresh
          split at step
          · rename_i p' q k cut
            simp only [Option.some.injEq] at step
            subst step
            have other : a ≠ sibling := fun same => fresh.2 (same ▸ ok.1)
            obtain ⟨next, -⟩ := chain.allocPost (c := c) fresh q
            simp only [event, List.append_nil]
            refine ⟨_, next.setPc ⟨List.mem_cons_of_mem _ ok.1, ?_⟩⟩
            rw [Function.update_of_ne other]
            exact (head_splitPage cut).trans ok.2
          · cases step
        · cases step
      · cases step
  | writePage c =>
      simp only [machine, Root.step] at step
      split at step
      · rename_i root a p k sibling at_
        have ok := chain.pages.pc c
        rw [at_] at ok
        split at step
        · simp only [Option.some.injEq] at step
          subst step
          have next := chain.post (c := c) (w := .page a p) ok
          simp only [event, List.append_nil]
          refine ⟨head, next.setPc ?_⟩
          split
          · rename_i same
            rw [same]
            exact ⟨ok.1, (congrArg Prod.fst ok.2).symm⟩
          · trivial
        · cases step
      · cases step
  | newRoot c a =>
      simp only [machine, Root.step] at step
      split at step
      · rename_i root level k sibling at_
        have ok := chain.pages.pc c
        rw [at_] at ok
        split at step
        · rename_i fresh
          simp only [Option.some.injEq] at step
          subst step
          have other : root ≠ a := fun same => fresh.2 (same ▸ ok.1)
          obtain ⟨next, written⟩ := chain.allocPost (c := c) fresh
            (.internal (InternalPage.newRoot root k sibling (level + 1)).setConsistent)
          simp only [event, List.append_nil]
          refine ⟨_, next.setPc ⟨List.mem_cons_of_mem _ ok.1, ?_, ?_, written⟩⟩
          · rw [Function.update_self]
            rfl
          · rw [Function.update_of_ne other, ok.2]
        · cases step
      · cases step
  | casRoot c =>
      simp only [machine, Root.step] at step
      split at step
      · rename_i old new level at_
        split at step
        · rename_i drained
          split at step
          · rename_i current
            simp only [Option.some.injEq] at step
            subst step
            simp only [event, at_, current, if_true]
            obtain ⟨next, root⟩ := chain_casRoot chain at_ drained current
            exact ⟨head, next.setPc root⟩
          · rename_i lost
            simp only [Option.some.injEq] at step
            subst step
            simp only [event, at_, lost, if_false, List.append_nil]
            exact ⟨head, chain.setPc trivial⟩
        · cases step
      · cases step
  | send c =>
      simp only [machine, Root.step] at step
      split at step
      · rename_i new level i at_
        split at step
        · simp only [Option.some.injEq] at step
          subst step
          have ok := chain.pages.pc c
          rw [at_] at ok
          simp only [event, at_]
          exact ⟨head, (chain_send chain at_).setPc (grows_append h _ _ _ ok)⟩
        · cases step
      · cases step
  | «return» c =>
      simp only [machine, Root.step] at step
      split at step
      · simp only [Option.some.injEq] at step
        subst step
        simp only [event, List.append_nil]
        exact ⟨head, chain.setPc trivial⟩
      · split at step
        · simp only [Option.some.injEq] at step
          subst step
          simp only [event, List.append_nil]
          exact ⟨head, chain.setPc trivial⟩
        · cases step
      · cases step
  | execute i =>
      simp only [machine, Root.step] at step
      split at step
      · rename_i x found
        split at step
        · simp only [Option.some.injEq] at step
          subst step
          simp only [event, List.append_nil]
          exact ⟨head, chain.execute found rfl⟩
        · cases step
      · cases step
  | deliver m =>
      simp only [machine, Root.step] at step
      split at step
      · rename_i member
        simp only [Option.some.injEq] at step
        subst step
        exact ⟨head, chain_deliver chain member⟩
      · cases step

theorem level_step {cl : Cluster} {s s' : State} {a : Action} (step : (machine cl).step s a = some s')
    (n : NodeID) : (s.dir n).gRootLevel ≤ (s'.dir n).gRootLevel := by
  have same : s'.dir = s.dir ∨ ∃ m, a = .deliver m := by
    cases a with
    | deliver m => exact .inr ⟨m, rfl⟩
    | _ =>
        left
        simp only [machine, Root.step] at step
        repeat' split at step
        all_goals first
          | cases step; done
          | (simp only [Option.some.injEq] at step; subst step; rfl)
  obtain eq | ⟨m, rfl⟩ := same
  · rw [eq]
  · simp only [machine, Root.step] at step
    split at step
    · simp only [Option.some.injEq] at step
      subst step
      by_cases here : n = m.node
      · subst here
        simp only [Function.update_self]
        exact (processNewRoot_le _ _ _).1
      · simp only [Function.update_of_ne here]
        exact Int.le_refl _
    · cases step

/-- What the constructors and the growing tree do to the root pointer, and what the announcements do
to the copies of it. -/
structure RootChain (s : State) (h : List Event) : Prop where
  constructor_wins : (∃ c a won, .constructed c a won ∈ h) →
    ∃ c a, h.filter Event.wins = [.constructed c a true] ∧ (roots h)[0]? = some a
  rootPtr : s.rootPtr = (roots h).getLast?.getD .null
  nodup : (roots h).Nodup
  level : ∀ i a, (roots h)[i]? = some a → ∃ p, s.mem a = some p ∧ p.hdr.level = i
  parent : ∀ i a b, (roots h)[i]? = some a → (roots h)[i + 1]? = some b →
    ∃ p, s.mem b = some p ∧ p.hdr.leftmostPtr = a
  announced : ∀ n, ((s.dir n).gRootPtr = .null ∧ (s.dir n).gRootLevel = -1) ∨
    ∃ i : Nat, (roots h)[i]? = some (s.dir n).gRootPtr ∧ (s.dir n).gRootLevel = i
  latest : ∀ m, .processed m ∈ h → (∀ m', .sent m' ∈ h → m'.level ≤ m.level) →
    (s.dir m.node).gRootPtr = m.addr

theorem rootChain_of_chain {head : GlobalAddress → Nat × GlobalAddress} {s : State} {h : List Event}
    (chain : Chain head s h) : RootChain s h where
  constructor_wins := by
    rintro ⟨c, a, won, member⟩
    obtain ⟨-, none⟩ | first := chain.roots.first
    · exact absurd member (none c a won)
    · exact first
  rootPtr := chain.roots.rootPtr
  nodup := by
    rw [List.nodup_iff_getElem?_ne_getElem?]
    intro i j less inside same
    obtain ⟨a, at_⟩ : ∃ a, (roots h)[j]? = some a := ⟨_, List.getElem?_eq_getElem inside⟩
    have lower := (chain.roots.installed i a (same.trans at_)).2.2
    have upper := (chain.roots.installed j a at_).2.2
    omega
  level i a at_ := by
    obtain ⟨-, present, level⟩ := chain.roots.installed i a at_
    obtain ⟨p, page⟩ := Option.isSome_iff_exists.mp present
    exact ⟨p, page, (congrArg Prod.fst (chain.pages.mem a p page).2).trans level⟩
  parent i a b at_ next := by
    obtain ⟨-, present, -⟩ := chain.roots.installed (i + 1) b next
    obtain ⟨p, page⟩ := Option.isSome_iff_exists.mp present
    exact ⟨p, page, (congrArg Prod.snd (chain.pages.mem b p page).2).trans
      (chain.roots.parent i a b at_ next)⟩
  announced n := by
    refine (chain.announced.dir n).imp id ?_
    rintro ⟨m, member, addr, level⟩
    exact ⟨m.level, by rw [addr]; exact chain.announced.root m member, level⟩
  latest m member highest := by
    obtain ⟨delivered, le⟩ := chain.announced.processed m member
    obtain ⟨-, level⟩ | ⟨m', sent, addr, level⟩ := chain.announced.dir m.node
    · omega
    · have bound := highest m' ((chain.announced.sent m').mpr sent)
      have same : m'.level = m.level := by omega
      have root := chain.announced.root m' sent
      rw [same, chain.announced.root m delivered] at root
      rw [addr]
      exact (Option.some.inj root).symm

theorem run_chain {cl : Cluster} {as : List Action} {s : State}
    (run : (machine cl).run .init as = some s) :
    ∃ head, Chain head s ((machine cl).history event .init as) := by
  have step : ∀ s h a s', (∃ head, Chain head s h) → True → (machine cl).step s a = some s' →
      ∃ head, Chain head s' (h ++ event s a) := fun _ _ _ _ ⟨_, chain⟩ _ step => chain_step chain step
  exact Machine.run_history (h := []) step ⟨_, init_chain⟩ (Machine.throughout_of_forall fun _ _ => trivial)
    run

/-- Every run keeps the chain of roots and the copies of the root pointer right, and no copy goes back
to a lower level. -/
theorem root_chain (cl : Cluster) (as bs : List Action) (s s' : State)
    (run : (machine cl).run .init as = some s) (rest : (machine cl).run s bs = some s') :
    RootChain s ((machine cl).history event .init as) ∧
      ∀ n, (s.dir n).gRootLevel ≤ (s'.dir n).gRootLevel := by
  obtain ⟨head, chain⟩ := run_chain run
  refine ⟨rootChain_of_chain chain, fun n => ?_⟩
  exact Machine.run_always (I := fun t => (s.dir n).gRootLevel ≤ (t.dir n).gRootLevel)
    (fun t a t' le step => le.trans (level_step step n)) (Int.le_refl _) rest

def oneNode : Cluster where
  nodeOf := fun _ => 0
  clusterSize := 1

def twoConstructors : List Action :=
  [.construct 0 ⟨0, 1024⟩, .construct 1 ⟨0, 2048⟩, .execute 0, .execute 0, .install 0, .install 1]

theorem root_chain_constructors : ∃ s s' : State, s.rootPtr = ⟨0, 1024⟩ ∧
    RootChain s ((machine oneNode).history event .init twoConstructors) ∧
      ∀ n, (s.dir n).gRootLevel ≤ (s'.dir n).gRootLevel := by
  refine ⟨_, _, ?_, root_chain oneNode twoConstructors [] _ _ rfl rfl⟩
  rfl

end Sherman.Root
