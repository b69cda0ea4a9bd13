import Sherman.Concurrency.Transition
import Sherman.Page.Leaf
import Sherman.Tree.Machine

/-!
# Roots

The constructor `Tree::Tree`, `get_root_ptr`, `update_new_root` with the stores that lead to it, and
the `NEW_ROOT` messages. Page locks only rule out runs, and the chain of roots does not depend on
them: any number of clients may hold a copy of a page here.
-/

namespace Sherman.Root

open Concurrency

inductive Entry where
  | value (k : Key) (v : Value)
  | child (k : Key) (v : GlobalAddress)
  | remove (k : Key)

/-- The page in the buffer after the record part of a store, the write it posts, and whether the
page has to be split first. -/
def storeRecord (a : GlobalAddress) : Page → Entry → Option (Page × Write × Bool)
  | .leaf p, .value k v => match p.store k v with
      | .ok (i, p', cnt) =>
          some (.leaf p', .entry a i (p'.records.getD i default), cnt = kLeafCardinality)
      | .error _ => none
  | .leaf p, .remove k => match p.del k with
      | some (i, p') => some (.leaf p', .entry a i (p'.records.getD i default), false)
      | none => none
  | .internal p, .child k v => match p.store k v with
      | .ok p' => some (.internal p', .page a (.internal p'.setConsistent), p'.cnt = kInternalCardinality)
      | .error _ => none
  | _, _ => none

def splitPage (sibling : GlobalAddress) : Page → Option (Page × Page × Key)
  | .leaf p => match p.split sibling with
      | .ok (p', q, k) => some (.leaf p'.setConsistent, .leaf q.setConsistent, k)
      | .error _ => none
  | .internal p => match p.split sibling with
      | .ok (p', q, k) => some (.internal p'.setConsistent, .internal q.setConsistent, k)
      | .error _ => none

inductive Pc where
  | idle
  /-- In the constructor, with the first page written. -/
  | constructing (a : GlobalAddress)
  | rooted (root : GlobalAddress)
  | loaded (root a : GlobalAddress) (p : Page)
  | full (root a : GlobalAddress) (p : Page)
  | cut (root a : GlobalAddress) (p : Page) (k : Key) (sibling : GlobalAddress)
  | rootSplit (root : GlobalAddress) (level : Nat) (k : Key) (sibling : GlobalAddress)
  | growing (old new : GlobalAddress) (level : Nat)
  | broadcasting (new : GlobalAddress) (level : Nat) (i : NodeID)

structure Message where
  node : NodeID
  addr : GlobalAddress
  level : Nat
  deriving DecidableEq

structure State where
  mem : GlobalAddress → Option Page
  rootPtr : GlobalAddress
  pending : List Posted
  allocated : List GlobalAddress
  sent : List Message
  dir : NodeID → Directory
  pc : Client → Pc

structure Cluster where
  nodeOf : Client → NodeID
  clusterSize : Nat

def State.init : State where
  mem := fun _ => none
  rootPtr := .null
  pending := []
  allocated := []
  sent := []
  dir := fun _ => { gRootPtr := .null, gRootLevel := -1, enableCache := false }
  pc := fun _ => .idle

namespace State

def setPc (s : State) (c : Client) (pc : Pc) : State := { s with pc := Function.update s.pc c pc }

def post (s : State) (c : Client) (w : Write) : State := { s with pending := s.pending ++ [⟨c, w⟩] }

def setRoot (s : State) (a : GlobalAddress) : State := { s with rootPtr := a }

def send (s : State) (m : Message) : State := { s with sent := m :: s.sent }

def alloc (s : State) (a : GlobalAddress) : State := { s with allocated := a :: s.allocated }

def Fresh (s : State) (a : GlobalAddress) : Prop := a ≠ .null ∧ a ∉ s.allocated

instance (s : State) (a : GlobalAddress) : Decidable (s.Fresh a) :=
  inferInstanceAs (Decidable (a ≠ .null ∧ a ∉ s.allocated))

def drained (s : State) (c : Client) (n : NodeID) : Prop :=
  ∀ x ∈ s.pending, x.client = c → x.write.node ≠ n

instance (s : State) (c : Client) (n : NodeID) : Decidable (s.drained c n) :=
  inferInstanceAs (Decidable (∀ x ∈ s.pending, x.client = c → x.write.node ≠ n))

end State

inductive Action where
  | construct (c : Client) (a : GlobalAddress)
  | install (c : Client)
  | getRootPtr (c : Client)
  | readPage (c : Client) (a : GlobalAddress)
  | store (c : Client) (e : Entry)
  | split (c : Client) (sibling : GlobalAddress)
  | writePage (c : Client)
  | newRoot (c : Client) (a : GlobalAddress)
  | casRoot (c : Client)
  | send (c : Client)
  | return (c : Client)
  | execute (i : Nat)
  | deliver (m : Message)

def step (cl : Cluster) (s : State) : Action → Option State
  | .construct c a => match s.pc c with
      | .idle =>
          if s.Fresh a then
            some (((s.alloc a).post c (.page a (.leaf (LeafPage.new 0).setConsistent))).setPc c
              (.constructing a))
          else none
      | _ => none
  | .install c => match s.pc c with
      | .constructing a =>
          if s.drained c a.nodeID then
            some ((s.setRoot (if s.rootPtr = .null then a else s.rootPtr)).setPc c .idle)
          else none
      | _ => none
  | .getRootPtr c => match s.pc c with
      | .idle =>
          let g := (s.dir (cl.nodeOf c)).gRootPtr
          some (s.setPc c (.rooted (if g = .null then s.rootPtr else g)))
      | _ => none
  | .readPage c a => match s.pc c with
      | .rooted root => match s.mem a with
          | some p => if s.drained c a.nodeID then some (s.setPc c (.loaded root a p)) else none
          | none => none
      | _ => none
  | .store c e => match s.pc c with
      | .loaded root a p => match storeRecord a p e with
          | some (p', w, needSplit) =>
              if needSplit then some (s.setPc c (.full root a p'))
              else some ((s.post c w).setPc c (.rooted root))
          | none => none
      | _ => none
  | .split c sibling => match s.pc c with
      | .full root a p =>
          if s.Fresh sibling then match splitPage sibling p with
            | some (p', q, k) =>
                some (((s.alloc sibling).post c (.page sibling q)).setPc c (.cut root a p' k sibling))
            | none => none
          else none
      | _ => none
  | .writePage c => match s.pc c with
      | .cut root a p k sibling =>
          if s.drained c sibling.nodeID then
            some ((s.post c (.page a p)).setPc c
              (if root = a then .rootSplit root p.hdr.level k sibling else .rooted root))
          else none
      | _ => none
  | .newRoot c a => match s.pc c with
      | .rootSplit root level k sibling =>
          if s.Fresh a then
            some (((s.alloc a).post c
              (.page a (.internal (InternalPage.newRoot root k sibling (level + 1)).setConsistent))).setPc
              c (.growing root a (level + 1)))
          else none
      | _ => none
  | .casRoot c => match s.pc c with
      | .growing old new level =>
          if s.drained c new.nodeID then
            if s.rootPtr = old then
              some ((s.setRoot new).setPc c (.broadcasting new level 0))
            else some (s.setPc c (.rooted old))
          else none
      | _ => none
  | .send c => match s.pc c with
      | .broadcasting new level i =>
          if i < cl.clusterSize then
            some ((s.send ⟨i, new, level⟩).setPc c (.broadcasting new level (i + 1)))
          else none
      | _ => none
  | .return c => match s.pc c with
      | .rooted _ => some (s.setPc c .idle)
      | .broadcasting _ _ i => if i = cl.clusterSize then some (s.setPc c .idle) else none
      | _ => none
  | .execute i => match s.pending[i]? with
      | some x =>
          if ∀ y ∈ s.pending.take i, y.client = x.client → y.write.node ≠ x.write.node then
            some { s with
              pending := s.pending.eraseIdx i
              mem := match x.write.target with
                | some a => Function.update s.mem a (x.write.apply (s.mem a))
                | none => s.mem }
          else none
      | none => none
  | .deliver m =>
      if m ∈ s.sent then
        some { s with
          dir := Function.update s.dir m.node ((s.dir m.node).processNewRoot m.addr m.level) }
      else none

def machine (cl : Cluster) : Machine State Action where
  step := step cl

inductive Event where
  | constructed (c : Client) (a : GlobalAddress) (won : Bool)
  | grown (c : Client) (old new : GlobalAddress)
  | sent (m : Message)
  | processed (m : Message)
  deriving DecidableEq

def event (s : State) : Action → List Event
  | .install c => match s.pc c with
      | .constructing a => [.constructed c a (s.rootPtr = .null)]
      | _ => []
  | .casRoot c => match s.pc c with
      | .growing old new _ => if s.rootPtr = old then [.grown c old new] else []
      | _ => []
  | .send c => match s.pc c with
      | .broadcasting new level i => [.sent ⟨i, new, level⟩]
      | _ => []
  | .deliver m => [.processed m]
  | _ => []

def roots (h : List Event) : List GlobalAddress :=
  h.filterMap fun e => match e with
    | .constructed _ a won => if won then some a else none
    | .grown _ _ new => some new
    | _ => none

end Sherman.Root
