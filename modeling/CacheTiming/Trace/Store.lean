import CacheTiming.Ascending
import CacheTiming.Text.Glyph
import CacheTiming.Trace.Count
import CacheTiming.Trace.Error
import Std.Data.ExtTreeMap

/-! The store of trie nodes.

Traces are kept in a trie whose branches can meet again. A node holds what was observed last and its
ancestry: nothing for the root, the parent for an observation, the two sides for a merge. The nearest
real ancestors, looking through placeholders, are the node's merge key. For every status and merge key
the store holds at most one node, so equal histories are the same node. -/

namespace CacheTiming

open Text

/-- The predecessors of a node, which are older than the node itself. -/
inductive Ancestry where
  | root
  | single (parent : NodeId)
  | couple (first second : NodeId)
deriving DecidableEq, Repr

namespace Ancestry

/-- The number of a kind of ancestry. -/
def kind : Ancestry → UInt8
  | .root => 0
  | .single _ => 1
  | .couple .. => 2

/-- An ancestry that a node is asked for, which has the predecessors of its kind, or a kind that does not exist. -/
inductive Asked where
  | known (ancestry : Ancestry)
  | unknown (kind : UInt8) (above : 2 < kind)
deriving DecidableEq, Repr

/-- The ancestry that was asked for, if its kind exists. -/
def Asked.resolve : Asked → Except TraceError Ancestry
  | .known ancestry => .ok ancestry
  | .unknown kind _ => .error (.unknownAncestry kind)

end Ancestry

/-- A trie node. -/
structure Node where
  id : NodeId
  status : Status
  ancestry : Ancestry
  /-- The nearest real ancestors, in ascending order. -/
  ancestors : List NodeId
  /-- A bound on the number of traces that end here. -/
  count : Count
deriving DecidableEq, Repr

namespace Node

/-- The node that every trace starts from. -/
def root : Node := { id := 0, status := .noAccess, ancestry := .root, ancestors := [], count := .one }

/-- Whether a node stands for a merge. -/
def isPlaceholder (n : Node) : Bool := n.status = .none

/-- The only predecessor of a node that was made by an observation. -/
def parent (n : Node) : Except TraceError NodeId :=
  match n.ancestry with
  | .single p => .ok p
  | a => .error (.noSingleParent a.kind)

end Node

/-- What identifies a node: its status, and its merge key packed into bytes. -/
structure NodeKey where
  status : UInt8
  packed : Bytes
deriving DecidableEq, Repr

namespace NodeKey

/-- The four bytes of a node's id, the least significant first. -/
def packId (n : NodeId) : Bytes :=
  [n.toUInt8, (n >>> 8).toUInt8, (n >>> 16).toUInt8, (n >>> 24).toUInt8]

/-- The key of a status and a list of ancestors. -/
def make (status : Status) (ancestors : List NodeId) : NodeKey :=
  { status := status.toByte, packed := ancestors.flatMap packId }

instance : Ord NodeKey where
  compare := compareLex (compareOn NodeKey.status) (compareOn NodeKey.packed)

instance : Std.TransOrd NodeKey :=
  inferInstanceAs (Std.TransCmp (compareLex (compareOn NodeKey.status) (compareOn NodeKey.packed)))

instance : Std.LawfulEqOrd NodeKey where
  eq_of_compare {a b} h := by
    obtain ⟨h₁, h₂⟩ := compareLex_eq_eq.mp h
    cases a
    cases b
    simp_all [compareOn]

end NodeKey

/-- How often a store was asked for nodes. -/
structure Usage where
  created : Nat := 0
  reused : Nat := 0
  placeholders : Nat := 0
deriving DecidableEq, Repr

/-- A store of nodes; node `i` stands at position `i`. -/
structure Store where
  nodes : Array Node
  index : Std.ExtTreeMap NodeKey NodeId
  usage : Usage

namespace Store

/-- The store that holds the root only. -/
def initial : Store where
  nodes := #[.root]
  index := Std.ExtTreeMap.empty.insert (.make Node.root.status Node.root.ancestors) Node.root.id
  usage := {}

/-- The number of nodes, the root included. -/
def size (s : Store) : Nat := s.nodes.size

/-- The node with a given id; an id that was not handed out stands for the root. -/
def node (s : Store) (n : NodeId) : Node := s.nodes.getD n .root

/-- The number of traces that end in a node. -/
def count (s : Store) (n : NodeId) : Count := (s.node n).count

/-- The merge key of a node with the given ancestry. Of the two sides of a merge one may be a
    placeholder, which is looked through. -/
def ancestorsOf (s : Store) : Ancestry → Except TraceError (List NodeId)
  | .root => .ok []
  | .single p => .ok [p]
  | .couple a b =>
    let x := s.node a
    let y := s.node b
    if x.isPlaceholder && y.isPlaceholder then .error (.placeholderMerge x.id y.id)
    else if x.isPlaceholder then .ok (Ascending.insert x.ancestors y.id)
    else if y.isPlaceholder then .ok (Ascending.insert y.ancestors x.id)
    else .ok (Ascending.insert [x.id] y.id)

/-- The number of traces of a node with the given status and ancestry. -/
def countOf (s : Store) (status : Status) (ancestry : Ancestry) : Count :=
  let before :=
    match ancestry with
    | .root => .one
    | .single p => s.count p
    | .couple a b => .sum (s.count a) (s.count b)
  if status = .hitOrMiss then before.double else before

/-- Adds a node that the store does not hold yet. -/
def push (s : Store) (status : Status) (ancestry : Ancestry) (ancestors : List NodeId) : Store where
  nodes := s.nodes.push { id := s.size, status, ancestry, ancestors, count := s.countOf status ancestry }
  index := s.index.insert (.make status ancestors) s.size
  usage :=
    { s.usage with
      created := s.usage.created + 1
      placeholders := s.usage.placeholders + if status = .none then 1 else 0 }

/-- The node that observed a status after the given predecessors; it is made only if no node with this
    status and merge key exists. -/
def findOrCreate (s : Store) (status : Status) (ancestry : Ancestry) : Except TraceError (NodeId × Store) :=
  match s.ancestorsOf ancestry with
  | .error e => .error e
  | .ok ancestors =>
    match s.index[NodeKey.make status ancestors]? with
    | some n => .ok (n, { s with usage := { s.usage with reused := s.usage.reused + 1 } })
    | none => .ok (s.size, s.push status ancestry ancestors)

end Store

end CacheTiming
