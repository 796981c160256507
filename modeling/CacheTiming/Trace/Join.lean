import CacheTiming.Trace.Store

/-! Extending and joining traces.

Two nodes with the same history that observed a hit and a miss are joined by a node that observed
both. Where the history of one is part of the other's, the larger one stands for both. In all other
cases a placeholder records the merge. -/

namespace CacheTiming.Store

/-- Records an observation after a node. -/
def extend (s : Store) (n : NodeId) (status : Status) : Except TraceError (NodeId × Store) :=
  if status = .none then .error (.statusNeeded n) else s.findOrCreate status (.single n)

/-- Records a merge that no single status describes. -/
def extendPlaceholder (s : Store) (ancestry : Ancestry) : Except TraceError (NodeId × Store) :=
  s.findOrCreate .none ancestry

/-- The node with the predecessors of two others that observed both a hit and a miss. -/
def promote (s : Store) (a b : NodeId) : Except TraceError (NodeId × Store) :=
  let x := s.node a
  let y := s.node b
  if x.ancestry ≠ y.ancestry then .error (.differentAncestry a b)
  else if x.isPlaceholder || y.isPlaceholder then .error (.placeholderPromotion a b)
  else s.findOrCreate .hitOrMiss x.ancestry

/-- The node `sup`, whose merge key includes that of `sub`; only a placeholder can stand for the history
    of another node. -/
def subsume (s : Store) (sup sub : Node) : Except TraceError (NodeId × Store) :=
  if sup.isPlaceholder then .ok (sup.id, s) else .error (.realSubsumption sup.id sub.id)

/-- Joins two nodes. -/
def join (s : Store) (a b : NodeId) : Except TraceError (NodeId × Store) :=
  if a = b then
    .ok (a, s)
  else
    let x := s.node a
    let y := s.node b
    if Ascending.same x.ancestors y.ancestors then
      if x.status = y.status then .error (.sharedKey a b)
      else if x.status = .noAccess ∨ y.status = .noAccess then .error (.accessMismatch a b)
      else s.promote a b
    else if Ascending.strictSubset x.ancestors y.ancestors then s.subsume y x
    else if Ascending.strictSubset y.ancestors x.ancestors then s.subsume x y
    else s.extendPlaceholder (.couple a b)

/-- Widens two nodes, which is to join them: the trie has no widening of its own. -/
def widen (s : Store) (a b : NodeId) : Except TraceError (NodeId × Store) := s.join a b

end CacheTiming.Store
