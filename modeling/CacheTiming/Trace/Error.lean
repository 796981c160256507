import CacheTiming.Trace.Status

/-! What can go wrong in the trace lattice. -/

namespace CacheTiming

/-- The handle of a trie node: its position in the order of allocation. -/
abbrev NodeId := Nat

/-- Why traces cannot be extended or merged. Only a merge of two placeholders is something that a
    program can provoke; all others are violated invariants of the lattice. -/
inductive TraceError where
  | placeholderMerge (a b : NodeId)
  | unknownAncestry (kind : UInt8)
  | noSingleParent (kind : UInt8)
  | statusNeeded (n : NodeId)
  | differentAncestry (a b : NodeId)
  | placeholderPromotion (a b : NodeId)
  | sharedKey (a b : NodeId)
  | accessMismatch (a b : NodeId)
  | realSubsumption (sup sub : NodeId)
  | noDuration (status : Status)
deriving DecidableEq, Repr

namespace TraceError

/-- Whether two placeholders were to be merged. -/
def isPlaceholderMerge : TraceError → Bool
  | .placeholderMerge .. => true
  | _ => false

/-- What is wrong, without the kind of the error. -/
def detail : TraceError → String
  | .placeholderMerge a b => "nodes " ++ a.repr ++ " and " ++ b.repr
  | .unknownAncestry kind => "unknown ancestry kind " ++ kind.toNat.repr
  | .noSingleParent kind => "expected a single parent, got ancestry kind " ++ kind.toNat.repr
  | .statusNeeded n => "extend of node " ++ n.repr ++ " needs a status"
  | .differentAncestry a b => "cannot promote nodes " ++ a.repr ++ " and " ++ b.repr ++ " with different ancestry"
  | .placeholderPromotion a b => "cannot promote placeholder among " ++ a.repr ++ " and " ++ b.repr
  | .sharedKey a b => "distinct nodes " ++ a.repr ++ " and " ++ b.repr ++ " share status and ancestors"
  | .accessMismatch a b => "cannot join access and non-access nodes " ++ a.repr ++ " and " ++ b.repr
  | .realSubsumption sup sub => "real node " ++ sup.repr ++ " cannot subsume node " ++ sub.repr
  | .noDuration status => "no duration for status " ++ status.name

/-- The wording of a trace error. -/
def message (e : TraceError) : String :=
  e.detail ++ if e.isPlaceholderMerge then ": cannot merge two placeholders" else ": trace lattice invariant violated"

end TraceError

end CacheTiming
