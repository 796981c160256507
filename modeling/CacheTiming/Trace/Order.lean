import CacheTiming.Trace.Store

/-! The order of traces.

A node is below another if it observed no more and its predecessors, compared in the order in which
they were merged, are below the other's. The answers for pairs of nodes are remembered, so that a pair
that is met again by another way is not compared again. -/

namespace CacheTiming

/-- Two nodes to be compared. -/
structure NodePair where
  first : NodeId
  second : NodeId
deriving DecidableEq, Repr

namespace NodePair

instance : Ord NodePair where
  compare := compareLex (compareOn NodePair.first) (compareOn NodePair.second)

instance : Std.TransOrd NodePair :=
  inferInstanceAs (Std.TransCmp (compareLex (compareOn NodePair.first) (compareOn NodePair.second)))

instance : Std.LawfulEqOrd NodePair where
  eq_of_compare {a b} h := by
    obtain ⟨h₁, h₂⟩ := compareLex_eq_eq.mp h
    cases a
    cases b
    simp_all [compareOn]

end NodePair

namespace Store

/-- The pairs that were compared already, with the answers. -/
abbrev Memo := Std.ExtTreeMap NodePair Bool

/-- Whether `a` is below `b`, and what is remembered then. Predecessors are older than their node, so
    the comparison only goes down. -/
def subseteqMemo (s : Store) (a b : NodeId) (memo : Memo) : Bool × Memo :=
  if a = b then
    (true, memo)
  else
    match memo[NodePair.mk a b]? with
    | some answer => (answer, memo)
    | none =>
      let x := s.node a
      let y := s.node b
      let (answer, memo) :=
        if x.status.subseteq y.status then
          match x.ancestry, y.ancestry with
          | .root, .root => (true, memo)
          | .single p, .single q => if p < a then s.subseteqMemo p q memo else (false, memo)
          | .couple p p', .couple q q' =>
            if _older : p < a ∧ p' < a then
              match s.subseteqMemo p q memo with
              | (true, memo) => s.subseteqMemo p' q' memo
              | (false, memo) => (false, memo)
            else
              (false, memo)
          | _, _ => (false, memo)
        else
          (false, memo)
      (answer, memo.insert ⟨a, b⟩ answer)
termination_by a
decreasing_by
  · assumption
  · exact _older.1
  · exact _older.2

/-- Whether the traces of `a` are among those of `b`. -/
def subseteq (s : Store) (a b : NodeId) : Bool := (s.subseteqMemo a b ∅).1

end Store

end CacheTiming
