import CacheTiming.Fixpoint.Search

/-! Searches that can be evaluated inside a proof.

The least member of a set of locations is found by a well-founded recursion, on which evaluation gets
stuck. Here it is read off the list of all members; the search is the same. -/

namespace CacheTiming

/-- The final state of an analysis that has one. -/
def Verdict.final? {σ : Type} : Verdict σ → Option σ
  | .converged final => some final
  | .gaveUp _ | .aborted _ => none

theorem Verdict.final?_eq_some {σ : Type} {v : Verdict σ} {final : σ} :
    v.final? = some final ↔ v = .converged final := by
  cases v <;> simp [final?]

namespace Fixpoint

variable {μ σ : Type} (D : Domain μ σ) (limits : Limits) (p : Program)

/-- Takes the first of the listed locations that are to be interpreted, with its state. -/
def popListed : SearchM μ σ (Option (Location × σ)) := do
  let s ← get
  match s.pending.toList.head? with
  | none => return none
  | some loc =>
    match s.visits[loc]? with
    | none => return none
    | some v =>
      set { s with pending := s.pending.erase loc, visits := s.visits.insert loc { v with done := true } }
      return some (loc, v.state)

theorem pop_eq_popListed : (pop : SearchM μ σ _) = popListed := by
  unfold pop popListed
  refine bind_congr fun s => ?_
  have hmin : s.pending.min? = s.pending.toList.head? := Std.ExtTreeSet.min?_eq_head?_toList
  cases hhead : s.pending.toList.head? with
  | none => simp only [hmin, hhead]
  | some loc => cases hvisit : s.visits[loc]? <;> simp only [hmin, hhead, hvisit]

/-- Interprets locations, taken from their list, until none is left, but no more than `fuel`. -/
def loopListed : (fuel : Nat) → SearchM μ σ σ
  | 0 => throw .exhausted
  | fuel + 1 => do
    match ← popListed with
    | none => finish
    | some (loc, st) =>
      interpret D limits p loc st
      loopListed fuel

theorem loop_eq_loopListed (fuel : Nat) : loop D limits p fuel = loopListed D limits p fuel := by
  induction fuel with
  | zero => rfl
  | succ fuel ih =>
    rw [loop, loopListed, pop_eq_popListed]
    refine bind_congr fun next => ?_
    cases next with
    | none => rfl
    | some next => simp only [ih]

end Fixpoint

end CacheTiming
