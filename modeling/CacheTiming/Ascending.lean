/-! Ascending lists as finite sets.

A finite set of numbers is kept as the strictly ascending list of its members. Insertion finds its
place by bisection; comparing two lists and taking their members in order go through both once. -/

namespace CacheTiming.Ascending

variable {α : Type} [LT α] [DecidableLT α] [LE α] [DecidableLE α] [DecidableEq α]

/-- The first of the `width` places from `low` on whose member is at least `x`, or the place behind
    them; the places are halved until none is left. -/
def place (xs : List α) (x : α) (low width : Nat) : Nat :=
  if width = 0 then
    low
  else
    let half := width / 2
    if (xs[low + half]?).all (x ≤ ·) then
      place xs x low half
    else
      place xs x (low + half + 1) (width - half - 1)
termination_by width

/-- Adds a member. -/
def insert (xs : List α) (x : α) : List α :=
  let i := place xs x 0 xs.length
  if xs[i]? = some x then xs else xs.take i ++ x :: xs.drop i

/-- Whether two lists agree at every place of both. -/
def agree : List α → List α → Bool
  | x :: xs, y :: ys => if x = y then agree xs ys else false
  | _, _ => true

/-- Whether two lists are as long and agree at every place. -/
def same (xs ys : List α) : Bool := xs.length = ys.length && agree xs ys

/-- Whether all members of the first list are members of the second. -/
def subset : List α → List α → Bool
  | [], _ => true
  | _ :: _, [] => false
  | x :: xs, y :: ys =>
    if y < x then subset (x :: xs) ys
    else if y = x then subset xs (y :: ys)
    else false
termination_by xs ys => xs.length + ys.length

/-- Whether the first list is included in the second and has fewer members. -/
def strictSubset (xs ys : List α) : Bool := xs.length < ys.length && subset xs ys

/-- The least member of two lists, and what is left of them without it. -/
def least? : List α → List α → Option (α × List α × List α)
  | [], [] => none
  | x :: xs, [] => some (x, xs, [])
  | [], y :: ys => some (y, [], ys)
  | x :: xs, y :: ys =>
    if x < y then some (x, xs, y :: ys)
    else if y < x then some (y, x :: xs, ys)
    else some (x, xs, ys)

omit [LE α] [DecidableLE α] [DecidableEq α] in
theorem length_lt_of_least? {xs ys xs' ys' : List α} {z : α} (h : least? xs ys = some (z, xs', ys')) :
    xs'.length + ys'.length < xs.length + ys.length := by
  revert h
  fun_cases least? xs ys <;> rintro ⟨⟩ <;> simp only [List.length_cons, List.length_nil] <;> omega

end CacheTiming.Ascending
