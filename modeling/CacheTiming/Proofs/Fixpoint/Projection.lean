import CacheTiming.Fixpoint.Search
import CacheTiming.Proofs.Domain.Action

/-! Searches with more memory than they need.

If the operations of one domain do what those of another do, but on a memory of which the other sees
only a part, the two analyses have the same verdict, and the smaller memory is the visible part of the
larger one. -/

namespace CacheTiming

section Follows
variable {ε ν μ α β : Type}

/-- The visible part of a result's memory. -/
def onState (e : ν → μ) : EStateM.Result ε ν α → EStateM.Result ε μ α
  | .ok a w => .ok a (e w)
  | .error err w => .error err (e w)

/-- The first computation does on the visible part of its memory what the second does. -/
def Follows (e : ν → μ) (x : EStateM ε ν α) (y : EStateM ε μ α) : Prop := ∀ w, y (e w) = onState e (x w)

variable {e : ν → μ} {x : EStateM ε ν α} {y : EStateM ε μ α}

namespace Follows

theorem pure (a : α) : Follows e (Pure.pure a : EStateM ε ν α) (Pure.pure a) := fun _ => rfl

theorem throw (err : ε) : Follows e (MonadExcept.throw err : EStateM ε ν α) (MonadExcept.throw err) := fun _ => rfl

theorem bind (hx : Follows e x y) {f : α → EStateM ε ν β} {g : α → EStateM ε μ β} (hf : ∀ a, Follows e (f a) (g a)) :
    Follows e (x >>= f) (y >>= g) := by
  intro w
  have hw := hx w
  show EStateM.bind y g (e w) = onState e (EStateM.bind x f w)
  cases h : x w with
  | ok a w' =>
    rw [h] at hw
    simp only [EStateM.bind, h, hw, onState]
    exact hf a w'
  | error err w' =>
    rw [h] at hw
    simp only [EStateM.bind, h, hw, onState]

theorem get_bind {f : ν → EStateM ε ν β} {g : μ → EStateM ε μ β} (hf : ∀ w, Follows e (f w) (g (e w))) :
    Follows e (get >>= f) (get >>= g) := fun w => hf w w

theorem modify {f : ν → ν} {g : μ → μ} (h : ∀ w, g (e w) = e (f w)) :
    Follows e (modify f : EStateM ε ν PUnit) (modify g) :=
  fun w => congrArg (EStateM.Result.ok PUnit.unit) (h w)

theorem set {w : ν} {m : μ} (h : m = e w) : Follows e (MonadStateOf.set w : EStateM ε ν PUnit) (MonadStateOf.set m) :=
  fun _ => congrArg (EStateM.Result.ok PUnit.unit) h

end Follows

end Follows

/-- The operations of the first domain follow those of the second on the visible part of their memory. -/
structure Domain.Projects {ν μ σ : Type} (D' : Domain ν σ) (e : ν → μ) (D : Domain μ σ) : Prop where
  init : D'.init = D.init
  touch : ∀ s address, Follows e (D'.touch s address) (D.touch s address)
  elapse : ∀ s time, Follows e (D'.elapse s time) (D.elapse s time)
  join : ∀ s u, Follows e (D'.join s u) (D.join s u)
  widen : ∀ s u, Follows e (D'.widen s u) (D.widen s u)
  subseteq : ∀ s u, Follows e (D'.subseteq s u) (D.subseteq s u)

namespace Fixpoint

variable {ν μ σ α : Type} {e : ν → μ}

/-- A search with the visible part of its memory. -/
def Search.onMemory (e : ν → μ) (s : Search ν σ) : Search μ σ where
  memory := e s.memory
  visits := s.visits
  pending := s.pending
  loops := s.loops
  final := s.final
  log := s.log

theorem follows_log (event : Event) :
    Follows (Search.onMemory e) (log event : SearchM ν σ Unit) (log event) := .modify fun _ => rfl

theorem follows_enqueue (loc : Location) (v : Visit σ) :
    Follows (Search.onMemory e) (enqueue loc v : SearchM ν σ Unit) (enqueue loc v) := .modify fun _ => rfl

variable {action' : Action ν α} {action : Action μ α}

theorem follows_attempt (h : Follows e action' action) :
    Follows (Search.onMemory e) (attempt action' : SearchM ν σ _) (attempt action) := by
  intro s
  have hs : action (Search.onMemory e s).memory = onState e (action' s.memory) := h s.memory
  cases hr : action' s.memory with
  | ok a m =>
    rw [hr] at hs
    simp only [attempt, hr, hs, onState]
    rfl
  | error err m =>
    rw [hr] at hs
    simp only [attempt, hr, hs, onState]
    rfl

theorem follows_demand (h : Follows e action' action) :
    Follows (Search.onMemory e) (demand action' : SearchM ν σ α) (demand action) := by
  refine .bind (follows_attempt h) fun r => ?_
  cases r with
  | ok a => exact .pure a
  | error err => exact .throw _

theorem follows_merge (loc : Location) {action' : Action ν σ} {action : Action μ σ} (h : Follows e action' action) :
    Follows (Search.onMemory e) (merge loc action') (merge loc action) := by
  refine .bind (follows_attempt h) fun r => ?_
  cases r with
  | ok a => exact .pure a
  | error err =>
    refine .get_bind fun s => ?_
    dsimp only [Search.onMemory]
    split
    · exact .bind (follows_log _) fun _ => .throw _
    · exact .throw _

section Domain
variable {D' : Domain ν σ} {D : Domain μ σ} (h : D'.Projects e D) (limits : Limits)
include h

theorem follows_propagate (source : Location) (pc : UInt64) (st : σ) :
    Follows (Search.onMemory e) (propagate D' limits source pc st) (propagate D limits source pc st) := by
  refine .bind ?_ fun _ => .get_bind fun s => ?_
  · exact .modify fun _ => rfl
  dsimp only [Search.onMemory]
  split
  · exact follows_enqueue _ _
  · rename_i v _
    refine .get_bind fun s => ?_
    dsimp only [Search.onMemory]
    split
    · exact .bind (follows_merge _ (h.join v.state st)) fun _ => follows_enqueue _ _
    · refine .bind (follows_demand (h.subseteq st v.state)) fun covered => ?_
      split
      · exact .pure _
      split
      · split
        · exact .bind (follows_log _) fun _ => .throw _
        · exact .bind (follows_merge _ (h.widen v.state st)) fun _ => follows_enqueue _ _
      · exact follows_enqueue _ _

theorem follows_conclude (loc : Location) (st : σ) :
    Follows (Search.onMemory e) (conclude D' loc st) (conclude D loc st) := by
  refine .get_bind fun s => ?_
  dsimp only [Search.onMemory]
  split
  · exact .modify fun _ => rfl
  · rename_i f _
    exact .bind (follows_merge _ (h.join f st)) fun _ => .modify fun _ => rfl

theorem follows_interpret (p : Program) (loc : Location) (st : σ) :
    Follows (Search.onMemory e) (interpret D' limits p loc st) (interpret D limits p loc st) := by
  refine .bind (follows_log _) fun _ => ?_
  cases (p.fetch loc.pc).op with
  | undefined code above => exact .throw _
  | halt => exact follows_conclude h loc st
  | touch =>
    refine .bind (follows_attempt (h.touch st _)) fun r => ?_
    cases r with
    | ok st => exact follows_propagate h limits _ _ _
    | error err =>
      cases err with
      | bottom => exact .pure _
      | trace e => exact .throw _
      | fault f => exact .throw _
  | elapse => exact .bind (follows_demand (h.elapse st _)) fun _ => follows_propagate h limits _ _ _
  | branch => exact .bind (follows_propagate h limits _ _ _) fun _ => follows_propagate h limits _ _ _
  | jump => exact follows_propagate h limits _ _ _

omit h in
theorem follows_pop : Follows (Search.onMemory e) (pop : SearchM ν σ _) pop := by
  refine .get_bind fun s => ?_
  dsimp only [Search.onMemory]
  split
  · exact .pure _
  split
  · exact .pure _
  · exact .bind (.set rfl) fun _ => .pure _

omit h in
theorem follows_finish : Follows (Search.onMemory e) (finish : SearchM ν σ σ) finish := by
  refine .get_bind fun s => ?_
  dsimp only [Search.onMemory]
  split
  · exact .throw _
  · exact .get_bind fun s => .bind (follows_log _) fun _ => .pure _

theorem follows_loop (p : Program) (fuel : Nat) :
    Follows (Search.onMemory e) (loop D' limits p fuel) (loop D limits p fuel) := by
  induction fuel with
  | zero => exact .throw _
  | succ fuel ih =>
    refine .bind follows_pop fun r => ?_
    cases r with
    | none => exact follows_finish
    | some r => exact .bind (follows_interpret h limits p r.1 r.2) fun _ => ih

end Domain

end Fixpoint

/-- The analysis with the smaller memory is the other one as far as it is visible. -/
theorem Domain.Projects.analyze {ν μ σ : Type} {e : ν → μ} {D' : Domain ν σ} {D : Domain μ σ} (h : D'.Projects e D)
    (limits : Limits) (p : Program) (w : ν) :
    (CacheTiming.analyze D limits p (e w)).verdict = (CacheTiming.analyze D' limits p w).verdict ∧
      (CacheTiming.analyze D limits p (e w)).memory = e (CacheTiming.analyze D' limits p w).memory := by
  have hstart : Fixpoint.Search.start D (e w) = (Fixpoint.Search.start D' w).onMemory e := by
    simp only [Fixpoint.Search.start, Fixpoint.Search.onMemory, h.init]
  have hloop := Fixpoint.follows_loop h limits p (Fixpoint.bound p limits) (.start D' w)
  unfold CacheTiming.analyze
  rw [hstart, hloop]
  cases Fixpoint.loop D' limits p (Fixpoint.bound p limits) (.start D' w) with
  | ok final s => exact ⟨rfl, rfl⟩
  | error stop s => cases stop <;> exact ⟨rfl, rfl⟩

end CacheTiming
