import CacheTiming.Proofs.Fixpoint.Projection

/-! Domains that are watched: the merges that satisfy a condition are counted, and nothing else changes. -/

namespace CacheTiming

/-- A memory, with the number of merges that were noted. -/
structure Watched (μ : Type) where
  memory : μ
  noted : Nat := 0

variable {μ σ α : Type}

/-- Runs an operation on the memory and notes nothing. -/
def Action.watched (action : Action μ α) : Action (Watched μ) α := fun w =>
  match action w.memory with
  | .ok a memory => .ok a { w with memory }
  | .error e memory => .error e { w with memory }

/-- Notes a merge if the condition holds of the memory before it. -/
def Watched.note (condition : μ → Bool) (w : Watched μ) : Watched μ :=
  { w with noted := w.noted + (condition w.memory).toNat }

/-- The domain in which joins and widenings are noted if a condition holds of the memory and the two
    states. -/
def Domain.watch (D : Domain μ σ) (condition : μ → σ → σ → Bool) : Domain (Watched μ) σ where
  init := D.init
  touch s address := (D.touch s address).watched
  elapse s time := (D.elapse s time).watched
  join s u := do
    modify (Watched.note (condition · s u))
    (D.join s u).watched
  widen s u := do
    modify (Watched.note (condition · s u))
    (D.widen s u).watched
  subseteq s u := (D.subseteq s u).watched

section Watched
variable {action : Action μ α} {w w' : Watched μ} {a : α} {e : Failure}

theorem watched_eq_ok (h : action.watched w = .ok a w') : action w.memory = .ok a w'.memory ∧ w'.noted = w.noted := by
  unfold Action.watched at h
  cases hr : action w.memory with
  | ok b m =>
    rw [hr] at h
    cases h
    exact ⟨rfl, rfl⟩
  | error f m =>
    rw [hr] at h
    cases h

theorem watched_eq_error (h : action.watched w = .error e w') :
    action w.memory = .error e w'.memory ∧ w'.noted = w.noted := by
  unfold Action.watched at h
  cases hr : action w.memory with
  | ok b m =>
    rw [hr] at h
    cases h
  | error f m =>
    rw [hr] at h
    cases h
    exact ⟨rfl, rfl⟩

theorem noted_watched_eq_ok {condition : μ → Bool}
    (h : (do modify (Watched.note condition); action.watched : Action (Watched μ) α) w = .ok a w') :
    action w.memory = .ok a w'.memory ∧ w'.noted = w.noted + (condition w.memory).toNat :=
  watched_eq_ok (w := w.note condition) h

end Watched

theorem follows_watched (action : Action μ α) : Follows Watched.memory action.watched action := by
  intro w
  unfold Action.watched
  cases action w.memory with
  | ok a m => rfl
  | error e m => rfl

/-- A watched domain does what the domain does. -/
theorem Domain.watch_projects (D : Domain μ σ) (condition : μ → σ → σ → Bool) :
    (D.watch condition).Projects Watched.memory D where
  init := rfl
  touch _ _ := follows_watched _
  elapse _ _ := follows_watched _
  join s u w := follows_watched (D.join s u) (w.note (condition · s u))
  widen s u w := follows_watched (D.widen s u) (w.note (condition · s u))
  subseteq _ _ := follows_watched _

end CacheTiming
