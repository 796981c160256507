import CacheTiming.Domain.Basic

/-! How computations with a memory succeed and fail, part by part. -/

namespace CacheTiming

section Bind
variable {ε σ α β : Type} {x : EStateM ε σ α} {f : α → EStateM ε σ β} {s s' : σ} {b : β} {e : ε}

theorem bind_eq_ok : (x >>= f) s = .ok b s' ↔ ∃ a t, x s = .ok a t ∧ f a t = .ok b s' := by
  show EStateM.bind x f s = _ ↔ _
  cases h : x s with
  | ok a t =>
    simp only [EStateM.bind, h]
    exact ⟨fun h' => ⟨a, t, rfl, h'⟩, fun ⟨a', t', h₁, h₂⟩ => by cases h₁; exact h₂⟩
  | error e t =>
    simp only [EStateM.bind, h]
    exact ⟨nofun, fun ⟨_, _, h₁, _⟩ => by cases h₁⟩

theorem bind_eq_error :
    (x >>= f) s = .error e s' ↔ x s = .error e s' ∨ ∃ a t, x s = .ok a t ∧ f a t = .error e s' := by
  show EStateM.bind x f s = _ ↔ _
  cases h : x s with
  | ok a t =>
    simp only [EStateM.bind, h]
    constructor
    · exact fun h' => Or.inr ⟨a, t, rfl, h'⟩
    · rintro (h₁ | ⟨_, _, h₁, h₂⟩) <;> cases h₁
      exact h₂
  | error e t =>
    simp only [EStateM.bind, h]
    constructor
    · intro h'
      cases h'
      exact Or.inl rfl
    · rintro (h₁ | ⟨_, _, h₁, _⟩) <;> cases h₁
      rfl

/-- Two computations do the same if their first parts do, and the others after these. -/
theorem bind_congr_of_ok {y : EStateM ε σ α} {g : α → EStateM ε σ β} (hx : x s = y s)
    (hf : ∀ a t, y s = .ok a t → f a t = g a t) : (x >>= f) s = (y >>= g) s := by
  show EStateM.bind x f s = EStateM.bind y g s
  cases h : y s with
  | ok a t =>
    simp only [EStateM.bind, hx, h]
    exact hf a t h
  | error e t => simp only [EStateM.bind, hx, h]

end Bind

namespace Action

variable {μ α : Type} {x : Except Fault α} {m m' : μ} {a : α} {e : Failure}

theorem ofFault_eq_ok : (ofFault x : Action μ α) m = .ok a m' ↔ x = .ok a ∧ m' = m := by
  cases x with
  | ok b =>
    constructor
    · intro h
      cases h
      exact ⟨rfl, rfl⟩
    · rintro ⟨h, rfl⟩
      cases h
      rfl
  | error f => exact ⟨nofun, nofun⟩

theorem ofFault_eq_error : (ofFault x : Action μ α) m = .error e m' ↔ ∃ f, x = .error f ∧ e = .fault f ∧ m' = m := by
  cases x with
  | ok b => exact ⟨nofun, nofun⟩
  | error f =>
    constructor
    · intro h
      cases h
      exact ⟨f, rfl, rfl, rfl⟩
    · rintro ⟨_, h, rfl, rfl⟩
      cases h
      rfl

end Action

end CacheTiming
