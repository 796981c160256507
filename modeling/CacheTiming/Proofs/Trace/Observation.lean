import CacheTiming.Machine.Basic
import CacheTiming.Trace.Status

/-! What a status says about a step: the observations that it allows. -/

namespace CacheTiming

/-- The observations that a status allows. -/
def Status.observations : Status → List Observation
  | .hit => [.hit]
  | .miss => [.miss]
  | .hitOrMiss => [.hit, .miss]
  | .noAccess => [.pause]
  | .none | .unknown .. => []

/-- The statuses of a step that was seen. -/
def Status.observed : List Status := [.hit, .miss, .hitOrMiss, .noAccess]

/-- The status that allows one observation only. -/
def Observation.status : Observation → Status
  | .hit => .hit
  | .miss => .miss
  | .pause => .noAccess

/-- The observation of an access. -/
def Observation.ofAccess (hit : Bool) : Observation := if hit then .hit else .miss

/-- The time that belongs to an observation. -/
def Durations.cost (d : Durations) : Observation → UInt64
  | .hit => d.hit
  | .miss => d.miss
  | .pause => d.noAccess

theorem Status.mem_observations_of_subseteq {s t : Status} (h : s.subseteq t = true) {o : Observation}
    (ho : o ∈ s.observations) : o ∈ t.observations := by
  simp only [subseteq, Bool.or_eq_true, Bool.and_eq_true, decide_eq_true_eq] at h
  rcases h with rfl | ⟨rfl, rfl | rfl⟩
  · exact ho
  · simp_all [observations]
  · simp_all [observations]

theorem Status.mem_observations_hitOrMiss {s : Status} (h : s ≠ .noAccess) {o : Observation}
    (ho : o ∈ s.observations) : o ∈ hitOrMiss.observations := by
  cases s <;> simp_all [observations]

/-- Two different statuses of accesses allow a hit and a miss between them. -/
theorem Status.mem_observations_of_ne {s t : Status} (hs : s ∈ observed) (ht : t ∈ observed) (hs' : s ≠ .noAccess)
    (ht' : t ≠ .noAccess) (hne : s ≠ t) {o : Observation} (ho : o ∈ hitOrMiss.observations) :
    o ∈ s.observations ∨ o ∈ t.observations := by
  simp only [observed, List.mem_cons, List.not_mem_nil, or_false] at hs ht
  rcases hs with rfl | rfl | rfl | rfl <;> rcases ht with rfl | rfl | rfl | rfl <;> cases o <;>
    simp_all [observations]

/-- An access changes the cache and records whether it hits. -/
theorem Machine.touch_eq_ok {m m' : Machine} {d : Durations} {address : UInt64} :
    m.touch d address = .ok m' ↔
      ∃ hit cache, m.cache.access address = .ok (hit, cache) ∧
        m' = { m with cache }.observe (.ofAccess hit) (d.cost (.ofAccess hit)) := by
  unfold touch
  cases h : m.cache.access address with
  | error e => simp
  | ok r =>
    obtain ⟨hit, cache⟩ := r
    cases hit <;> simp [Observation.ofAccess, Durations.cost, eq_comm]

end CacheTiming
