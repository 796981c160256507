import CacheTiming.Proofs.Fixpoint.Reachability
import CacheTiming.Proofs.Soundness

/-! The verdict of an analysis agrees with the executions of the program, listed from an empty cache.

No more than one backward jump for each instruction is needed to come to a place, so from this limit on the
executions show all that the verdict tells of. Only with the greatest limit they may never be listed. -/

namespace CacheTiming

/-- A verdict on a program of so many instructions agrees with its executions, if a search for them with a limit
    on their backward jumps ends. -/
structure Verdict.Agrees {σ : Type} (v : Verdict σ) (size : Nat)
    (executions : Int → Option (Except PathError (List Run))) : Prop where
  /-- After a success or for want of a path that halts, no execution comes to an undefined operation. -/
  defined : (∃ final, v = .converged final) ∨ v = .gaveUp .noFeasiblePath →
    ∀ maxBackJumps op pc, executions maxBackJumps ≠ some (.error (.invalidOpcode op pc))
  /-- If no path halts, no execution is listed, and nothing else is wrong. -/
  silent : v = .gaveUp .noFeasiblePath → ∀ maxBackJumps,
    (∀ result, executions maxBackJumps = some result → result = .ok []) ∧
    (maxBackJumps < Int64.maxValue.toInt → executions maxBackJumps = some (.ok []))
  /-- After a success some execution halts, even though its clock may wrap around. -/
  halts : (∃ final, v = .converged final) → ∀ maxBackJumps : Int, size ≤ maxBackJumps →
    maxBackJumps < Int64.maxValue.toInt →
    (∃ run runs, executions maxBackJumps = some (.ok (run :: runs))) ∨
      executions maxBackJumps = some (.error .clockOverflow)
  /-- If an operation is undefined, the executions cannot be listed. -/
  refused : v = .gaveUp .invalidOpcode → ∀ maxBackJumps : Int, size ≤ maxBackJumps →
    maxBackJumps < Int64.maxValue.toInt → ∃ e, executions maxBackJumps = some (.error e)

theorem Verdict.Describes.agrees {σ : Type} {v : Verdict σ} {p : Program} {g : Geometry} (h : v.Describes p)
    (hg : g.divides = true) (d : Durations) : v.Agrees p.code.length (enumerate p g d) where
  defined hv maxBackJumps op pc := by
    refine enumerate_ne_invalidOpcode fun pc hpc => ?_
    rcases hv with ⟨final, hv⟩ | hv
    · exact (h.converged final hv).1 pc hpc
    · exact (h.noFeasiblePath hv pc hpc).1
  silent hv maxBackJumps := by
    have hplaces := h.noFeasiblePath hv
    have hnil : ∀ result, enumerate p g d maxBackJumps = some result → result = .ok [] := fun result hresult =>
      eq_nil_of_enumerate hg (fun pc hpc => (hplaces pc hpc).1) (fun pc hpc => (hplaces pc hpc).2) hresult
    refine ⟨hnil, fun hlimit => ?_⟩
    obtain ⟨result, hresult⟩ := exists_enumerate p g d hlimit
    rw [hresult, hnil result hresult]
  halts := by
    rintro ⟨final, hv⟩ maxBackJumps hle hlimit
    obtain ⟨hdefined, pc, hpc, hop⟩ := h.converged final hv
    exact exists_enumerate_run hg hdefined hpc hop hle hlimit
  refused hv maxBackJumps hle hlimit := by
    obtain ⟨pc, hpc, hop⟩ := h.invalidOpcode hv
    exact exists_enumerate_error hg hpc hop hle hlimit

/-- With accepted settings and either domain, the verdict on a program agrees with its executions. -/
theorem verdict_agrees_with_executions {c : Config} (hc : c.validate = .ok ()) (p : Program) :
    (∀ m : Traced.Memory,
      (analyze (Traced.domain c.timing (AgeCache.initial c.cache)) c.limits p m).verdict.Agrees p.code.length
        (enumerate p c.cache.geometry c.durations)) ∧
    (∀ m : Losses,
      (analyze (CacheOnly.domain (AgeCache.initial c.cache)) c.limits p m).verdict.Agrees p.code.length
        (enumerate p c.cache.geometry c.durations)) := by
  have hg := Config.supported_of_validate hc
  have hw := RecencyCache.wellFormed_empty c.cache.geometry
  have hcov := AgeCache.covers_initial hg hw rfl fun _ => RecencyCache.blocks_empty c.cache.geometry
  have hvalid := AgeCache.valid_initial c.cache
  constructor
  · intro m
    have hsound := Traced.times_sound (AgeCache.sound hg) c.timing (AgeCache.initial c.cache)
    exact (hsound.describes c.limits p trivial hvalid hg.divides
      fun _ _ => Traced.covers_init c.timing hw rfl hcov).agrees hg.divides c.durations
  · intro m
    have hsound := CacheOnly.sound (AgeCache.sound hg) (AgeCache.initial c.cache) c.durations
    exact (hsound.describes c.limits p trivial hvalid hg.divides fun _ _ => ⟨hw, rfl, hcov⟩).agrees hg.divides c.durations

theorem Verdict.eq_gaveUp {σ : Type} {v : Verdict σ} {cause : Cause} (h : v.cause? = some cause)
    (hne : cause ≠ .internalFailure) : v = .gaveUp cause := by
  cases v with
  | converged final => cases h
  | gaveUp cause' =>
    cases h
    rfl
  | aborted cause' =>
    cases h
    exact absurd rfl hne

/-- A loop without an end. -/
def Program.endless : Program where
  name := "endless"
  code := [{ op := .touch, arg := 64 }, { op := .branch, arg := 0 }, { op := .jump, arg := 1 }]
  labels := ∅

/-- An undefined operation behind a branch. -/
def Program.stranded : Program where
  name := "stranded"
  code := [{ op := .branch, arg := 3 }, { op := .touch }, { op := .undefined 9 (by decide) }, { op := .halt }]
  labels := ∅

theorem endless_and_stranded_executions :
    (analyze (CacheOnly.domain (AgeCache.initial Config.standard.cache)) Config.standard.limits .endless {}).verdict =
      .gaveUp .noFeasiblePath ∧
    enumerate .endless Config.standard.cache.geometry Config.standard.durations 1000 = some (.ok []) ∧
    (analyze (Traced.domain Config.standard.timing (AgeCache.initial Config.standard.cache)) Config.standard.limits
      .stranded {}).verdict = .gaveUp .invalidOpcode ∧
    ∃ e, enumerate .stranded Config.standard.cache.geometry Config.standard.durations 4 = some (.error e) := by
  have hendless : (analyze (CacheOnly.domain (AgeCache.initial Config.standard.cache)) Config.standard.limits
      .endless {}).verdict = .gaveUp .noFeasiblePath := by
    refine Verdict.eq_gaveUp ?_ (by decide)
    rw [analyze, Fixpoint.loop_eq_loopListed]
    decide +kernel
  have hstranded : (analyze (Traced.domain Config.standard.timing (AgeCache.initial Config.standard.cache))
      Config.standard.limits .stranded {}).verdict = .gaveUp .invalidOpcode := by
    refine Verdict.eq_gaveUp ?_ (by decide)
    rw [analyze, Fixpoint.loop_eq_loopListed]
    decide +kernel
  obtain ⟨-, hnil⟩ := ((verdict_agrees_with_executions rfl .endless).2 {}).silent hendless 1000
  exact ⟨hendless, hnil (by decide), hstranded,
    ((verdict_agrees_with_executions rfl .stranded).1 {}).refused hstranded 4 (by decide) (by decide)⟩

theorem Verdict.exists_eq_converged {σ : Type} {v : Verdict σ} (h : v.cause? = none) : ∃ final, v = .converged final := by
  cases v with
  | converged final => exact ⟨final, rfl⟩
  | gaveUp cause => cases h
  | aborted cause => cases h

/-- A jump to itself beside a way to the end. -/
def Program.waylaid : Program where
  name := "waylaid"
  code := [{ op := .branch, arg := 2 }, { op := .jump, arg := 1 }, { op := .halt }]
  labels := ∅

/-- With the greatest limit the search stays with the jump that comes first, so that the execution which halts is
    never listed. -/
theorem waylaid_never_enumerated :
    (∃ final, (analyze (CacheOnly.domain (AgeCache.initial Config.standard.cache)) Config.standard.limits
      .waylaid {}).verdict = .converged final) ∧
    enumerate .waylaid Config.standard.cache.geometry Config.standard.durations Int64.maxValue.toInt = none := by
  constructor
  · refine Verdict.exists_eq_converged ?_
    rw [analyze, Fixpoint.loop_eq_loopListed]
    decide +kernel
  · have hbranch : Path.move Program.waylaid Config.standard.durations Int64.maxValue.toInt
        (.start (.empty Config.standard.cache.geometry)) = .ok (.fork _ _) := Path.move_eq_fork (by decide) rfl
    exact (explore_of_ok hbranch).trans (explore_eq_none_of_jump rfl rfl rfl)

end CacheTiming
