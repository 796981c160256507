import CacheTiming.Config
import CacheTiming.Proofs.Domain.CacheOnly
import CacheTiming.Proofs.Domain.Traced
import CacheTiming.Proofs.Fixpoint.Evaluation

/-! What an analysis says about times and caches holds for every execution that halts, however often it
jumps backwards, and from every cache that the settings allow at the start. -/

namespace CacheTiming

variable {c : Config} {p : Program} {cache : RecencyCache} {f : Path}

/-- Settings that are accepted have a geometry that the abstract cache supports. -/
theorem Config.supported_of_validate (h : c.validate = .ok ()) : c.cache.geometry.Supported := by
  have hempty : ¬ (c.cache.geometry.lineSize = 0 ∨ c.cache.geometry.sets = 0 ∨ c.cache.geometry.ways = 0) := by
    intro he
    rw [validate, if_pos he] at h
    cases h
  have hways : ¬ maxWays < c.cache.geometry.ways := by
    intro hlt
    rw [validate, if_neg hempty, if_pos hlt] at h
    cases h
  simp only [not_or] at hempty
  exact ⟨hempty.1, hempty.2.1, hempty.2.2, UInt64.le_iff_toNat_le.mp (UInt64.not_lt.mp hways)⟩

/-- Before the first step nothing has passed, so only the cache matters. -/
theorem Traced.covers_init {m : Memory} (t : Timing) (hw : cache.WellFormed) (hg : cache.geometry = c.cache.geometry)
    (hcov : (AgeCache.initial c.cache).Covers cache) :
    (timesReading (AgeCache.Valid c.cache.geometry) (AgeCache.Represents c.cache.geometry)).Covers m
      (domain t (AgeCache.initial c.cache)).init { cache } := by
  refine ⟨⟨hw, hg, hcov⟩, ?_⟩
  intro values hvalues
  cases hvalues
  exact ⟨rfl, List.mem_singleton.mpr rfl⟩

/-- The final state of the trace domain covers the cache of every execution that halts, and admits its
    clock. -/
theorem Traced.covers_final (hc : c.validate = .ok ()) {m : Memory} {final : Traced AgeCache}
    (h : (analyze (domain c.timing (AgeCache.initial c.cache)) c.limits p m).verdict = .converged final)
    (hw : cache.WellFormed) (hg : cache.geometry = c.cache.geometry)
    (hcov : (AgeCache.initial c.cache).Covers cache) (hf : Path.Execution p c.durations cache f) :
    AgeCache.Represents c.cache.geometry final.cache f.machine.cache ∧ final.times.Admits f.machine := by
  have hsound := times_sound (AgeCache.sound (Config.supported_of_validate hc)) c.timing (AgeCache.initial c.cache)
  exact (hsound.analyze trivial (AgeCache.valid_initial c.cache) h).2 (fun _ _ => covers_init c.timing hw hg hcov) hf

/-! ### A program with a branch and a loop -/

/-- A branch that goes around an instruction, and a loop at the end. -/
def Program.detour : Program where
  name := "detour"
  code := [{ op := .touch }, { op := .branch, arg := 3 }, { op := .elapse, arg := 5 }, { op := .branch, arg := 3 },
    { op := .halt }]
  labels := ∅

/-- From every cache, one execution takes the branch and goes through the loop once. -/
theorem Path.exists_execution_detour (d : Durations) (sets : Std.ExtTreeMap UInt64 (List UInt64)) :
    ∃ f, Execution .detour d { geometry := Config.standard.cache.geometry, sets } f ∧ f.jumps = 1 := by
  have hstart : Reaches .detour d (start { geometry := Config.standard.cache.geometry, sets }) _ := .refl
  have htouch := hstart.step (.touch rfl (Machine.touch_eq_ok.mpr ⟨_, _, rfl, rfl⟩))
  exact ⟨_, ⟨((htouch.step (.take rfl)).step (.take rfl)).step (.pass rfl), rfl⟩, rfl⟩

/-! ### Times -/

/-- If the final times are known, the clock of every execution that halts has not wrapped around and
    shows one of them. So if an execution wraps its clock around, the final times are unknown. -/
theorem halting_clock_mem_final_times (hc : c.validate = .ok ()) {m : Traced.Memory} {final : Traced AgeCache}
    (h : (analyze (Traced.domain c.timing (AgeCache.initial c.cache)) c.limits p m).verdict = .converged final)
    (hw : cache.WellFormed) (hg : cache.geometry = c.cache.geometry)
    (hempty : c.cache.initiallyEmpty = true → ∀ set, cache.blocks set = [])
    (hf : Path.Execution p c.durations cache f) :
    (∀ values, final.times = .known values → f.machine.overflow = false ∧ f.machine.clock ∈ values) ∧
      (f.machine.overflow = true → final.times = .unknown) := by
  have hcov := AgeCache.covers_initial (Config.supported_of_validate hc) hw hg hempty
  have hadmits := (Traced.covers_final hc h hw hg hcov hf).2
  exact ⟨hadmits, hadmits.overflow⟩

theorem detour_clock_mem_final_times :
    ∃ final f,
      (analyze (Traced.domain Config.standard.timing (AgeCache.initial Config.standard.cache)) Config.standard.limits
        .detour {}).verdict = .converged final ∧
      final.times = .known [20, 26] ∧
      Path.Execution .detour Config.standard.durations (.empty Config.standard.cache.geometry) f ∧
      f.machine.overflow = false ∧ f.machine.clock ∈ [20, 26] := by
  have htimes : (analyze (Traced.domain Config.standard.timing (AgeCache.initial Config.standard.cache))
      Config.standard.limits .detour {}).verdict.final?.map (·.times) = some (.known [20, 26]) := by
    rw [analyze, Fixpoint.loop_eq_loopListed]
    decide +kernel
  obtain ⟨final, hfinal, htimes⟩ := Option.map_eq_some_iff.mp htimes
  obtain ⟨f, hf, -⟩ := Path.exists_execution_detour Config.standard.durations ∅
  have hclock := (halting_clock_mem_final_times rfl (Verdict.final?_eq_some.mp hfinal)
    (RecencyCache.wellFormed_empty _) rfl (fun _ => RecencyCache.blocks_empty _) hf).1 _ htimes
  exact ⟨final, f, Verdict.final?_eq_some.mp hfinal, htimes, hf, hclock.1, hclock.2⟩

/-! ### Caches -/

/-- Whichever domain is used, the final ages contain the age of every block when an execution halts. -/
theorem halting_age_mem_final_ages (hc : c.validate = .ok ()) (hw : cache.WellFormed)
    (hg : cache.geometry = c.cache.geometry) (hcov : (AgeCache.initial c.cache).Covers cache)
    (hf : Path.Execution p c.durations cache f) :
    (∀ {m : Traced.Memory} {final : Traced AgeCache},
      (analyze (Traced.domain c.timing (AgeCache.initial c.cache)) c.limits p m).verdict = .converged final →
        ∀ block, (final.cache.age block).Contains (f.machine.cache.age block)) ∧
    (∀ {m : Losses} {final : AgeCache},
      (analyze (CacheOnly.domain (AgeCache.initial c.cache)) c.limits p m).verdict = .converged final →
        ∀ block, (final.age block).Contains (f.machine.cache.age block)) := by
  constructor
  · intro m final h
    exact (Traced.covers_final hc h hw hg hcov hf).1.covers
  · intro m final h
    have hsound := CacheOnly.sound (AgeCache.sound (Config.supported_of_validate hc)) (AgeCache.initial c.cache)
      c.durations
    have hcovers := (hsound.analyze trivial (AgeCache.valid_initial c.cache) h).2 (fun _ _ => ⟨hw, hg, hcov⟩) hf
    exact hcovers.covers

/-- The usual settings for a cache of which nothing is known at the start. -/
def Config.unknownCache : Config :=
  { Config.standard with cache := { Config.standard.cache with initiallyEmpty := false } }

theorem detour_age_mem_final_ages :
    ∃ final alone f,
      (analyze (Traced.domain Config.unknownCache.timing (AgeCache.initial Config.unknownCache.cache))
        Config.unknownCache.limits .detour {}).verdict = .converged final ∧
      (analyze (CacheOnly.domain (AgeCache.initial Config.unknownCache.cache)) Config.unknownCache.limits
        .detour {}).verdict = .converged alone ∧
      Path.Execution .detour Config.unknownCache.durations ((RecencyCache.empty Config.standard.cache.geometry).use 0) f ∧
      ∀ block, (final.cache.age block).Contains (f.machine.cache.age block) ∧
        (alone.age block).Contains (f.machine.cache.age block) := by
  have hfinal : (analyze (Traced.domain Config.unknownCache.timing (AgeCache.initial Config.unknownCache.cache))
      Config.unknownCache.limits .detour {}).verdict.final?.isSome = true := by
    rw [analyze, Fixpoint.loop_eq_loopListed]
    decide +kernel
  have halone : (analyze (CacheOnly.domain (AgeCache.initial Config.unknownCache.cache)) Config.unknownCache.limits
      .detour {}).verdict.final?.isSome = true := by
    rw [analyze, Fixpoint.loop_eq_loopListed]
    decide +kernel
  obtain ⟨final, hfinal⟩ := Option.isSome_iff_exists.mp hfinal
  obtain ⟨alone, halone⟩ := Option.isSome_iff_exists.mp halone
  obtain ⟨f, hf, -⟩ := Path.exists_execution_detour Config.unknownCache.durations
    ((RecencyCache.empty Config.standard.cache.geometry).use 0).sets
  have hw := (RecencyCache.wellFormed_empty Config.standard.cache.geometry).use 0
  have hages := halting_age_mem_final_ages (c := Config.unknownCache) rfl hw rfl
    (AgeCache.covers_initial (Config.supported_of_validate rfl) hw rfl nofun) hf
  have hfinal := Verdict.final?_eq_some.mp hfinal
  have halone := Verdict.final?_eq_some.mp halone
  exact ⟨final, alone, f, hfinal, halone, hf, fun block => ⟨hages.1 hfinal block, hages.2 halone block⟩⟩

end CacheTiming
