import CacheTiming.Config
import CacheTiming.Proofs.Domain.CacheOnly
import CacheTiming.Proofs.Domain.Traced
import CacheTiming.Proofs.Fixpoint.Evaluation
import CacheTiming.Proofs.Fixpoint.Refinement

/-! What is found out about the cache does not depend on whether traces and times are followed, as long as
the program goes forward: they are computed beside the cache, and all that they can do to the cache is to
end the analysis by a failure. -/

namespace CacheTiming

/-- The trace domain does with its caches what the domain of caches alone does. -/
theorem Traced.refines {χ : Type} [CacheModel χ] (t : Timing) (initial : χ) :
    (domain t initial).Refines Traced.cache (CacheOnly.domain initial) where
  init := rfl
  touch h m := by
    obtain ⟨o, status, cache, ho, hr, ⟨-, -⟩⟩ := touch_eq_ok h
    exact ⟨m, CacheOnly.touch_of_resolved ho hr m⟩
  bottom h m := by
    obtain ⟨o, ho, hhit, hmiss, -⟩ := touch_eq_bottom h
    exact ⟨_, CacheOnly.touch_of_none ho hhit hmiss m⟩
  elapse h m := by
    obtain ⟨-, -⟩ := elapse_eq_ok h
    exact ⟨m, rfl⟩
  join h m := by
    obtain ⟨-, hcache, -⟩ := merge_eq_ok h
    exact ⟨m, Action.ofFault_eq_ok.mpr ⟨hcache, rfl⟩⟩

/-- If the analysis with traces and times of a program whose branches and jumps go forward is not aborted,
    the analysis of the cache alone has the same verdict, and its final cache is the one beside the final
    traces and times. -/
theorem cache_verdict_eq_traced_verdict {χ : Type} [CacheModel χ] (t : Traced.Timing) (initial : χ) (limits : Limits)
    {p : Program} (hp : p.Forward) (hlen : p.code.length < UInt64.size) (m : Traced.Memory) (losses : Losses)
    (h : ∀ cause, (analyze (Traced.domain t initial) limits p m).verdict ≠ .aborted cause) :
    (analyze (CacheOnly.domain initial) limits p losses).verdict =
      (analyze (Traced.domain t initial) limits p m).verdict.map Traced.cache := by
  rcases (Traced.refines t initial).analyze hp hlen limits m losses with ⟨cause, haborted⟩ | heq
  · exact absurd haborted (h cause)
  · exact heq

/-- Two ways to a common end, one through two accesses to a block and one through an access to another
    block, and two halts. -/
def Program.diamond : Program where
  name := "diamond"
  code := [{ op := .branch, arg := 4 }, { op := .touch }, { op := .touch, arg := 8 }, { op := .jump, arg := 5 },
    { op := .touch, arg := 64 }, { op := .touch, arg := 128 }, { op := .branch, arg := 8 }, { op := .halt },
    { op := .elapse, arg := 2 }]
  labels := ∅

theorem diamond_verdicts_agree :
    ∃ final,
      (analyze (Traced.domain Config.standard.timing (AgeCache.initial Config.standard.cache)) Config.standard.limits
        .diamond {}).verdict = .converged final ∧
      (analyze (CacheOnly.domain (AgeCache.initial Config.standard.cache)) Config.standard.limits .diamond {}).verdict =
        .converged final.cache := by
  have hfinal : (analyze (Traced.domain Config.standard.timing (AgeCache.initial Config.standard.cache))
      Config.standard.limits .diamond {}).verdict.final?.isSome = true := by
    rw [analyze, Fixpoint.loop_eq_loopListed]
    decide +kernel
  obtain ⟨final, hfinal⟩ := Option.isSome_iff_exists.mp hfinal
  have hfinal := Verdict.final?_eq_some.mp hfinal
  have heq := cache_verdict_eq_traced_verdict Config.standard.timing (AgeCache.initial Config.standard.cache)
    Config.standard.limits (p := .diamond) (by decide) (by decide) {} {} (by simp [hfinal])
  exact ⟨final, hfinal, heq.trans (congrArg (Verdict.map Traced.cache) hfinal)⟩

end CacheTiming
