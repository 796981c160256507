import CacheTiming.Proofs.Fixpoint.Evaluation
import CacheTiming.Proofs.Fixpoint.Forward
import CacheTiming.Proofs.Fixpoint.Gathering
import CacheTiming.Proofs.Refinement

/-! The order of an analysis.

Below the limit of the depth an analysis takes locations in their order and each one once, with the join of
all that arrives there; what is at the limit comes after that. In a program whose branches and jumps all go
forward this holds of every place, whatever the limits are, so its states are never compared or widened. -/

namespace CacheTiming

namespace Fixpoint

variable {μ σ : Type} {D : Domain μ σ} {limits : Limits} {p : Program} {s : Search μ σ}

/-! ### Programs that go forward -/

theorem turns_within {P : Location → Prop} (fuel : Nat) (hs : s.Within P)
    (hnext : ∀ {loc pc}, P loc → p.Flows loc.pc pc → P (loc.next limits.unroll pc)) :
    ∀ x ∈ turns D limits p fuel s, P x.loc :=
  forall_mem_turns (fun hs _ hv => hs _ _ hv) (fun hs hround => hround.within hs hnext) fuel hs

theorem onward_of_forward (hp : p.Forward) (hlen : p.code.length < UInt64.size) (unroll : Int) :
    Onward p unroll fun _ => True where
  down _ _ := trivial
  forward hflows _ := Location.before_next_of_lt (hp.lt_of_flows hlen hflows) unroll

/-- All turns in a program that goes forward are at depth zero, and their places ascend. -/
theorem turns_pc_pairwise (hp : p.Forward) (hlen : p.code.length < UInt64.size) (fuel : Nat) (D : Domain μ σ)
    (limits : Limits) (m : μ) : ((turns D limits p fuel (.start D m)).map (·.loc.pc)).Pairwise (· < ·) := by
  have hdepth : ∀ x ∈ turns D limits p fuel (.start D m), x.loc.depth = 0 := by
    refine turns_within (P := (·.depth = 0)) fuel (within_start D m rfl) ?_
    intro loc pc hloc hflows
    simp [Location.next, Location.goesBack_of_lt (hp.lt_of_flows hlen hflows), hloc]
  rw [List.pairwise_map]
  refine (turns_pairwise (onward_of_forward hp hlen limits.unroll) fuel (behind_start D m)).imp_of_mem ?_
  intro x y hx hy hbefore
  rcases Location.before_iff.mp (hbefore (Or.inl trivial)) with hlt | ⟨-, hlt⟩
  · rw [hdepth x hx, hdepth y hy] at hlt
    exact absurd hlt (Int.lt_irrefl 0)
  · exact UInt64.lt_iff_toNat_lt.mpr hlt

/-! ### Whole analyses -/

/-- The turns of an analysis. -/
def turnsOf (D : Domain μ σ) (limits : Limits) (p : Program) (m : μ) : List (Turn μ σ) :=
  turns D limits p (bound p limits) (.start D m)

/-- All that is passed on in an analysis, and at first the state before the first instruction. -/
def passedIn (D : Domain μ σ) (limits : Limits) (p : Program) (m : μ) : List (Delivery μ σ) :=
  { loc := .start, state := D.init, memory := m } :: (turnsOf D limits p m).flatMap Turn.passed

end Fixpoint

open Fixpoint

variable {μ σ : Type}

theorem steps_analyze (D : Domain μ σ) (limits : Limits) (p : Program) (m : μ) :
    steps (analyze D limits p m).log = (turnsOf D limits p m).map Turn.loc := by
  have hlog : ∀ r : EStateM.Result Stop (Search μ σ) σ, (Analysis.ofResult r).log = (left r).log := by
    intro r
    cases r with
    | ok final s => rfl
    | error e s => cases e <;> rfl
  rw [analyze_eq_ofResult, hlog, steps_loop _ (scheduled_start D m)]
  rfl

/-- The steps that an analysis logs are its turns. Of two turns, the first one is at the earlier location,
    unless both are at the limit of the depth; so what is below the limit is taken once, in its order and
    before all else. The state with which it is taken is the join of all states that are ever passed on to
    it. If all branches and jumps go forward, every place is taken at most once, states are neither widened nor
    compared, and the analysis does not end for want of a fixpoint, whatever the limits are. -/
theorem analyze_in_order (D : Domain μ σ) (limits : Limits) (p : Program) (m : μ) :
    steps (analyze D limits p m).log = (turnsOf D limits p m).map Turn.loc ∧
    ((turnsOf D limits p m).Pairwise fun x y =>
      x.loc.depth < limits.unroll ∨ y.loc.depth < limits.unroll → x.loc.before y.loc = true) ∧
    (∀ x ∈ turnsOf D limits p m, x.loc.depth < limits.unroll →
      joined D (arrivals x.loc (passedIn D limits p m)) = some x.state) ∧
    (p.Forward → p.code.length < UInt64.size →
      ((turnsOf D limits p m).map (·.loc.pc)).Pairwise (· < ·) ∧
      (∀ widen subseteq, analyze { D with widen, subseteq } limits p m = analyze D limits p m) ∧
      (analyze D limits p m).verdict ≠ .gaveUp .noFixpoint) := by
  have hE := onward_of_depth p limits.unroll
  refine ⟨steps_analyze D limits p m, turns_pairwise hE _ (behind_start D m), ?_, ?_⟩
  · intro x hx hdepth
    exact joined_turns hE _ (behind_start D m) (gathered_start D m) hx hdepth
  · intro hp hlen
    have hsched := scheduled_start D m
    have hsweep := sweeping_start D m
    refine ⟨turns_pc_pairwise hp hlen _ D limits m, fun widen subseteq => ?_, ?_⟩
    · rw [analyze_eq_ofResult, analyze_eq_ofResult]
      exact congrArg Analysis.ofResult (loop_congr widen subseteq hp hlen _ hsched hsweep)
    · rw [analyze_eq_ofResult]
      exact Analysis.ofResult_ne_noFixpoint fun _ => loop_ne_noFixpoint hp hlen _ hsched hsweep

/-- The domain of caches alone, with the standard settings. -/
def CacheOnly.standard : Domain Losses AgeCache := domain (AgeCache.initial Config.standard.cache)

theorem diamond_in_order :
    (∃ x ∈ turnsOf CacheOnly.standard Config.standard.limits .diamond {}, x.loc = { pc := 5, depth := 0 } ∧
      joined CacheOnly.standard (arrivals x.loc (passedIn CacheOnly.standard Config.standard.limits .diamond {})) =
        some x.state) ∧
    ((turnsOf CacheOnly.standard Config.standard.limits .diamond {}).map (·.loc.pc)).Pairwise (· < ·) ∧
    (analyze CacheOnly.standard Config.standard.limits .diamond {}).verdict ≠ .gaveUp .noFixpoint := by
  obtain ⟨hlog, -, hjoined, hforward⟩ := analyze_in_order CacheOnly.standard Config.standard.limits .diamond {}
  obtain ⟨hpc, -, hverdict⟩ := hforward (by decide) (by decide)
  -- Both ways lead to the fifth place.
  have hstep : { pc := 5, depth := 0 } ∈
      steps (analyze CacheOnly.standard Config.standard.limits .diamond {}).log := by
    rw [analyze, loop_eq_loopListed]
    decide +kernel
  rw [hlog] at hstep
  obtain ⟨x, hx, hloc⟩ := List.mem_map.mp hstep
  exact ⟨⟨x, hx, hloc, hjoined x hx (by rw [hloc]; decide)⟩, hpc, hverdict⟩

end CacheTiming
