import CacheTiming.Proofs.Fixpoint.Forward

/-! Domains that compute more than others.

If the states of a domain have those of another domain as a part, and its operations, where they have a
result, do with this part what the other domain does, then the two analyses of a program whose jumps go
forward stay in lock step: they take the same locations in the same order and join the same states. What
the first domain computes beside the part can only make it fail. -/

namespace CacheTiming

variable {ν μ τ σ : Type}

/-- Where an operation of the first domain has a result, so has the one of the second, and `part` takes one
    to the other whatever the two domains remember. -/
structure Domain.Refines (D' : Domain ν τ) (part : τ → σ) (D : Domain μ σ) : Prop where
  init : D.init = part D'.init
  touch : ∀ {s r address n n'}, D'.touch s address n = .ok r n' →
    ∀ m, ∃ m', D.touch (part s) address m = .ok (part r) m'
  bottom : ∀ {s address n n'}, D'.touch s address n = .error .bottom n' →
    ∀ m, ∃ m', D.touch (part s) address m = .error .bottom m'
  elapse : ∀ {s r time n n'}, D'.elapse s time n = .ok r n' →
    ∀ m, ∃ m', D.elapse (part s) time m = .ok (part r) m'
  join : ∀ {s u r n n'}, D'.join s u n = .ok r n' → ∀ m, ∃ m', D.join (part s) (part u) m = .ok (part r) m'

/-- A verdict on a part of the states. -/
def Verdict.map (part : τ → σ) : Verdict τ → Verdict σ
  | .converged final => .converged (part final)
  | .gaveUp cause => .gaveUp cause
  | .aborted cause => .aborted cause

namespace Fixpoint

/-- A visit with a part of its state. -/
def Visit.map (part : τ → σ) (v : Visit τ) : Visit σ where
  state := part v.state
  done := v.done
  rounds := v.rounds

/-- The second search holds the parts of the states that the first one holds. -/
structure Search.Mirrors (part : τ → σ) (s' : Search ν τ) (s : Search μ σ) : Prop where
  visits : ∀ loc : Location, s.visits[loc]? = s'.visits[loc]?.map (Visit.map part)
  pending : s.pending = s'.pending
  final : s.final = s'.final.map part

variable {D' : Domain ν τ} {D : Domain μ σ} {part : τ → σ} {limits : Limits} {p : Program} {s' t' : Search ν τ}
  {s : Search μ σ} {loc : Location} {pc : UInt64} {st : τ} {v : Visit τ}

theorem Search.Mirrors.queue (h : s'.Mirrors part s) {n : ν} {m : μ} :
    (s'.queue n loc v).Mirrors part (s.queue m loc (v.map part)) where
  visits l := by
    rw [visits_queue, visits_queue]
    split
    · rfl
    · exact h.visits l
  pending := congrArg (·.insert loc) h.pending
  final := h.final

theorem Search.Mirrors.popped (h : s'.Mirrors part s) : (s'.popped loc v).Mirrors part (s.popped loc (v.map part)) where
  visits l := by
    rw [visits_popped, visits_popped]
    split
    · rfl
    · exact h.visits l
  pending := congrArg (·.erase loc) h.pending
  final := h.final

theorem Search.Mirrors.finish (h : s'.Mirrors part s) :
    (Analysis.ofResult (Fixpoint.finish s)).verdict = (Analysis.ofResult (Fixpoint.finish s')).verdict.map part := by
  have hfinal := h.final
  cases heq : s'.final with
  | none =>
    rw [heq] at hfinal
    rw [finish_of_none heq, finish_of_none hfinal]
    rfl
  | some f =>
    rw [heq] at hfinal
    obtain ⟨t', ht', -⟩ := finish_of_final heq
    obtain ⟨t, ht, -⟩ := finish_of_final hfinal
    rw [ht', ht]
    rfl

section Refines
variable (hD : D'.Refines part D)
include hD

theorem Search.Mirrors.propagate (h : s'.Mirrors part s) (hs : s'.SweepsFrom loc) (hpc : loc.pc.toNat < pc.toNat)
    (hrun : Fixpoint.propagate D' limits loc pc st s' = .ok () t') :
    ∃ t, Fixpoint.propagate D limits loc pc (part st) s = .ok () t ∧ t'.Mirrors part t := by
  have hnoting : (s'.noting (loc.goesBack pc)).Mirrors part (s.noting (loc.goesBack pc)) :=
    ⟨h.visits, h.pending, h.final⟩
  have hvisit := hnoting.visits (loc.next limits.unroll pc)
  rcases (propagate_eq_ok hrun).sweeps (hs.noting hpc) (Location.before_next_of_lt hpc limits.unroll) with
    ⟨hnew, rfl⟩ | ⟨v, r, n, hv, hdone, hjoin, rfl⟩
  · rw [hnew] at hvisit
    exact ⟨_, propagate_of_arrival (.fresh hvisit rfl), hnoting.queue⟩
  · rw [hv] at hvisit
    obtain ⟨m, hm⟩ := hD.join hjoin s.memory
    exact ⟨_, propagate_of_arrival (.join hvisit (Or.inl hdone) hm rfl), hnoting.queue⟩

theorem Search.Mirrors.conclude (h : s'.Mirrors part s) (hrun : Fixpoint.conclude D' loc st s' = .ok () t') :
    ∃ t, Fixpoint.conclude D loc (part st) s = .ok () t ∧ t'.Mirrors part t := by
  have hfinal := h.final
  rcases conclude_eq_ok hrun with ⟨hnone, rfl⟩ | ⟨f, r, n, hf, hjoin, rfl⟩
  · rw [hnone] at hfinal
    exact ⟨_, conclude_of_none hfinal, h.visits, h.pending, rfl⟩
  · rw [hf] at hfinal
    obtain ⟨m, hm⟩ := hD.join hjoin s.memory
    exact ⟨_, conclude_of_final hfinal hm, h.visits, h.pending, rfl⟩

/-- What interpreting an instruction does to the first search, it does to the second one. -/
theorem Search.Mirrors.interpret (hp : p.Forward) (hlen : p.code.length < UInt64.size) (h : s'.Mirrors part s)
    (hs : s'.SweepsFrom loc) (hrun : Fixpoint.interpret D' limits p loc st s' = .ok () t') :
    ∃ t, Fixpoint.interpret D limits p loc (part st) s = .ok () t ∧ t'.Mirrors part t := by
  -- The domains remember different things, so the two searches differ in their memories when a state is passed on.
  have passed : ∀ {op : Opcode} {n : ν} {pc : UInt64} {r : τ} {u' : Search ν τ} (m : μ), p.Flows loc.pc pc →
      Fixpoint.propagate D' limits loc pc r { s'.logging (.step loc op) with memory := n } = .ok () u' →
        ∃ u, Fixpoint.propagate D limits loc pc (part r) { s.logging (.step loc op) with memory := m } = .ok () u ∧
          u'.SweepsFrom loc ∧ u'.Mirrors part u := by
    intro op n pc r u' m hflows run
    have hlog : { s'.logging (.step loc op) with memory := n }.Mirrors part
        { s.logging (.step loc op) with memory := m } := ⟨h.visits, h.pending, h.final⟩
    have hs : { s'.logging (.step loc op) with memory := n }.SweepsFrom loc := ⟨hs.loops, hs.later, hs.undone⟩
    have hpc := hp.lt_of_flows hlen hflows
    obtain ⟨u, hu, hmirrors⟩ := hlog.propagate hD hs hpc run
    exact ⟨u, hu, hs.propagate hpc run, hmirrors⟩
  cases interpret_eq_ok hrun with
  | halt op run =>
    rw [op] at run
    have hlog : (s'.logging (.step loc .halt)).Mirrors part (s.logging (.step loc .halt)) :=
      ⟨h.visits, h.pending, h.final⟩
    obtain ⟨t, ht, hmirrors⟩ := hlog.conclude hD run
    exact ⟨t, interpret_conclude op ht, hmirrors⟩
  | touch op access run =>
    rw [op] at run
    obtain ⟨m, hm⟩ := hD.touch access s.memory
    obtain ⟨t, ht, -, hmirrors⟩ := passed m (.next (Or.inl op)) run
    exact ⟨t, interpret_touch op hm ht, hmirrors⟩
  | bottom op access eq =>
    subst eq
    obtain ⟨m, hm⟩ := hD.bottom access s.memory
    exact ⟨_, interpret_bottom op hm, h.visits, h.pending, h.final⟩
  | elapse op pause run =>
    rw [op] at run
    obtain ⟨m, hm⟩ := hD.elapse pause s.memory
    obtain ⟨t, ht, -, hmirrors⟩ := passed m (.next (Or.inr (Or.inl op))) run
    exact ⟨t, interpret_elapse op hm ht, hmirrors⟩
  | branch op pass take =>
    rw [op] at pass
    obtain ⟨u, hu, hs, hmirrors⟩ := passed s.memory (.next (Or.inr (Or.inr op))) pass
    obtain ⟨t, ht, hmirrors⟩ := hmirrors.propagate hD hs (hp.lt_of_flows hlen (.target (Or.inl op))) take
    exact ⟨t, interpret_branch op hu ht, hmirrors⟩
  | jump op run =>
    rw [op] at run
    obtain ⟨t, ht, -, hmirrors⟩ := passed s.memory (.target (Or.inr op)) run
    exact ⟨t, interpret_jump op ht, hmirrors⟩

/-- A search that mirrors another one ends as that one does, unless that one is aborted. -/
theorem Search.Mirrors.loop (hp : p.Forward) (hlen : p.code.length < UInt64.size) (limits : Limits) (fuel : Nat)
    (h : s'.Mirrors part s) (hsched : s'.Scheduled) (hsweep : s'.Sweeping) :
    (∃ cause, (Analysis.ofResult (Fixpoint.loop D' limits p fuel s')).verdict = .aborted cause) ∨
      (Analysis.ofResult (Fixpoint.loop D limits p fuel s)).verdict =
        (Analysis.ofResult (Fixpoint.loop D' limits p fuel s')).verdict.map part := by
  induction fuel generalizing s' s with
  | zero => exact Or.inr rfl
  | succ fuel ih =>
    rcases hsched.empty_or_first with hnone | ⟨loc, v, hmin, hv⟩
    · rw [loop_of_empty hnone, loop_of_empty (h.pending ▸ hnone)]
      exact Or.inr h.finish
    · have hmin' : s.pending.min? = some loc := h.pending ▸ hmin
      have hv' : s.visits[loc]? = some (v.map part) := by rw [h.visits, hv]; rfl
      cases hrun : Fixpoint.interpret D' limits p loc v.state (s'.popped loc v) with
      | ok _ t' =>
        have hround : Round D' limits p s' loc v t' := ⟨hmin, hv, hrun⟩
        obtain ⟨t, ht, hmirrors⟩ := h.popped.interpret hD hp hlen (hsweep.popped hmin) hrun
        rw [loop_of_ok hmin hv hrun, loop_of_ok hmin' hv' ht]
        exact ih hmirrors (hround.scheduled hsched) (hround.sweeping hp hlen hsweep)
      | error e t' =>
        rw [loop_of_error hmin hv hrun]
        rcases (hsweep.popped hmin).stops hp hlen hrun with ⟨cause, rfl⟩ | ⟨rfl, hundefined⟩
        · exact Or.inl ⟨cause, rfl⟩
        · refine Or.inr ?_
          cases hop : p.opAt loc.pc with
          | «undefined» code above =>
            rw [loop_of_error hmin' hv' (interpret_undefined hop)]
            rfl
          | _ =>
            rw [hop] at hundefined
            cases hundefined

end Refines

theorem mirrors_start (hD : D'.Refines part D) (n : ν) (m : μ) : (Search.start D' n).Mirrors part (Search.start D m) where
  visits l := by
    rw [visits_start, visits_start, hD.init]
    split
    · rfl
    · rfl
  pending := rfl
  final := rfl

end Fixpoint

/-- The analysis with the smaller states has the verdict of the other one, unless that one is aborted. -/
theorem Domain.Refines.analyze {D' : Domain ν τ} {D : Domain μ σ} {part : τ → σ} (hD : D'.Refines part D) {p : Program}
    (hp : p.Forward) (hlen : p.code.length < UInt64.size) (limits : Limits) (n : ν) (m : μ) :
    (∃ cause, (CacheTiming.analyze D' limits p n).verdict = .aborted cause) ∨
      (CacheTiming.analyze D limits p m).verdict = (CacheTiming.analyze D' limits p n).verdict.map part := by
  rw [analyze_eq_ofResult, analyze_eq_ofResult]
  exact (Fixpoint.mirrors_start hD n m).loop hD hp hlen limits _ (Fixpoint.scheduled_start D' n)
    (Fixpoint.sweeping_start D' n)

end CacheTiming
