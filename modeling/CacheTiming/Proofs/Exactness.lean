import CacheTiming.Proofs.Cache.Sharp
import CacheTiming.Proofs.Fixpoint.SinglePath
import CacheTiming.Proofs.Soundness
import CacheTiming.Proofs.Trace.Language

/-! Analyses of programs with a single path are exact.

From an empty cache the abstract cache knows every age, so that each access either hits or misses. The
trace is then a chain of single observations, and the times are those of one machine. -/

namespace CacheTiming

/-! ### Chains of observations -/

namespace Store

variable {s t : Store} {n r : NodeId} {status : Status} {statuses : List Status}

/-- A node that was reached from the root by observations only, with their statuses. -/
inductive Chain (s : Store) : NodeId → List Status → Prop where
  | root {n : NodeId} (h : (s.node n).ancestry = .root) : Chain s n []
  | single {n p : NodeId} {statuses : List Status} (h : (s.node n).ancestry = .single p)
      (before : Chain s p statuses) : Chain s n (statuses ++ [(s.node n).status])

theorem Extends.chain (h : s.Extends t) (hs : s.WellFormed) (hn : n < s.size) (hc : s.Chain n statuses) :
    t.Chain n statuses := by
  induction hc with
  | root hroot => exact .root ((h.node hn).symm ▸ hroot)
  | @single n p statuses hsingle before ih =>
    have hp : p < n := by
      have hb := hs.older hn
      rw [hsingle] at hb
      exact hb
    rw [← h.node hn] at hsingle ⊢
    exact .single hsingle (ih (Nat.lt_trans hp hn))

/-- A chain in which no access may both hit and miss is a single trace. -/
theorem Regular.count_of_chain (hs : s.Regular) (hn : n < s.size) (hc : s.Chain n statuses)
    (hstatuses : Status.hitOrMiss ∉ statuses) : s.count n = 1 := by
  induction hc with
  | @root n hroot =>
    have hcount : s.count n = _ := hs.count hn
    have hsuits := hs.suits hn
    rw [hroot] at hcount hsuits
    rw [hcount, (hsuits : (s.node n).status = .noAccess)]
    rfl
  | @single n p statuses hsingle before ih =>
    have hcount : s.count n = _ := hs.count hn
    have hb := hs.older hn
    rw [hsingle] at hcount hb
    simp only [List.mem_append, List.mem_singleton, not_or] at hstatuses
    rw [hcount, countOf, if_neg (Ne.symm hstatuses.2)]
    exact ih (Nat.lt_trans hb hn) hstatuses.1

theorem exists_extend (s : Store) (n : NodeId) (hstatus : status ≠ .none) :
    ∃ r t, s.extend n status = .ok (r, t) := by
  unfold extend findOrCreate
  rw [if_neg hstatus]
  simp only [ancestorsOf]
  split
  · exact ⟨_, _, rfl⟩
  · exact ⟨_, _, rfl⟩

theorem size_extend_le (h : s.extend n status = .ok (r, t)) : t.size ≤ s.size + 1 := by
  cases (extend_eq_ok h).2 with
  | reused => exact Nat.le_succ _
  | created => exact Nat.le_of_eq size_push

end Store

/-! ### Caches of known ages -/

/-- An abstract cache that says exactly which age every block of a concrete one has. -/
structure AgeCache.Exact (g : Geometry) (c : AgeCache) (k : RecencyCache) : Prop where
  valid : c.Valid g
  represents : c.Represents g k
  sharp : c.Sharp

namespace AgeCache.Exact

variable {g : Geometry} {c : AgeCache} {k : RecencyCache} {address : UInt64}

theorem initial {params : CacheParams} (hg : params.geometry.Supported) (h : params.initiallyEmpty = true) :
    Exact params.geometry (.initial params) (.empty params.geometry) := by
  have hw := RecencyCache.wellFormed_empty params.geometry
  have hcov := covers_initial hg hw rfl fun _ => RecencyCache.blocks_empty _
  exact ⟨valid_initial params, ⟨hw, rfl, hcov⟩, sharp_initial h⟩

/-- The abstract access knows whether the concrete one hits. -/
theorem touch (hg : g.Supported) (h : Exact g c k) {hit : Bool} {k' : RecencyCache}
    (ha : k.access address = .ok (hit, k')) :
    ∃ o c', CacheModel.touch c address = .ok o ∧ o.Resolved (Observation.ofAccess hit).status c' ∧ Exact g c' k' := by
  have ho := h.valid.touch_eq hg address
  obtain ⟨hv, hcov⟩ := (AgeCache.sound hg).touch h.valid ho
  obtain ⟨c', hc', hk'⟩ := hcov h.represents ha
  cases hit with
  | true =>
    obtain ⟨hmiss, hsharp⟩ := h.sharp.touch_hit hc'
    exact ⟨_, c', ho, .hit hc' hmiss, hv true hc', hk', hsharp⟩
  | false =>
    obtain ⟨hhit, hsharp⟩ := h.sharp.touch_miss hc'
    exact ⟨_, c', ho, .miss hhit hc', hv false hc', hk', hsharp⟩

end AgeCache.Exact

/-! ### The trace domain follows a machine -/

namespace Traced

/-- A state and a memory that say exactly what a machine did. -/
structure Exact (g : Geometry) (m : Memory) (s : Traced AgeCache) (x : Machine) : Prop where
  regular : m.store.Regular
  size : m.store.size ≤ x.trace.length + 1
  lt : s.trace < m.store.size
  chain : m.store.Chain s.trace (x.trace.map Observation.status)
  cache : s.cache.Exact g x.cache
  times : s.times = x.times

variable {g : Geometry} {m : Memory} {s : Traced AgeCache} {x : Machine}

/-- An observation that a machine makes, too, adds its status to the chain. -/
theorem Exact.observed (h : Exact g m s x) (hx : x.trace.length < UInt32.size) (t : Timing) (x' : Machine)
    (o : Observation) {cache : AgeCache} {times : Times} (htrace : x'.trace = x.trace ++ [o])
    (hcache : cache.Exact g x'.cache) (htimes : x'.times = times.shift (t.durations.cost o)) :
    ∃ r store, Observed t { trace := s.trace, cache, times } o.status m.store r store ∧
      ∀ losses, Exact g { store, losses } r x' := by
  have hstatus : o.status ≠ .none := by cases o <;> nofun
  obtain ⟨n, store, hextend⟩ := m.store.exists_extend s.trace hstatus
  have hy := h.regular.extend h.lt hextend
  refine ⟨_, store, .intro hextend (times.shiftBy_status o t.durations t.maxTimes), fun losses => ?_⟩
  refine ⟨hy.regular, ?_, hy.lt, ?_, hcache, htimes.symm⟩
  · rw [htrace, List.length_append]
    exact Nat.le_trans (Store.size_extend_le hextend) (Nat.succ_le_succ h.size)
  · -- The store holds few enough nodes that the new one is not mistaken for another.
    obtain ⟨hlast, hancestry⟩ := h.regular.node_extend h.lt (Nat.le_trans h.size hx) hextend
    rw [htrace, List.map_append, List.map_singleton, ← hlast]
    exact .single hancestry (hy.grown.chain h.regular.toWellFormed h.lt h.chain)

theorem simulates (hg : g.Supported) {bound : Nat} (hbound : bound ≤ UInt32.size) (t : Timing) (initial : AgeCache) :
    (domain t initial).Simulates t.durations bound (Exact g) where
  access {m s x} h address := by
    have hdivides : x.cache.geometry.divides = true := h.cache.represents.geometry ▸ hg.divides
    have haccess : ∃ r, x.cache.access address = .ok r := ⟨_, if_pos hdivides⟩
    obtain ⟨⟨hit, cache⟩, ha⟩ := haccess
    exact ⟨_, Machine.touch_eq_ok.mpr ⟨hit, cache, ha, rfl⟩⟩
  touch {m s x x' address} h hx ht := by
    obtain ⟨hit, k, ha, rfl⟩ := Machine.touch_eq_ok.mp ht
    obtain ⟨o, cache, ho, hr, hexact⟩ := h.cache.touch hg ha
    obtain ⟨r, store, hobs, hE⟩ := h.observed (Nat.lt_of_lt_of_le hx hbound) t
      ({ x with cache := k }.observe (.ofAccess hit) (t.durations.cost (.ofAccess hit))) (.ofAccess hit) rfl hexact
      (Machine.times_observe _ _ _)
    have htimes : Machine.times { x with cache := k } = s.times := h.times.symm
    rw [htimes] at hobs
    obtain ⟨losses, htouch⟩ := hobs.exists_touch ho hr
    exact ⟨r, _, htouch, hE losses⟩
  elapse {m s x} time h hx := by
    obtain ⟨r, store, hobs, hE⟩ := h.observed (Nat.lt_of_lt_of_le hx hbound) t (x.elapse t.durations time) .pause rfl
      h.cache (h.times ▸ x.times_elapse t.durations time)
    obtain ⟨losses, helapse⟩ := Observed.exists_elapse hobs
    exact ⟨r, _, helapse, hE losses⟩

end Traced

/-! ### Exact analyses -/

theorem hitOrMiss_not_mem_map_status (trace : List Observation) : .hitOrMiss ∉ trace.map Observation.status := by
  intro h
  obtain ⟨o, -, ho⟩ := List.mem_map.mp h
  cases o <;> cases ho

/-- The analysis of a program with a single path converges, from the empty cache and whatever its limits
    are. Its final state spells the trace of the only execution and no other, knows the age of every
    block, and has the time of that execution, or none exactly if its clock wraps around.

    Node ids have 32 bits, so a store cannot tell the observations of a longer program apart. -/
theorem single_path_analysis_exact {c : Config} {p : Program} (hc : c.validate = .ok ())
    (hempty : c.cache.initiallyEmpty = true) (hp : p.SinglePath) (hlen : p.code.length < UInt32.size) :
    let a := analyze (Traced.domain c.timing (AgeCache.initial c.cache)) c.limits p {}
    ∃ final f, a.verdict = .converged final ∧
      Path.Execution p c.durations (.empty c.cache.geometry) f ∧
      (∀ g, Path.Execution p c.durations (.empty c.cache.geometry) g → g = f) ∧
      a.memory.store.count final.trace = 1 ∧
      a.memory.store.Chain final.trace (f.machine.trace.map Observation.status) ∧
      (∀ block, (final.cache.age block).lo.toNat = f.machine.cache.age block ∧
        (final.cache.age block).hi.toNat = f.machine.cache.age block) ∧
      ∀ maxBackJumps, 0 ≤ maxBackJumps →
        enumerate p c.cache.geometry c.durations maxBackJumps =
            some (.ok [{ trace := f.machine.marks, time := f.machine.clock }]) ∧ final.times = .known [f.machine.clock] ∨
          enumerate p c.cache.geometry c.durations maxBackJumps = some (.error .clockOverflow) ∧
            final.times = .unknown := by
  have hg := Config.supported_of_validate hc
  have hfits : p.code.length < UInt64.size := Nat.lt_trans hlen (by decide)
  have hinit : Traced.Exact c.cache.geometry {} (Traced.domain c.timing (.initial c.cache)).init
      { cache := .empty c.cache.geometry } :=
    ⟨Store.regular_initial, Nat.le_refl 1, Nat.zero_lt_one, .root rfl, .initial hg hempty, rfl⟩
  obtain ⟨f, final, hf, hverdict, hexact⟩ := (Traced.simulates hg (Nat.le_of_lt hlen) c.timing _).analyze hp hfits c.limits hinit
  have hf : Path.Execution p c.durations (.empty c.cache.geometry) f := hf
  refine ⟨final, f, hverdict, hf, fun g hg => hg.unique hp hf, ?_, hexact.chain, fun block => ?_, fun jumps hj => ?_⟩
  · exact hexact.regular.count_of_chain hexact.lt hexact.chain (hitOrMiss_not_mem_map_status _)
  · exact (hexact.cache.sharp block).eq_of_contains (hexact.cache.represents.covers block)
  · rw [enumerate_eq hp hfits hf hj, hexact.times, Machine.times]
    cases f.machine.overflow with
    | true => exact .inr ⟨rfl, rfl⟩
    | false => exact .inl ⟨rfl, rfl⟩

/-- A program that jumps over an instruction and accesses one of its blocks twice. -/
def Program.shortcut : Program where
  name := "shortcut"
  code := [{ op := .touch }, { op := .jump, arg := 3 }, { op := .elapse, arg := 5 }, { op := .touch, arg := 1 },
    { op := .elapse, arg := 7 }, { op := .touch, arg := 64 }]
  labels := ∅

theorem shortcut_analysis_exact :
    let a := analyze (Traced.domain Config.standard.timing (AgeCache.initial Config.standard.cache))
      Config.standard.limits .shortcut {}
    ∃ final f, a.verdict = .converged final ∧
      Path.Execution .shortcut Config.standard.durations (.empty Config.standard.cache.geometry) f ∧
      a.memory.store.count final.trace = 1 ∧
      a.memory.store.Chain final.trace (f.machine.trace.map Observation.status) ∧
      enumerate .shortcut Config.standard.cache.geometry Config.standard.durations 0 =
        some (.ok [{ trace := "MH.M", time := 51 }]) ∧ final.times = .known [51] := by
  obtain ⟨final, f, hverdict, hf, -, hcount, hchain, -, hruns⟩ :=
    single_path_analysis_exact (c := Config.standard) (p := .shortcut) rfl rfl (by decide) (by decide)
  have hrun : enumerate .shortcut Config.standard.cache.geometry Config.standard.durations 0 =
      some (.ok [{ trace := "MH.M", time := 51 }]) := by
    -- Five instructions are executed, then the path has halted.
    iterate 6 refine (explore_of_ok rfl).trans ?_
    refine (explore.eq_1 ..).trans ?_
    decide +kernel
  refine ⟨final, f, hverdict, hf, hcount, hchain, hrun, ?_⟩
  rcases hruns 0 (Int.le_refl 0) with ⟨henum, htimes⟩ | ⟨henum, -⟩
  · have hsame := hrun.symm.trans henum
    injection hsame with hsame
    injection hsame with hsame
    have hclock : 51 = f.machine.clock := congrArg Run.time (List.cons.inj hsame).1
    rw [htimes, ← hclock]
  · cases hrun.symm.trans henum

end CacheTiming
