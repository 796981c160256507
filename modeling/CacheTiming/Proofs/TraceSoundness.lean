import CacheTiming.Proofs.Domain.Watch
import CacheTiming.Proofs.Soundness
import CacheTiming.Proofs.Trace.Language

/-! What an analysis says about traces holds for every execution that halts, if no merge hides a real
node behind a placeholder.

Whether a merge does so is seen from the store before it, so the merges of an analysis are watched. Ids
are packed into four bytes to find nodes by their keys, so a store of more than `UInt32.size` nodes
could mistake one node for another. -/

namespace CacheTiming.Traced

variable {χ : Type} {t : Timing} {s u r : Traced χ} {status : Status} {w w' n : Watched Memory} {x x' : Machine}

/-- Whether merging two states hides the trace of one of them. -/
def hides (m : Memory) (s u : Traced χ) : Bool := m.store.hides s.trace u.trace || m.store.hides u.trace s.trace

/-- A watched memory has become another: its store has grown, and notes were added. -/
structure Later (w w' : Watched Memory) : Prop where
  grown : w.memory.store.Extends w'.memory.store
  noted : w.noted ≤ w'.noted

theorem Later.refl (w : Watched Memory) : Later w w := ⟨.refl _, Nat.le_refl _⟩

theorem Later.trans (h₁ : Later w w') (h₂ : Later w' n) : Later w n :=
  ⟨h₁.grown.trans h₂.grown, Nat.le_trans h₁.noted h₂.noted⟩

/-- The trace of a machine is one of a state's traces, as far as that can be said: if nothing was noted and
    all ids are told apart. -/
def Spelled (w : Watched Memory) (s : Traced χ) (x : Machine) : Prop :=
  w.noted = 0 → w.memory.store.size ≤ UInt32.size → w.memory.store.Spells s.trace x.trace

theorem Spelled.of_under (hx : Spelled n s x) (h : n.noted = 0 → n.memory.store.size ≤ UInt32.size →
    n.memory.store.Under s.trace u.trace) : Spelled n u x :=
  fun hnoted hsize => h hnoted hsize (hx hnoted hsize)

/-- A state covers machines whose caches its cache covers and whose traces it spells. -/
def traceReading (Valid : χ → Prop) (Covers : χ → RecencyCache → Prop) : Reading (Watched Memory) (Traced χ) where
  Sane w := w.memory.store.Regular
  Later := Later
  Fits w s := Valid s.cache ∧ s.trace < w.memory.store.size
  Covers w s x := Covers s.cache x.cache ∧ Spelled w s x

section Domain
variable {Valid : χ → Prop} {Covers : χ → RecencyCache → Prop}

/-- An observation adds a node whose traces end with what the status allows. -/
theorem observed_traces (hobs : Observed t s status w.memory.store r w'.memory.store) (hw : w.memory.store.Regular)
    (hs : Valid s.cache ∧ s.trace < w.memory.store.size) (hnoted : w'.noted = w.noted) :
    (traceReading Valid Covers).Kept w w' ∧ (traceReading Valid Covers).Fits w' r ∧
      ∀ {n x x' o}, Later w' n → o ∈ status.observations → x'.trace = x.trace ++ [o] → Covers s.cache x'.cache →
        Spelled n s x → (traceReading Valid Covers).Covers n r x' := by
  cases hobs with
  | intro hextended =>
    have hy := hw.extend hs.2 hextended
    refine ⟨⟨hy.regular, hy.grown, Nat.le_of_eq hnoted.symm⟩, ⟨hs.1, hy.lt⟩, ?_⟩
    intro n x x' o hn ho htrace hcov hx
    refine ⟨hcov, fun hnone hsize => ?_⟩
    have hfits := Nat.le_trans hy.grown.size (Nat.le_trans hn.grown.size hsize)
    obtain ⟨hstatus, hancestry⟩ := hw.node_extend hs.2 hfits hextended
    rw [← hn.grown.node hy.lt] at hstatus hancestry
    rw [htrace]
    exact .single hancestry (hx hnone hsize) (hstatus ▸ ho)

/-- A merge that hides nothing leads to a node with the traces of both sides. -/
theorem merged_traces {caches : χ → χ → Except Fault χ} (hcaches : CacheModel.Merges Valid Covers caches)
    (hw : w.memory.store.Regular) (hs : Valid s.cache ∧ s.trace < w.memory.store.size)
    (hu : Valid u.cache ∧ u.trace < w.memory.store.size) (hm : merge t Store.join caches s u w.memory = .ok r w'.memory)
    (hnoted : w'.noted = w.noted + (hides w.memory s u).toNat) :
    (traceReading Valid Covers).Merged w s u r w' := by
  obtain ⟨hjoin, hcache, -⟩ := merge_eq_ok hm
  obtain ⟨hv, hcov⟩ := hcaches hs.1 hu.1 hcache
  have hjoined := Store.join_eq_ok hjoin
  have hy := hjoined.yields hw hs.2 hu.2
  -- A later memory without notes shows that this merge hid nothing.
  have hunder : ∀ {n}, Later w' n → n.noted = 0 → n.memory.store.size ≤ UInt32.size →
      n.memory.store.Under s.trace r.trace ∧ n.memory.store.Under u.trace r.trace := by
    intro n hn hnone hsize
    have hhides : hides w.memory s u = false := by
      have := hn.noted
      rw [hnone, hnoted] at this
      cases h : hides w.memory s u with
      | false => rfl
      | true => simp [h] at this
    obtain ⟨hsu, hus⟩ := Bool.or_eq_false_iff.mp hhides
    have hfits := Nat.le_trans hy.grown.size (Nat.le_trans hn.grown.size hsize)
    obtain ⟨hl, hr⟩ := hjoined.under hw hs.2 hu.2 hfits hsu hus
    have hwf := hy.regular.toWellFormed
    have hsize := hy.grown.size
    exact ⟨hn.grown.under hwf (Nat.lt_of_lt_of_le hs.2 hsize) hy.lt hl,
      hn.grown.under hwf (Nat.lt_of_lt_of_le hu.2 hsize) hy.lt hr⟩
  refine ⟨⟨hy.regular, hy.grown, hnoted ▸ Nat.le_add_right _ _⟩, ⟨hv, hy.lt⟩, fun hn hx => ?_, fun hn hx => ?_⟩
  · exact ⟨hcov (.inl hx.1), hx.2.of_under fun hnone hsize => (hunder hn hnone hsize).1⟩
  · exact ⟨hcov (.inr hx.1), hx.2.of_under fun hnone hsize => (hunder hn hnone hsize).2⟩

theorem traces_sound [CacheModel χ] (h : CacheModel.Sound Valid Covers) (t : Timing) (initial : χ) :
    (traceReading Valid Covers).Sound ((domain t initial).watch hides) t.durations where
  refl := Later.refl
  trans := Later.trans
  fits hl hs := ⟨hs.1, Nat.lt_of_lt_of_le hs.2 hl.grown.size⟩
  touch {w w' s r address} hw hs ht := by
    obtain ⟨ht, hnoted⟩ := watched_eq_ok ht
    obtain ⟨o, status, cache, ho, hr, hobs⟩ := touch_eq_ok ht
    obtain ⟨hkept, hfits, hcovers⟩ := observed_traces hobs hw ⟨h.valid_resolved hs.1 ho hr, hs.2⟩ hnoted
    refine ⟨hkept, hfits, fun hn hx hx' => ?_⟩
    obtain ⟨hit, cache', ha, rfl⟩ := Machine.touch_eq_ok.mp hx'
    obtain ⟨hcov, hmem⟩ := h.covers_resolved hs.1 ho hr hx.1 ha
    exact hcovers hn hmem rfl hcov hx.2
  bottom {w w' s address} hw hs ht := by
    obtain ⟨ht, hnoted⟩ := watched_eq_error ht
    obtain ⟨o, ho, hhit, hmiss, hstore⟩ := touch_eq_bottom ht
    have hregular : w'.memory.store.Regular := hstore.symm ▸ hw
    have hgrown : w.memory.store.Extends w'.memory.store := hstore.symm ▸ .refl _
    refine ⟨⟨hregular, hgrown, Nat.le_of_eq hnoted.symm⟩, fun _ hx hx' => ?_⟩
    obtain ⟨hit, cache, ha, -⟩ := Machine.touch_eq_ok.mp hx'
    exact h.not_access hs.1 ho hhit hmiss hx.1 ha
  elapse hw hs he := by
    obtain ⟨he, hnoted⟩ := watched_eq_ok he
    obtain ⟨hv, hcov⟩ := h.elapse hs.1
    obtain ⟨hkept, hfits, hcovers⟩ := observed_traces (elapse_eq_ok he) hw ⟨hv, hs.2⟩ hnoted
    exact ⟨hkept, hfits, fun hn hx => hcovers hn (List.mem_singleton.mpr rfl) rfl (hcov hx.1) hx.2⟩
  join hw hs hu hm := by
    obtain ⟨hm, hnoted⟩ := noted_watched_eq_ok hm
    exact merged_traces h.join hw hs hu hm hnoted
  widen hw hs hu hm := by
    obtain ⟨hm, hnoted⟩ := noted_watched_eq_ok hm
    exact merged_traces h.widen hw hs hu hm hnoted
  subseteq {w w' s u covered} hw hs hu hm := by
    obtain ⟨hm, hnoted⟩ := watched_eq_ok hm
    obtain ⟨hmemory, hsub⟩ := subseteq_eq_ok hm
    have hregular : w'.memory.store.Regular := hmemory.symm ▸ hw
    have hgrown : w.memory.store.Extends w'.memory.store := hmemory.symm ▸ .refl _
    refine ⟨⟨hregular, hgrown, Nat.le_of_eq hnoted.symm⟩, fun hcovered n x hn hx => ?_⟩
    obtain ⟨hcache, -, htraces⟩ := hsub hcovered
    have hunder := (hgrown.trans hn.grown).under hw.toWellFormed hs.2 hu.2 (hw.under_of_subseteq htraces)
    exact ⟨h.subseteq hcache hx.1, hx.2.of_under fun _ _ => hunder⟩

end Domain

end CacheTiming.Traced

namespace CacheTiming

/-- The traces of all executions from the empty cache that halt. -/
def haltingTraces (p : Program) (d : Durations) (g : Geometry) : Set (List Observation) :=
  { trace | ∃ f, Path.Execution p d (.empty g) f ∧ f.machine.trace = trace }

/-- If no join and no widening of an analysis hides a real node behind a placeholder, the final node
    spells the trace of every execution that halts, so that its count bounds their number. -/
theorem halting_trace_spelled {c : Config} {p : Program} (hc : c.validate = .ok ()) {final : Traced AgeCache}
    (h : (analyze (Traced.domain c.timing (AgeCache.initial c.cache)) c.limits p {}).verdict = .converged final)
    (hhides : (analyze ((Traced.domain c.timing (AgeCache.initial c.cache)).watch Traced.hides) c.limits p
      { memory := {} }).memory.noted = 0)
    (hsize : (analyze (Traced.domain c.timing (AgeCache.initial c.cache)) c.limits p {}).memory.store.size ≤
      UInt32.size) :
    let store := (analyze (Traced.domain c.timing (AgeCache.initial c.cache)) c.limits p {}).memory.store
    (∀ f, Path.Execution p c.durations (.empty c.cache.geometry) f → store.Spells final.trace f.machine.trace) ∧
      (haltingTraces p c.durations c.cache.geometry).Finite ∧
      ((haltingTraces p c.durations c.cache.geometry).ncard : Int) ≤ store.count final.trace := by
  have hg := Config.supported_of_validate hc
  have hprojects := Domain.watch_projects (Traced.domain c.timing (AgeCache.initial c.cache)) Traced.hides
  obtain ⟨hverdict, hmemory⟩ := hprojects.analyze c.limits p { memory := {} }
  have hsound := Traced.traces_sound (AgeCache.sound hg) c.timing (AgeCache.initial c.cache)
  obtain ⟨hregular, hcovers⟩ := hsound.analyze (m := { memory := {} }) Store.regular_initial
    ⟨AgeCache.valid_initial c.cache, Nat.zero_lt_one⟩ (hverdict.symm.trans h)
  have hspells : ∀ f, Path.Execution p c.durations (.empty c.cache.geometry) f →
      (analyze (Traced.domain c.timing (AgeCache.initial c.cache)) c.limits p {}).memory.store.Spells final.trace
        f.machine.trace := by
    intro f hf
    have hwf := RecencyCache.wellFormed_empty c.cache.geometry
    have hcov := AgeCache.covers_initial hg hwf rfl fun _ => RecencyCache.blocks_empty _
    refine hmemory ▸ (hcovers (fun n hn => ⟨⟨hwf, rfl, hcov⟩, fun _ _ => ?_⟩) hf).2 hhides (hmemory ▸ hsize)
    have hroot : n.memory.store.node 0 = .root := hn.grown.node Nat.zero_lt_one
    exact .root (congrArg Node.ancestry hroot)
  refine ⟨hspells, Store.WellFormed.ncard_le_count (hmemory ▸ hregular.toWellFormed) ?_⟩
  rintro _ ⟨f, hf, rfl⟩
  exact hspells f hf

theorem detour_trace_spelled :
    let a := analyze (Traced.domain Config.standard.timing (AgeCache.initial Config.standard.cache))
      Config.standard.limits .detour {}
    ∃ final f, a.verdict = .converged final ∧
      Path.Execution .detour Config.standard.durations (.empty Config.standard.cache.geometry) f ∧
      a.memory.store.Spells final.trace f.machine.trace ∧
      (haltingTraces .detour Config.standard.durations Config.standard.cache.geometry).ncard ≤ 2 := by
  have hcount : (analyze (Traced.domain Config.standard.timing (AgeCache.initial Config.standard.cache))
      Config.standard.limits .detour {}).verdict.final?.map (fun final => (analyze (Traced.domain
      Config.standard.timing (AgeCache.initial Config.standard.cache)) Config.standard.limits .detour
      {}).memory.store.count final.trace) = some 2 := by
    rw [analyze, Fixpoint.loop_eq_loopListed]
    decide +kernel
  have hhides : (analyze ((Traced.domain Config.standard.timing (AgeCache.initial Config.standard.cache)).watch
      Traced.hides) Config.standard.limits .detour { memory := {} }).memory.noted = 0 := by
    rw [analyze, Fixpoint.loop_eq_loopListed]
    decide +kernel
  have hsize : (analyze (Traced.domain Config.standard.timing (AgeCache.initial Config.standard.cache))
      Config.standard.limits .detour {}).memory.store.size ≤ UInt32.size := by
    rw [analyze, Fixpoint.loop_eq_loopListed]
    decide +kernel
  obtain ⟨final, hfinal, hcount⟩ := Option.map_eq_some_iff.mp hcount
  obtain ⟨f, hf, -⟩ := Path.exists_execution_detour Config.standard.durations ∅
  have hverdict := Verdict.final?_eq_some.mp hfinal
  obtain ⟨hspells, -, hcard⟩ := halting_trace_spelled rfl hverdict hhides hsize
  rw [hcount] at hcard
  exact ⟨final, f, hverdict, hf, hspells f hf, Int.ofNat_le.mp hcard⟩

end CacheTiming
