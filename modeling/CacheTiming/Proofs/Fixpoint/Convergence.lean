import CacheTiming.Proofs.Fixpoint.Termination
import Mathlib.Data.DFinsupp.WellFounded

/-! Searches in a domain of finite height need no limit on their rounds.

At one location the states of a search do not only grow: a forward step replaces the state that it finds
there, and the loop at that location starts anew. It does so only after an earlier location was taken. A
round leaves the states of earlier locations alone or makes them grow, so if the locations are compared
in their order, the first one that has changed comes closer to the greatest height. This order is
well-founded, and a search with enough rounds goes on just as one with more of them. -/

namespace CacheTiming

variable {μ σ : Type}

/-- A domain whose states have a height. Widening by what is not covered makes a state higher, and
    neither merging nor comparing states fails. -/
structure Domain.FiniteHeight (D : Domain μ σ) (Good : σ → Prop) (height : σ → Nat) (top : Nat) : Prop where
  init : Good D.init
  height_le : ∀ {s}, Good s → height s ≤ top
  touch : ∀ {m m' s r address}, Good s → D.touch s address m = .ok r m' → Good r
  elapse : ∀ {m m' s r time}, Good s → D.elapse s time m = .ok r m' → Good r
  join : ∀ {s u} (m : μ), Good s → Good u → ∃ r m', D.join s u m = .ok r m' ∧ Good r ∧ height s ≤ height r
  widen : ∀ {s u} (m : μ), Good s → Good u →
    ∃ r m', D.widen s u m = .ok r m' ∧ Good r ∧ ∀ {n n'}, D.subseteq u s n = .ok false n' → height s < height r
  subseteq : ∀ {s u} (m : μ), Good s → Good u → ∃ covered m', D.subseteq s u m = .ok covered m'

/-- Only the states are read, and no machine is covered. -/
def Reading.states (μ : Type) (Good : σ → Prop) : Reading μ σ where
  Sane _ := True
  Later _ _ := True
  Fits _ s := Good s
  Covers _ _ _ := False

theorem Domain.FiniteHeight.sound {D : Domain μ σ} {Good : σ → Prop} {height : σ → Nat} {top : Nat}
    (hD : D.FiniteHeight Good height top) (d : Durations) : (Reading.states μ Good).Sound D d where
  refl _ := trivial
  trans _ _ := trivial
  fits _ h := h
  touch _ hs h := ⟨⟨trivial, trivial⟩, hD.touch hs h, fun _ hx _ => hx.elim⟩
  bottom _ _ _ := ⟨⟨trivial, trivial⟩, fun _ hx _ => hx.elim⟩
  elapse _ hs h := ⟨⟨trivial, trivial⟩, hD.elapse hs h, fun _ hx => hx⟩
  join {m _ s u _} _ hs hu h := by
    obtain ⟨r, m', hrun, hr, -⟩ := hD.join m hs hu
    cases hrun.symm.trans h
    exact ⟨⟨trivial, trivial⟩, hr, fun _ hx => hx, fun _ hx => hx⟩
  widen {m _ s u _} _ hs hu h := by
    obtain ⟨r, m', hrun, hr, -⟩ := hD.widen m hs hu
    cases hrun.symm.trans h
    exact ⟨⟨trivial, trivial⟩, hr, fun _ hx => hx, fun _ hx => hx⟩
  subseteq _ _ _ _ := ⟨⟨trivial, trivial⟩, fun _ _ _ _ hx => hx⟩

namespace Fixpoint

variable {D : Domain μ σ} {Good : σ → Prop} {height : σ → Nat} {top : Nat} {limits : Limits} {unroll : Int}
  {p : Program} {s s' t : Search μ σ} {loc l source : Location} {pc pc' : UInt64} {st st' : σ} {v : Visit σ}

/-! ### How far a location is from the greatest height -/

/-- The distance of the state at a location from the greatest height, counted twice to have room for
    one more while the location waits. -/
def Search.gap (s : Search μ σ) (height : σ → Nat) (top : Nat) (loc : Location) : Nat :=
  match s.visits[loc]? with
  | none => 2 * top + 2
  | some v => 2 * (top - height v.state) + if loc ∈ s.pending then 1 else 0

theorem gap_of_none (h : s.visits[loc]? = none) : s.gap height top loc = 2 * top + 2 := by
  simp only [Search.gap, h]

theorem gap_of_some (h : s.visits[loc]? = some v) :
    s.gap height top loc = 2 * (top - height v.state) + if loc ∈ s.pending then 1 else 0 := by
  simp only [Search.gap, h]

theorem gap_congr (hvisits : s'.visits[l]? = s.visits[l]?) (hpending : l ∈ s'.pending ↔ l ∈ s.pending) :
    s'.gap height top l = s.gap height top l := by
  simp only [Search.gap, hvisits, hpending]

theorem gap_queue {m : μ} : (s.queue m loc v).gap height top loc = 2 * (top - height v.state) + 1 := by
  have hv : (s.queue m loc v).visits[loc]? = some v := by rw [visits_queue, if_pos rfl]
  rw [gap_of_some hv, if_pos (mem_queue.mpr (Or.inl rfl))]

theorem gap_popped_lt (hs : s.pending.min? = some loc) (hv : s.visits[loc]? = some v) :
    (s.popped loc v).gap height top loc < s.gap height top loc := by
  have hv' : (s.popped loc v).visits[loc]? = some { v with done := true } := by rw [visits_popped, if_pos rfl]
  have hidle : loc ∉ (s.popped loc v).pending := fun h => (mem_popped.mp h).1 rfl
  rw [gap_of_some hv', gap_of_some hv, if_neg hidle, if_pos (mem_of_min hs)]
  exact Nat.lt_succ_self _

theorem gap_popped_of_ne (h : l ≠ loc) : (s.popped loc v).gap height top l = s.gap height top l := by
  refine gap_congr (by rw [visits_popped, if_neg h]) ?_
  rw [mem_popped]
  exact ⟨And.right, fun hl => ⟨h, hl⟩⟩

/-- Every state at a location has a property. -/
def Search.Each (P : σ → Prop) (s : Search μ σ) : Prop :=
  ∀ (loc : Location) (v : Visit σ), s.visits[loc]? = some v → P v.state

section Height
variable (hD : D.FiniteHeight Good height top)
include hD

theorem Passes.good (h : Passes D p pc st pc' st') (hst : Good st) : Good st' := by
  cases h with
  | touch op access => exact hD.touch hst access
  | elapse op pause => exact hD.elapse hst pause
  | pass op => exact hst
  | take op => exact hst
  | jump op => exact hst

/-- A state that arrives is good, and if its location is no later one than where it comes from, it does
    not widen the gap there. -/
theorem Arrival.gap_le (h : Arrival D limits (source.goesBack pc) (source.next limits.unroll pc) st s s')
    (hs : s.Scheduled) (hgood : s.Each Good) (hst : Good st) :
    s'.Each Good ∧ ∀ l, ¬ source.before l = true → s'.gap height top l ≤ s.gap height top l := by
  -- Only the state at the target is new, and only a backward jump leads to a target that is not later.
  suffices htarget : (∀ {w}, s'.visits[source.next limits.unroll pc]? = some w → Good w.state) ∧
      (source.goesBack pc = true →
        s'.gap height top (source.next limits.unroll pc) ≤ s.gap height top (source.next limits.unroll pc)) by
    constructor
    · intro l w hw
      by_cases hl : l = source.next limits.unroll pc
      · exact htarget.1 (hl ▸ hw)
      · exact hgood l w ((h.frame hl).1 ▸ hw)
    · intro l hl
      by_cases hne : l = source.next limits.unroll pc
      · subst hne
        exact htarget.2 (Location.next_of_not_before hl).1
      · exact Nat.le_of_eq (gap_congr (h.frame hne).1 (h.frame hne).2)
  have queued : ∀ {m : μ} {v w : Visit σ} {loc : Location}, Good v.state →
      (s.queue m loc v).visits[loc]? = some w → Good w.state := by
    intro m v w loc hv hw
    rw [visits_queue, if_pos rfl] at hw
    cases hw
    exact hv
  cases h with
  | fresh new eq =>
    subst eq
    refine ⟨queued hst, fun _ => ?_⟩
    rw [gap_queue, gap_of_none new]
    omega
  | @join v r m known waiting run eq =>
    subst eq
    obtain ⟨r', m', hrun, hr, hheight⟩ := hD.join s.memory (hgood _ v known) hst
    cases hrun.symm.trans run
    refine ⟨queued hr, fun _ => ?_⟩
    rw [gap_queue, gap_of_some known, if_pos (waiting.elim (hs.waits known) id)]
    dsimp only
    omega
  | skip known done idle test eq =>
    subst eq
    exact ⟨hgood _ _, fun _ => Nat.le_refl _⟩
  | @widen v r m m' known done idle test backward round run eq =>
    subst eq
    obtain ⟨r', m'', hrun, hr, hheight⟩ := hD.widen m (hgood _ v known) hst
    cases hrun.symm.trans run
    have hlt := hheight test
    have hle := hD.height_le hr
    refine ⟨queued hr, fun _ => ?_⟩
    rw [gap_queue, gap_of_some known, if_neg idle]
    dsimp only
    omega
  | replace known done idle test forward eq =>
    subst eq
    refine ⟨queued hst, fun hback => ?_⟩
    rw [forward] at hback
    cases hback

/-- A round narrows the gap at the location that it takes, and widens none at an earlier one. -/
theorem Round.gap_lt (h : Round D limits p s loc v s') (hs : s.Scheduled) (hgood : s.Each Good) :
    s'.Each Good ∧ (∀ l, ¬ loc.before l = true → s'.gap height top l ≤ s.gap height top l) ∧
      s'.gap height top loc < s.gap height top loc := by
  have hgood₀ := hgood loc v h.known
  have hpopped : (s.popped loc v).Each Good := by
    intro l w hw
    rw [visits_popped] at hw
    split at hw
    · cases hw
      exact hgood₀
    · exact hgood l w hw
  have hrun : (s.popped loc v).Scheduled → (s.popped loc v).Each Good → s'.Scheduled ∧ s'.Each Good ∧
      ∀ l, ¬ loc.before l = true → s'.gap height top l ≤ (s.popped loc v).gap height top l := by
    refine interpret_induction (Q := fun s s' => s.Scheduled → s.Each Good → s'.Scheduled ∧ s'.Each Good ∧
      ∀ l, ¬ loc.before l = true → s'.gap height top l ≤ s.gap height top l) ?_ ?_ ?_ h.run
    · intro s t u h₁ h₂ hs hgood
      obtain ⟨ht, hgt, hst⟩ := h₁ hs hgood
      obtain ⟨hu, hgu, htu⟩ := h₂ ht hgt
      exact ⟨hu, hgu, fun l hl => (htu l hl).trans (hst l hl)⟩
    · intro s t hlevel hs hgood
      refine ⟨hlevel.scheduled hs, fun l w hw => hgood l w (hlevel.visits ▸ hw), fun l _ => Nat.le_of_eq ?_⟩
      exact gap_congr (by rw [hlevel.visits]) (by rw [hlevel.pending])
    · intro s t pc st' hpass harrival hs hgood
      obtain ⟨hgt, hle⟩ := harrival.gap_le hD hs hgood (hpass.good hD hgood₀)
      exact ⟨harrival.scheduled hs, hgt, hle⟩
  obtain ⟨-, hgood', hle⟩ := hrun hs.popped hpopped
  refine ⟨hgood', fun l hl => ?_, ?_⟩
  · by_cases hne : l = loc
    · subst hne
      exact (hle l hl).trans (Nat.le_of_lt (gap_popped_lt h.first h.known))
    · exact (hle l hl).trans (Nat.le_of_eq (gap_popped_of_ne hne))
  · exact Nat.lt_of_le_of_lt (hle loc loc.before_irrefl) (gap_popped_lt h.first h.known)

end Height

/-! ### The order of searches -/

/-- The order of the locations of a program. -/
def Earlier (p : Program) (unroll : Int) (a b : { l // l ∈ locations p unroll }) : Prop := a.1.before b.1 = true

instance : IsStrictTotalOrder { l // l ∈ locations p unroll } (Earlier p unroll) where
  trichotomous _ _ hab hba := Subtype.ext (Location.eq_of_not_before hab hba)
  irrefl a := a.1.before_irrefl
  trans _ _ _ := Location.before_trans

/-- Whether a search is closer to its end than another: the first gap that differs is narrower. -/
def Search.Closer (p : Program) (unroll : Int) (height : σ → Nat) (top : Nat) (s' s : Search μ σ) : Prop :=
  Pi.Lex (Earlier p unroll) (· < ·) (fun l => s'.gap height top l.1) fun l => s.gap height top l.1

theorem wellFounded_closer (p : Program) (unroll : Int) (height : σ → Nat) (top : Nat) :
    WellFounded (Search.Closer p unroll height top : Search μ σ → Search μ σ → Prop) :=
  InvImage.wf (fun (s : Search μ σ) (l : { l // l ∈ locations p unroll }) => s.gap height top l.1)
    (Pi.Lex.wellFounded (Earlier p unroll) fun _ => Nat.lt_wfRel.wf)

theorem closer_of_gap_lt (hloc : loc ∈ locations p unroll)
    (hle : ∀ l, ¬ loc.before l = true → s'.gap height top l ≤ s.gap height top l)
    (hlt : s'.gap height top loc < s.gap height top loc) : s'.Closer p unroll height top s := by
  have hwf : WellFounded (Earlier p unroll) := Finite.wellFounded_of_trans_of_irrefl _
  obtain ⟨a, ⟨haloc, halt⟩, hmin⟩ := hwf.has_min
    { a | ¬ loc.before a.1 = true ∧ s'.gap height top a.1 < s.gap height top a.1 } ⟨⟨loc, hloc⟩, loc.before_irrefl, hlt⟩
  refine ⟨a, fun b hb => ?_, halt⟩
  have hbloc : ¬ loc.before b.1 = true := fun h => haloc (Location.before_trans h hb)
  by_contra hne
  exact hmin b ⟨hbloc, Nat.lt_of_le_of_ne (hle b.1 hbloc) hne⟩ hb

/-! ### Searches with enough rounds -/

/-- No counter of a location is above `n`. -/
def Search.RoundsLe (s : Search μ σ) (n : Nat) : Prop :=
  ∀ (loc : Location) (v : Visit σ), s.visits[loc]? = some v → v.rounds.toInt ≤ n

variable {n : Nat}

theorem Search.RoundsLe.mono {k : Nat} (hs : s.RoundsLe n) (h : n ≤ k) : s.RoundsLe k :=
  fun loc v hv => (hs loc v hv).trans (Int.ofNat_le.mpr h)

/-- A counter that is incremented grows by one or wraps around. -/
theorem toInt_succ_le (count : Int64) : (count + 1).toInt ≤ count.toInt + 1 := by
  rcases Int.lt_or_le count.toInt Int64.maxValue.toInt with h | h
  · exact (toInt_succ h).le
  · exact (Int64.toInt_le _).trans (h.trans (Int.le_add_one (Int.le_refl _)))

theorem Arrival.roundsLe {back : Bool} (h : Arrival D limits back loc st s s') (hs : s.RoundsLe n) :
    s'.RoundsLe (n + 1) := by
  intro l w hw
  by_cases hne : l = loc
  · subst hne
    have queued : ∀ {m : μ} {v : Visit σ}, (s.queue m l v).visits[l]? = some w → w = v := by
      intro m v hw
      rw [visits_queue, if_pos rfl] at hw
      exact (Option.some.inj hw).symm
    cases h with
    | fresh new eq =>
      cases queued (eq ▸ hw)
      exact Int.natCast_nonneg _
    | @join v r m known waiting run eq =>
      cases queued (eq ▸ hw)
      exact hs.mono (Nat.le_succ n) l v known
    | skip known done idle test eq =>
      subst eq
      exact hs.mono (Nat.le_succ n) l w hw
    | @widen v r m m' known done idle test backward round run eq =>
      cases queued (eq ▸ hw)
      exact (toInt_succ_le v.rounds).trans (Int.add_le_add_right (hs l v known) 1)
    | @replace v m known done idle test forward eq =>
      cases queued (eq ▸ hw)
      exact hs.mono (Nat.le_succ n) l v known
  · rw [(h.frame hne).1] at hw
    exact hs.mono (Nat.le_succ n) l w hw

section Enough
variable (hD : D.FiniteHeight Good height top)
include hD

/-- With enough rounds a state always arrives, and how many there are does not matter. -/
theorem exists_propagate (unroll : Int) (hgood : s.Each Good) (hst : Good st) (hrounds : s.RoundsLe n) (source : Location)
    (pc : UInt64) :
    ∃ s', ∀ rounds, ((n + 1 : Nat) : Int) ≤ rounds → propagate D { unroll, rounds } source pc st s = .ok () s' := by
  let s₀ := s.noting (source.goesBack pc)
  let loc := source.next unroll pc
  suffices harrival : ∃ s', ∀ rounds, ((n + 1 : Nat) : Int) ≤ rounds →
      Arrival D { unroll, rounds } (source.goesBack pc) loc st s₀ s' by
    obtain ⟨s', h⟩ := harrival
    exact ⟨s', fun rounds hn => propagate_of_arrival (h rounds hn)⟩
  cases hv : s₀.visits[loc]? with
  | none => exact ⟨_, fun _ _ => .fresh hv rfl⟩
  | some v =>
    have hvgood : Good v.state := hgood loc v hv
    by_cases hwaits : v.done = false ∨ loc ∈ s₀.pending
    · obtain ⟨r, m, hrun, -⟩ := hD.join s₀.memory hvgood hst
      exact ⟨_, fun _ _ => .join hv hwaits hrun rfl⟩
    · obtain ⟨hdone, hidle⟩ := not_or.mp hwaits
      have hdone : v.done = true := Bool.eq_true_of_not_eq_false hdone
      obtain ⟨covered, m, htest⟩ := hD.subseteq s₀.memory hst hvgood
      cases covered with
      | true => exact ⟨_, fun _ _ => .skip hv hdone hidle htest rfl⟩
      | false =>
        cases hback : source.goesBack pc with
        | false => exact ⟨_, fun _ _ => .replace hv hdone hidle htest rfl rfl⟩
        | true =>
          obtain ⟨r, m', hrun, -⟩ := hD.widen m hvgood hst
          have hle : (v.rounds + 1).toInt ≤ (n + 1 : Nat) :=
            (toInt_succ_le v.rounds).trans (Int.add_le_add_right (hrounds loc v hv) 1)
          exact ⟨_, fun rounds hn => .widen hv hdone hidle htest rfl (hle.trans hn) hrun rfl⟩

theorem exists_conclude (hst : Good st) (hfinal : ∀ f, s.final = some f → Good f) (loc : Location) :
    ∃ s', conclude D loc st s = .ok () s' := by
  cases hf : s.final with
  | none => exact ⟨_, conclude_of_none hf⟩
  | some f =>
    obtain ⟨r, m, hrun, -⟩ := hD.join s.memory (hfinal f hf) hst
    exact ⟨_, conclude_of_final hf hrun⟩

/-- With enough rounds the result of interpreting an instruction does not depend on how many there are,
    and it is never the want of a fixpoint. -/
theorem exists_interpret (p : Program) (unroll : Int) (hs : s.Scheduled) (hgood : s.Each Good) (hst : Good st)
    (hfinal : ∀ f, s.final = some f → Good f) (hrounds : s.RoundsLe n) (loc : Location) :
    ∃ result, (∀ t, result ≠ .error (.gaveUp .noFixpoint) t) ∧ ∀ rounds, ((n + 2 : Nat) : Int) ≤ rounds →
      interpret D { unroll, rounds } p loc st s = result := by
  have passed : ∀ {r : σ} (m : μ) (op : Opcode) (pc : UInt64), Good r → ∃ s', ∀ rounds, ((n + 2 : Nat) : Int) ≤ rounds →
      propagate D { unroll, rounds } loc pc r { s.logging (.step loc op) with memory := m } = .ok () s' := by
    intro r m op pc hr
    have hgood : { s.logging (.step loc op) with memory := m }.Each Good := hgood
    obtain ⟨s', h⟩ := exists_propagate hD unroll hgood hr hrounds loc pc
    exact ⟨s', fun rounds hn => h rounds (by omega)⟩
  cases hop : p.opAt loc.pc with
  | «undefined» code above => exact ⟨_, by simp, fun _ _ => interpret_undefined hop⟩
  | halt =>
    obtain ⟨s', h⟩ := exists_conclude (s := s.logging (.step loc .halt)) hD hst hfinal loc
    exact ⟨.ok () s', by simp, fun _ _ => interpret_conclude hop h⟩
  | touch =>
    cases ht : D.touch st (p.fetch loc.pc).arg s.memory with
    | ok r m =>
      obtain ⟨s', h⟩ := passed m .touch (loc.pc + 1) (hD.touch hst ht)
      exact ⟨.ok () s', by simp, fun rounds hn => interpret_touch hop ht (h rounds hn)⟩
    | error e m =>
      by_cases he : e = .bottom
      · subst he
        exact ⟨_, by simp, fun _ _ => interpret_bottom hop ht⟩
      · exact ⟨_, by simp, fun _ _ => interpret_touch_error hop he ht⟩
  | elapse =>
    cases ht : D.elapse st (p.fetch loc.pc).arg s.memory with
    | ok r m =>
      obtain ⟨s', h⟩ := passed m .elapse (loc.pc + 1) (hD.elapse hst ht)
      exact ⟨.ok () s', by simp, fun rounds hn => interpret_elapse hop ht (h rounds hn)⟩
    | error e m => exact ⟨_, by simp, fun _ _ => interpret_elapse_error hop ht⟩
  | branch =>
    obtain ⟨t, h₁⟩ := passed s.memory .branch (loc.pc + 1) hst
    -- The first arrival may have used up a round, so the second one needs one more.
    have harrival := propagate_eq_ok (h₁ (n + 2 : Nat) (Int.le_refl _))
    have ht : t.Each Good := (harrival.gap_le hD ⟨hs.known, hs.waits⟩ hgood hst).1
    obtain ⟨s', h₂⟩ := exists_propagate hD unroll ht hst (harrival.roundsLe hrounds) loc (p.fetch loc.pc).arg
    exact ⟨.ok () s', by simp, fun rounds hn => interpret_branch hop (h₁ rounds hn) (h₂ rounds hn)⟩
  | jump =>
    obtain ⟨s', h⟩ := passed s.memory .jump (p.fetch loc.pc).arg hst
    exact ⟨.ok () s', by simp, fun rounds hn => interpret_jump hop (h rounds hn)⟩

end Enough

theorem Search.RoundsLe.popped (hs : s.RoundsLe n) (hv : s.visits[loc]? = some v) : (s.popped loc v).RoundsLe n := by
  intro l w hw
  rw [visits_popped] at hw
  split at hw
  · cases hw
    exact hs loc v hv
  · exact hs l w hw

theorem Round.exists_roundsLe (h : Round D limits p s loc v s') (hs : s.RoundsLe n) : ∃ n, s'.RoundsLe n := by
  refine interpret_induction (Q := fun s s' => (∃ n, s.RoundsLe n) → ∃ n, s'.RoundsLe n) ?_ ?_ ?_ h.run
    ⟨n, hs.popped h.known⟩
  · exact fun h₁ h₂ hs => h₂ (h₁ hs)
  · rintro s t hlevel ⟨n, hn⟩
    exact ⟨n, fun l w hw => hn l w (hlevel.visits ▸ hw)⟩
  · rintro s t pc st' - harrival ⟨n, hn⟩
    exact ⟨n + 1, harrival.roundsLe hn⟩

/-- From some number of rounds and some amount of fuel on, a search has always the same result. -/
def Settles (D : Domain μ σ) (p : Program) (unroll : Int) (s : Search μ σ)
    (result : EStateM.Result Stop (Search μ σ) σ) : Prop :=
  ∃ (least : Int) (enough : Nat), ∀ rounds, least ≤ rounds → ∀ fuel, enough ≤ fuel →
    loop D { unroll, rounds } p fuel s = result

theorem settles_of_succ {result : EStateM.Result Stop (Search μ σ) σ} (least : Int) (enough : Nat)
    (h : ∀ rounds, least ≤ rounds → ∀ fuel, enough ≤ fuel → loop D { unroll, rounds } p (fuel + 1) s = result) :
    Settles D p unroll s result := by
  refine ⟨least, enough + 1, fun rounds hn fuel hfuel => ?_⟩
  obtain ⟨k, rfl⟩ := Nat.exists_eq_add_of_le' (Nat.le_trans (Nat.succ_pos enough) hfuel)
  exact h rounds hn k (Nat.le_of_succ_le_succ hfuel)

/-- In a domain of finite height every search settles, and never for want of a fixpoint. -/
theorem exists_settles (hD : D.FiniteHeight Good height top) (p : Program) (unroll : Int) (s : Search μ σ) :
    s.Scheduled → s.Confined p unroll → s.Holds (.states μ Good) → ∀ n, s.RoundsLe n →
      ∃ result, (∀ t, result ≠ .error (.gaveUp .noFixpoint) t) ∧ Settles D p unroll s result := by
  induction s using (wellFounded_closer p unroll height top).induction with
  | _ s ih =>
    intro hs hc hgood n hn
    rcases hs.empty_or_first with hnone | ⟨loc, v, hmin, hv⟩
    · refine ⟨finish s, fun t h => ?_, settles_of_succ 0 0 fun rounds _ fuel _ => loop_of_empty hnone fuel⟩
      cases (finish_eq_error h).1
    · have hpopped := hgood.popped hv
      have hvgood : Good v.state := hgood.visits hv
      obtain ⟨result, hne, hrun⟩ := exists_interpret hD p unroll hs.popped
        (fun _ _ hw => hpopped.visits hw) hvgood (fun _ hf => hpopped.final hf) (hn.popped hv) loc
      cases result with
      | error e t =>
        refine ⟨.error e t, fun t' h => ?_, settles_of_succ (n + 2 : Nat) 0 fun rounds hr fuel _ => ?_⟩
        · cases h
          exact hne t rfl
        · exact loop_of_error hmin hv (hrun rounds hr) fuel
      | ok _ t =>
        -- The round is the same for all numbers that are great enough, and what it leaves is closer to the end.
        have round : Round D { unroll, rounds := (n + 2 : Nat) } p s loc v t := ⟨hmin, hv, hrun _ (Int.le_refl _)⟩
        obtain ⟨-, hle, hlt⟩ := round.gap_lt hD hs fun _ _ hw => hgood.visits hw
        obtain ⟨k, hk⟩ := round.exists_roundsLe hn
        obtain ⟨ht, -⟩ := hpopped.interpret (hD.sound ⟨0, 0, 0⟩) hvgood round.run
        obtain ⟨result, hne, least, enough, h⟩ :=
          ih t (closer_of_gap_lt (hc _ _ hv) hle hlt) (round.scheduled hs) (round.confined hc) ht k hk
        refine ⟨result, hne, settles_of_succ (max (n + 2 : Nat) least) enough fun rounds hr fuel hf => ?_⟩
        rw [loop_of_ok hmin hv (hrun rounds (Int.le_trans (Int.le_max_left _ _) hr))]
        exact h rounds (Int.le_trans (Int.le_max_right _ _) hr) fuel hf

end Fixpoint

/-- With enough rounds, an analysis in a domain of finite height does not fail for want of a fixpoint, and
    more rounds change nothing. -/
theorem Domain.FiniteHeight.exists_analysis {D : Domain μ σ} {Good : σ → Prop} {height : σ → Nat} {top : Nat}
    (hD : D.FiniteHeight Good height top) (p : Program) (unroll : Int) (m : μ) :
    ∃ (least : Int) (a : Analysis μ σ), a.verdict ≠ .gaveUp .noFixpoint ∧
      ∀ rounds, least ≤ rounds → analyze D { unroll, rounds } p m = a := by
  have hrounds : (Fixpoint.Search.start D m).RoundsLe 0 := by
    intro loc v hv
    rw [Fixpoint.visits_start] at hv
    split at hv
    · cases hv
      exact Int.le_refl 0
    · cases hv
  obtain ⟨result, hne, least, enough, h⟩ := Fixpoint.exists_settles hD p unroll (.start D m)
    (Fixpoint.scheduled_start D m) (Fixpoint.confined_start D m) (Fixpoint.holds_start trivial hD.init) 0 hrounds
  refine ⟨max least enough, .ofResult result, Analysis.ofResult_ne_noFixpoint hne, fun rounds hr => ?_⟩
  obtain ⟨hleast, henough⟩ := Int.max_le.mp hr
  -- An analysis has more fuel than rounds.
  have hfuel : enough ≤ Fixpoint.bound p { unroll, rounds } := by
    refine Nat.le_trans ?_ (Fixpoint.rounds_le_bound p { unroll, rounds })
    exact Int.ofNat_le.mp (henough.trans (Int.self_le_toNat rounds))
  rw [analyze_eq_ofResult, h rounds hleast _ hfuel]

end CacheTiming
