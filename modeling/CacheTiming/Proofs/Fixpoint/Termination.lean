import CacheTiming.Proofs.Fixpoint.Schedule
import CacheTiming.Proofs.Fixpoint.Stops
import CacheTiming.Proofs.Machine.Termination
import Mathlib.Algebra.Order.BigOperators.Group.Finset
import Mathlib.Data.Finset.Prod

/-! Every search stops, whatever its domain does, unless its rounds have the greatest limit.

A round either takes a later location than the one before, or it follows a backward jump at the limit of
the depth. Such a jump has reached its target for the first time or has used up one of the rounds that are
allowed there, so every location at the limit has a credit that pays for the jumps to it. Between two of
these jumps the locations ascend. The sum of what is ahead and of what the credits can still cause
decreases in every round.

Credits are used up because a counter gets over its limit. No counter gets over the greatest limit, and with
it a search in which nothing is ever covered goes on for ever. -/

namespace CacheTiming

/-! ### Places and locations of a program -/

/-- The places that an execution can come to: the start, those behind an instruction, and those that
    instructions name. -/
def Program.places (p : Program) : Finset UInt64 :=
  insert 0 ((Finset.range p.code.length).image (fun i => i.toUInt64 + 1) ∪ (p.code.map Instruction.arg).toFinset)

theorem Program.card_places_le (p : Program) : p.places.card ≤ 2 * p.code.length + 1 := by
  have hnext := Finset.card_image_le (s := Finset.range p.code.length) (f := fun i => i.toUInt64 + 1)
  have htarget := List.toFinset_card_le (p.code.map Instruction.arg)
  have hunion := Finset.card_union_le ((Finset.range p.code.length).image fun i => i.toUInt64 + 1)
    (p.code.map Instruction.arg).toFinset
  have hinsert := Finset.card_insert_le 0
    ((Finset.range p.code.length).image (fun i => i.toUInt64 + 1) ∪ (p.code.map Instruction.arg).toFinset)
  rw [Finset.card_range] at hnext
  rw [List.length_map] at htarget
  unfold places
  omega

theorem Program.Flows.mem_places {p : Program} {pc pc' : UInt64} (h : p.Flows pc pc') : pc' ∈ p.places := by
  have hlt := h.lt_length
  refine Finset.mem_insert_of_mem ?_
  cases h with
  | next op =>
    refine Finset.mem_union_left _ (Finset.mem_image.mpr ⟨pc.toNat, Finset.mem_range.mpr hlt, ?_⟩)
    rw [Nat.toUInt64_eq, UInt64.ofNat_toNat]
  | target op =>
    refine Finset.mem_union_right _ (List.mem_toFinset.mpr (List.mem_map.mpr ⟨p.fetch pc, ?_, rfl⟩))
    rw [fetch, List.getD_eq_getElem?_getD, List.getElem?_eq_getElem hlt]
    exact List.getElem_mem hlt

namespace Fixpoint

/-- The locations that a search in a program can come to. -/
def locations (p : Program) (unroll : Int) : Finset Location :=
  (p.places ×ˢ Finset.range (unroll.toNat + 1)).image fun l => { pc := l.1, depth := l.2 }

variable {μ σ : Type} {D : Domain μ σ} {limits : Limits} {unroll : Int} {p : Program} {s s' t : Search μ σ}
  {loc l : Location} {pc : UInt64} {st : σ} {v : Visit σ}

theorem mem_locations :
    loc ∈ locations p unroll ↔ loc.pc ∈ p.places ∧ 0 ≤ loc.depth ∧ loc.depth ≤ unroll.toNat := by
  simp only [locations, Finset.mem_image, Finset.mem_product, Finset.mem_range, Prod.exists]
  constructor
  · rintro ⟨pc, depth, ⟨hpc, hdepth⟩, rfl⟩
    exact ⟨hpc, by simp, by simp; omega⟩
  · rintro ⟨hpc, hpos, hdepth⟩
    refine ⟨loc.pc, loc.depth.toNat, ⟨hpc, by omega⟩, ?_⟩
    rw [Int.toNat_of_nonneg hpos]

theorem card_locations_le : (locations p unroll).card ≤ p.places.card * (unroll.toNat + 1) := by
  refine Finset.card_image_le.trans (Nat.le_of_eq ?_)
  rw [Finset.card_product, Finset.card_range]

theorem next_mem_locations (hloc : loc ∈ locations p unroll) (hpc : pc ∈ p.places) :
    loc.next unroll pc ∈ locations p unroll := by
  rw [mem_locations] at hloc ⊢
  refine ⟨hpc, ?_⟩
  simp only [Location.next, Bool.and_eq_true, decide_eq_true_eq]
  split <;> omega

/-- The states of a search are at locations of the program. -/
abbrev Search.Confined (p : Program) (unroll : Int) (s : Search μ σ) : Prop := s.Within (· ∈ locations p unroll)

theorem confined_start (D : Domain μ σ) (m : μ) : (Search.start D m).Confined p unroll :=
  within_start D m (mem_locations.mpr ⟨Finset.mem_insert_self _ _, Int.le_refl 0, Int.natCast_nonneg _⟩)

theorem Round.confined (h : Round D limits p s loc v s') (hs : s.Confined p limits.unroll) :
    s'.Confined p limits.unroll :=
  h.within hs fun hloc hflows => next_mem_locations hloc hflows.mem_places

/-! ### Rounds -/

/-- A scheduled search in which no state was widened more often than is allowed, by a limit that counters can get
    over. -/
structure Search.Counted (limits : Limits) (s : Search μ σ) : Prop extends s.Scheduled where
  limited : limits.rounds < Int64.maxValue.toInt
  counted : ∀ {loc : Location} {v : Visit σ}, s.visits[loc]? = some v →
    0 ≤ v.rounds.toInt ∧ v.rounds.toInt ≤ limits.rounds.toNat

theorem counted_start (D : Domain μ σ) (hlimit : limits.rounds < Int64.maxValue.toInt) (m : μ) :
    (Search.start D m).Counted limits where
  toScheduled := scheduled_start D m
  limited := hlimit
  counted hv := by
    rw [visits_start] at hv
    split at hv
    · cases hv
      simp
    · cases hv

theorem Search.Counted.queue (hs : s.Counted limits) {m : μ}
    (hv : 0 ≤ v.rounds.toInt ∧ v.rounds.toInt ≤ limits.rounds.toNat) : (s.queue m loc v).Counted limits where
  toScheduled := hs.toScheduled.queue
  limited := hs.limited
  counted hw := by
    rw [visits_queue] at hw
    split at hw
    · cases hw
      exact hv
    · exact hs.counted hw

theorem Search.Counted.popped (hs : s.Counted limits) (hv : s.visits[loc]? = some v) : (s.popped loc v).Counted limits where
  toScheduled := hs.toScheduled.popped
  limited := hs.limited
  counted hw := by
    rw [visits_popped] at hw
    split at hw
    · cases hw
      have hrange := hs.counted hv
      exact hrange
    · exact hs.counted hw

theorem Search.Level.counted (h : s.Level s') (hs : s.Counted limits) : s'.Counted limits where
  toScheduled := h.scheduled hs.toScheduled
  limited := hs.limited
  counted hv := hs.counted (h.visits ▸ hv)

/-- One more round does not make a counter wrap around. -/
theorem Search.Counted.toInt_succ (hs : s.Counted limits) (hv : s.visits[loc]? = some v) :
    (v.rounds + 1).toInt = v.rounds.toInt + 1 := by
  have hpos : 0 < Int64.maxValue.toInt := by decide
  have hlimit := hs.limited
  have hle := (hs.counted hv).2
  exact CacheTiming.toInt_succ (by omega)

theorem Arrival.counted {back : Bool} (h : Arrival D limits back loc st s s') (hs : s.Counted limits) :
    s'.Counted limits := by
  cases h with
  | fresh new eq =>
    subst eq
    exact hs.queue (by simp)
  | join known waiting run eq =>
    subst eq
    have hrange := hs.counted known
    exact hs.queue hrange
  | skip known done idle test eq =>
    subst eq
    exact ⟨⟨hs.known, hs.waits⟩, hs.limited, hs.counted⟩
  | widen known done idle test backward round run eq =>
    subst eq
    have hsucc := hs.toInt_succ known
    have hrange := hs.counted known
    exact hs.queue ⟨by dsimp only; omega, by dsimp only; omega⟩
  | replace known done idle test forward eq =>
    subst eq
    have hrange := hs.counted known
    exact hs.queue hrange

/-! ### Credits -/

/-- How many backward jumps to a location can still have it interpreted: the first one to reach it, and
    the rounds that are left. -/
def Search.credit (s : Search μ σ) (limits : Limits) (loc : Location) : Nat :=
  match s.visits[loc]? with
  | none => limits.rounds.toNat + 1
  | some v => limits.rounds.toNat - v.rounds.toInt.toNat

theorem credit_of_none (limits : Limits) (h : s.visits[loc]? = none) : s.credit limits loc = limits.rounds.toNat + 1 := by
  simp only [Search.credit, h]

theorem credit_of_some (limits : Limits) (h : s.visits[loc]? = some v) :
    s.credit limits loc = limits.rounds.toNat - v.rounds.toInt.toNat := by
  simp only [Search.credit, h]

theorem credit_le (s : Search μ σ) (limits : Limits) (loc : Location) :
    s.credit limits loc ≤ limits.rounds.toNat + 1 := by
  unfold Search.credit
  split <;> omega

theorem credit_queue {m : μ} : (s.queue m loc v).credit limits l =
    if l = loc then limits.rounds.toNat - v.rounds.toInt.toNat else s.credit limits l := by
  by_cases h : l = loc
  · rw [if_pos h]
    exact credit_of_some limits (by rw [visits_queue, if_pos h])
  · rw [if_neg h]
    simp only [Search.credit, visits_queue, if_neg h]

theorem credit_popped (limits : Limits) (hv : s.visits[loc]? = some v) :
    (s.popped loc v).credit limits l = s.credit limits l := by
  by_cases h : l = loc
  · subst h
    have hpopped : (s.popped l v).visits[l]? = some { v with done := true } := by rw [visits_popped, if_pos rfl]
    rw [credit_of_some limits hv, credit_of_some limits hpopped]
  · simp only [Search.credit, visits_popped, if_neg h]

/-- From `s` to `s'` no credit grows, and what waits newly is later than the source or was paid for. -/
structure Search.Spends (limits : Limits) (source : Location) (s s' : Search μ σ) : Prop where
  credit : ∀ l, s'.credit limits l ≤ s.credit limits l
  pending : ∀ l ∈ s'.pending, l ∈ s.pending ∨ source.before l = true ∨
    limits.unroll ≤ source.depth ∧ l.depth = source.depth ∧ s'.credit limits l < s.credit limits l

theorem Search.Spends.trans {source : Location} (h₁ : s.Spends limits source t) (h₂ : t.Spends limits source s') :
    s.Spends limits source s' where
  credit l := Nat.le_trans (h₂.credit l) (h₁.credit l)
  pending l hl := by
    rcases h₂.pending l hl with hl | hl | ⟨hlimit, hdepth, hlt⟩
    · rcases h₁.pending l hl with hl | hl | ⟨hlimit, hdepth, hlt⟩
      · exact Or.inl hl
      · exact Or.inr (Or.inl hl)
      · exact Or.inr (Or.inr ⟨hlimit, hdepth, Nat.lt_of_le_of_lt (h₂.credit l) hlt⟩)
    · exact Or.inr (Or.inl hl)
    · exact Or.inr (Or.inr ⟨hlimit, hdepth, Nat.lt_of_lt_of_le hlt (h₁.credit l)⟩)

theorem Search.Level.spends {source : Location} (h : s.Level s') : s.Spends limits source s' where
  credit l := by
    simp only [Search.credit, h.visits]
    exact Nat.le_refl _
  pending l hl := Or.inl (h.pending ▸ hl)

/-- A state that is kept at a location spends credit there if it comes from a backward jump at the
    limit. -/
theorem spends_queue {source : Location} {m : μ}
    (hle : limits.rounds.toNat - v.rounds.toInt.toNat ≤ s.credit limits loc)
    (hnew : loc ∈ s.pending ∨ source.before loc = true ∨
      limits.unroll ≤ source.depth ∧ loc.depth = source.depth ∧
        limits.rounds.toNat - v.rounds.toInt.toNat < s.credit limits loc) :
    s.Spends limits source (s.queue m loc v) where
  credit l := by
    rw [credit_queue]
    split
    · rename_i heq
      exact heq ▸ hle
    · exact Nat.le_refl _
  pending l hl := by
    rcases mem_queue.mp hl with rfl | hl
    · rw [credit_queue, if_pos rfl]
      exact hnew
    · exact Or.inl hl

theorem Arrival.spends {source : Location} (hs : s.Counted limits)
    (h : Arrival D limits (source.goesBack pc) (source.next limits.unroll pc) st s s') :
    s.Spends limits source s' := by
  -- A target that is no later location is at the limit of the depth, where the jump has to be paid for.
  have hnew : ∀ {credit : Nat}, (source.goesBack pc = true → credit < s.credit limits (source.next limits.unroll pc)) →
      source.before (source.next limits.unroll pc) = true ∨ limits.unroll ≤ source.depth ∧
        (source.next limits.unroll pc).depth = source.depth ∧
          credit < s.credit limits (source.next limits.unroll pc) := by
    intro credit hlt
    by_cases hbefore : source.before (source.next limits.unroll pc) = true
    · exact Or.inl hbefore
    · obtain ⟨hback, hlimit, hnext⟩ := Location.next_of_not_before hbefore
      exact Or.inr ⟨hlimit, by rw [hnext], hlt hback⟩
  cases h with
  | fresh new eq =>
    subst eq
    have hcredit := credit_of_none limits new
    refine spends_queue (by omega) (Or.inr (hnew fun _ => ?_))
    omega
  | join known waiting run eq =>
    subst eq
    have hcredit := credit_of_some limits known
    exact spends_queue (Nat.le_of_eq hcredit.symm) (Or.inl (waiting.elim (hs.waits known) id))
  | skip known done idle test eq =>
    subst eq
    exact Search.Level.spends ⟨rfl, rfl⟩
  | widen known done idle test backward round run eq =>
    subst eq
    have hcredit := credit_of_some limits known
    have hsucc := hs.toInt_succ known
    have hrange := hs.counted known
    refine spends_queue ?_ (Or.inr (hnew fun _ => ?_)) <;> dsimp only <;> omega
  | replace known done idle test forward eq =>
    subst eq
    have hcredit := credit_of_some limits known
    refine spends_queue (Nat.le_of_eq hcredit.symm) (Or.inr (hnew fun hback => ?_))
    rw [forward] at hback
    cases hback

/-- What one round spends. -/
theorem Round.spends (h : Round D limits p s loc v s') (hs : s.Counted limits) :
    s'.Counted limits ∧ (s.popped loc v).Spends limits loc s' := by
  refine interpret_induction (Q := fun s s' => s.Counted limits → s'.Counted limits ∧ s.Spends limits loc s')
    ?_ ?_ ?_ h.run (hs.popped h.known)
  · intro s t u h₁ h₂ hs
    obtain ⟨ht, hst⟩ := h₁ hs
    obtain ⟨hu, htu⟩ := h₂ ht
    exact ⟨hu, hst.trans htu⟩
  · exact fun hlevel hs => ⟨hlevel.counted hs, hlevel.spends⟩
  · exact fun _ harrival hs => ⟨harrival.counted hs, harrival.spends hs⟩

/-! ### What is left to do -/

/-- The locations from `loc` on. -/
def ahead (p : Program) (unroll : Int) (loc : Location) : Finset Location :=
  (locations p unroll).filter fun l => l.before loc = false

/-- The credits of all locations at the limit of the depth. -/
def Search.credits (s : Search μ σ) (p : Program) (limits : Limits) : Nat :=
  ∑ pc ∈ p.places, s.credit limits { pc, depth := limits.unroll.toNat }

/-- A bound on the rounds that a search can still make if `loc` is the first location that waits. -/
def Search.toDo (s : Search μ σ) (p : Program) (limits : Limits) (loc : Location) : Nat :=
  p.places.card * s.credits p limits + (ahead p limits.unroll loc).card

theorem mem_ahead : l ∈ ahead p unroll loc ↔ l ∈ locations p unroll ∧ ¬ l.before loc = true := by
  rw [ahead, Finset.mem_filter, Bool.not_eq_true]

theorem self_mem_ahead (h : loc ∈ locations p unroll) : loc ∈ ahead p unroll loc :=
  mem_ahead.mpr ⟨h, loc.before_irrefl⟩

theorem card_ahead_lt (hloc : loc ∈ locations p unroll) (h : loc.before l = true) :
    (ahead p unroll l).card < (ahead p unroll loc).card := by
  refine Finset.card_lt_card ((Finset.ssubset_iff_of_subset fun q hq => ?_).mpr ⟨loc, self_mem_ahead hloc, fun hq => ?_⟩)
  · obtain ⟨hq, hbefore⟩ := mem_ahead.mp hq
    exact mem_ahead.mpr ⟨hq, fun hqloc => hbefore (Location.before_trans hqloc h)⟩
  · exact (mem_ahead.mp hq).2 h

/-- Ahead of a location at the limit of the depth are only locations at the limit. -/
theorem card_ahead_le (h : loc.depth = unroll.toNat) : (ahead p unroll loc).card ≤ p.places.card := by
  refine (Finset.card_le_card fun q hq => ?_).trans
    (Finset.card_image_le (f := fun pc => ({ pc, depth := unroll.toNat } : Location)))
  obtain ⟨hq, hbefore⟩ := mem_ahead.mp hq
  obtain ⟨hpc, -, hdepth⟩ := mem_locations.mp hq
  rw [Location.before_iff] at hbefore
  have hdepth : q.depth = unroll.toNat := by omega
  exact Finset.mem_image.mpr ⟨q.pc, hpc, by rw [← hdepth]⟩

theorem credits_le_of_le (h : ∀ l, s'.credit limits l ≤ s.credit limits l) : s'.credits p limits ≤ s.credits p limits :=
  Finset.sum_le_sum fun _ _ => h _

theorem credits_lt_of_lt (h : ∀ l, s'.credit limits l ≤ s.credit limits l) (hloc : loc ∈ locations p limits.unroll)
    (hdepth : loc.depth = limits.unroll.toNat) (hlt : s'.credit limits loc < s.credit limits loc) :
    s'.credits p limits < s.credits p limits := by
  refine Finset.sum_lt_sum (fun _ _ => h _) ⟨loc.pc, (mem_locations.mp hloc).1, ?_⟩
  rw [← hdepth]
  exact hlt

/-- A round leaves less to do. -/
theorem Round.toDo_lt (h : Round D limits p s loc v s') (hs : s.Counted limits) (hc : s.Confined p limits.unroll)
    (hnext : s'.pending.min? = some l) : s'.toDo p limits l < s.toDo p limits loc := by
  obtain ⟨hs', hspends⟩ := h.spends hs
  have hloc := hc loc v h.known
  have hcredit : ∀ l, s'.credit limits l ≤ s.credit limits l := fun l =>
    credit_popped limits h.known ▸ hspends.credit l
  -- Going on at a later location, the search leaves the one behind that it took.
  have onward : loc.before l = true → s'.toDo p limits l < s.toDo p limits loc := fun hbefore =>
    Nat.add_lt_add_of_le_of_lt (Nat.mul_le_mul_left _ (credits_le_of_le hcredit)) (card_ahead_lt hloc hbefore)
  rcases hspends.pending l (mem_of_min hnext) with hl | hl | ⟨hlimit, hdepth, hlt⟩
  · exact onward (before_of_mem_popped h.first hl)
  · exact onward hl
  · -- Going back, it has spent a credit, which pays for all that is ahead at the limit.
    obtain ⟨w, hw⟩ := hs'.known (mem_of_min hnext)
    have hl := h.confined hc l w hw
    have hbounds := (mem_locations.mp hl).2
    have hdepth : l.depth = limits.unroll.toNat := by omega
    rw [credit_popped limits h.known] at hlt
    have hcredits := credits_lt_of_lt hcredit hl hdepth hlt
    have hahead := card_ahead_le (p := p) hdepth
    have hself : 0 < (ahead p limits.unroll loc).card := Finset.card_pos.mpr ⟨loc, self_mem_ahead hloc⟩
    calc s'.toDo p limits l
        ≤ p.places.card * s'.credits p limits + p.places.card := Nat.add_le_add_left hahead _
      _ = p.places.card * (s'.credits p limits + 1) := (Nat.mul_succ _ _).symm
      _ ≤ p.places.card * s.credits p limits := Nat.mul_le_mul_left _ hcredits
      _ < s.toDo p limits loc := Nat.lt_add_of_pos_right hself

theorem Round.toDo_pos (h : Round D limits p s loc v s') (hc : s.Confined p limits.unroll) : 0 < s.toDo p limits loc :=
  Nat.add_pos_right _ (Finset.card_pos.mpr ⟨loc, self_mem_ahead (hc loc v h.known)⟩)

theorem rounds_le_bound (p : Program) (limits : Limits) : limits.rounds.toNat ≤ bound p limits := by
  have h : 1 * (limits.rounds.toNat + 1) ≤
      (2 * p.code.length + 1) * (2 * p.code.length + 1) * (limits.rounds.toNat + 1) :=
    Nat.mul_le_mul_right _ (Nat.mul_pos (Nat.succ_pos _) (Nat.succ_pos _))
  show limits.rounds.toNat ≤ _ + _ + 1
  omega

theorem toDo_lt_bound (s : Search μ σ) (p : Program) (limits : Limits) (loc : Location) :
    s.toDo p limits loc < bound p limits := by
  have hplaces := p.card_places_le
  have hcredits : s.credits p limits ≤ p.places.card * (limits.rounds.toNat + 1) :=
    Finset.sum_le_card_nsmul _ _ _ fun pc _ => credit_le s limits _
  have hahead : (ahead p limits.unroll loc).card ≤ p.places.card * (limits.unroll.toNat + 1) :=
    (Finset.card_le_card (Finset.filter_subset _ _)).trans card_locations_le
  have h₁ : p.places.card * s.credits p limits ≤
      (2 * p.code.length + 1) * (2 * p.code.length + 1) * (limits.rounds.toNat + 1) := by
    rw [Nat.mul_assoc]
    exact Nat.mul_le_mul hplaces (hcredits.trans (Nat.mul_le_mul_right _ hplaces))
  have h₂ : (ahead p limits.unroll loc).card ≤ (2 * p.code.length + 1) * (limits.unroll.toNat + 1) :=
    hahead.trans (Nat.mul_le_mul_right _ hplaces)
  simp only [Search.toDo, bound]
  omega

/-! ### The length of a search -/

/-- A search makes fewer rounds than any number that is above what there is to do. -/
theorem Rounds.length_lt {locs : List Location} (h : Rounds D limits p s locs s') :
    ∀ {n : Nat}, 0 < n → (∀ loc, s.pending.min? = some loc → s.toDo p limits loc < n) → s.Counted limits →
      s.Confined p limits.unroll → locs.length < n := by
  induction h with
  | nil => exact fun hn _ _ _ => hn
  | @cons s t u loc v locs round rest ih =>
    intro n _ htoDo hs hc
    have hlt := htoDo loc round.first
    have hpos := round.toDo_pos hc
    have hrest : locs.length < s.toDo p limits loc :=
      ih hpos (fun l hl => round.toDo_lt hs hc hl) (round.spends hs).1 (round.confined hc)
    rw [List.length_cons]
    omega

theorem loop_ne_exhausted : ∀ {fuel : Nat} {s : Search μ σ}, 0 < fuel →
    (∀ loc, s.pending.min? = some loc → s.toDo p limits loc < fuel) → s.Counted limits → s.Confined p limits.unroll →
      ∀ s', loop D limits p fuel s ≠ .error .exhausted s'
  | 0, _, hfuel, _, _, _, _ => absurd hfuel (Nat.lt_irrefl 0)
  | fuel + 1, s, _, htoDo, hs, hc, s' => by
    intro h
    rcases loop_cases D limits p hs.toScheduled with ⟨-, hloop⟩ | ⟨loc, v, t, round, hloop⟩ | ⟨loc, v, e, t, -, hrun, hloop⟩
    · cases (finish_eq_error ((hloop fuel).symm.trans h)).1
    · have hlt := htoDo loc round.first
      have hpos := round.toDo_pos hc
      have hfuel : 0 < fuel := by omega
      refine loop_ne_exhausted hfuel (fun l hl => ?_) (round.spends hs).1 (round.confined hc) s'
        ((hloop fuel).symm.trans h)
      have hless := round.toDo_lt hs hc hl
      omega
    · cases (hloop fuel).symm.trans h
      rcases interpret_eq_error hrun with hmerging | ⟨heq, -⟩
      · cases hmerging
      · cases heq

/-- More fuel changes nothing once there was enough. -/
theorem loop_add_fuel (more : Nat) : ∀ {fuel : Nat} {s : Search μ σ}, s.Scheduled →
    (∀ s', loop D limits p fuel s ≠ .error .exhausted s') → loop D limits p (fuel + more) s = loop D limits p fuel s
  | 0, s, _, h => absurd rfl (h s)
  | fuel + 1, s, hs, h => by
    rw [Nat.add_right_comm]
    rcases loop_cases D limits p hs with ⟨-, hloop⟩ | ⟨loc, v, t, round, hloop⟩ | ⟨loc, v, e, t, -, -, hloop⟩
    · rw [hloop, hloop]
    · rw [hloop] at h ⊢
      rw [hloop]
      exact loop_add_fuel more (round.scheduled hs) h
    · rw [hloop, hloop]

/-- Whatever a domain does, a search whose rounds are not allowed the greatest number makes fewer rounds than the
    bound that its loop is given. So this bound is never what ends an analysis, and a greater one would change
    nothing. -/
theorem rounds_lt_bound (D : Domain μ σ) {limits : Limits} (hlimit : limits.rounds < Int64.maxValue.toInt) (p : Program)
    (m : μ) :
    (∀ {locs : List Location} {s : Search μ σ}, Rounds D limits p (.start D m) locs s →
      locs.length < bound p limits) ∧
    (∀ s, loop D limits p (bound p limits) (.start D m) ≠ .error .exhausted s) ∧
    ∀ {fuel : Nat}, bound p limits ≤ fuel →
      loop D limits p fuel (.start D m) = loop D limits p (bound p limits) (.start D m) := by
  have hs := counted_start D hlimit m
  have hc : (Search.start D m).Confined p limits.unroll := confined_start D m
  have htoDo : ∀ loc, (Search.start D m).pending.min? = some loc → (Search.start D m).toDo p limits loc < bound p limits :=
    fun _ _ => toDo_lt_bound ..
  have hends := loop_ne_exhausted (D := D) (Nat.succ_pos _) htoDo hs hc
  refine ⟨fun h => h.length_lt (Nat.succ_pos _) htoDo hs hc, hends, fun hle => ?_⟩
  obtain ⟨more, rfl⟩ := Nat.exists_eq_add_of_le hle
  exact loop_add_fuel more hs.toScheduled hends

/-! ### The greatest limit -/

/-- A domain in which nothing covers anything. -/
def restless : Domain Unit Unit where
  init := ()
  touch _ _ := pure ()
  elapse _ _ := pure ()
  join _ _ := pure ()
  widen _ _ := pure ()
  subseteq _ _ := pure false

theorem restless_rounds_lt_bound :
    (2 : Int) < Int64.maxValue.toInt ∧ bound .spinning { unroll := 0, rounds := 2 } = 31 ∧
    (∀ {locs : List Location} {s : Search Unit Unit},
      Rounds restless { unroll := 0, rounds := 2 } .spinning (.start restless ()) locs s → locs.length < 31) ∧
    ∀ s, loop restless { unroll := 0, rounds := 2 } .spinning 31 (.start restless ()) ≠ .error .exhausted s := by
  have hlimit : ({ unroll := 0, rounds := 2 } : Limits).rounds < Int64.maxValue.toInt := by decide
  obtain ⟨hrounds, hends, -⟩ := rounds_lt_bound restless hlimit .spinning ()
  exact ⟨hlimit, rfl, hrounds, hends⟩

/-- As many rounds as a limit can allow, and nothing unrolled. -/
def greatest : Limits := { unroll := 0, rounds := Int64.maxValue.toInt }

/-- The only location of a jump to itself waits and has a state. -/
structure Spins (s : Search Unit Unit) : Prop where
  waits : ∀ l, l ∈ s.pending ↔ l = .start
  known : ∃ v, s.visits[Location.start]? = some v

theorem spins_start : Spins (.start restless ()) where
  waits _ := mem_start
  known := ⟨_, by rw [visits_start, if_pos rfl]⟩

/-- With the greatest limit a round leads to another one: no counter is over it, so the state is widened. -/
theorem Spins.round {s : Search Unit Unit} (hs : Spins s) :
    ∃ v t, Round restless greatest .spinning s .start v t ∧ Spins t := by
  obtain ⟨v, hv⟩ := hs.known
  have hfirst : s.pending.min? = some .start := by
    refine Std.ExtTreeSet.min?_eq_some_iff_mem_and_forall.mpr ⟨(hs.waits _).mpr rfl, fun l hl => ?_⟩
    rw [(hs.waits l).mp hl]
    exact Std.ReflCmp.isLE_rfl
  have hvisit : (s.popped .start v).visits[Location.start]? = some { v with done := true } := by
    rw [visits_popped, if_pos rfl]
  have hidle : .start ∉ (s.popped .start v).pending := fun h => (mem_popped.mp h).1 rfl
  have harrival : Arrival restless greatest true .start () (((s.popped .start v).logging (.step .start .jump)).noting true) _ :=
    .widen hvisit rfl hidle rfl rfl (Int64.toInt_le _) rfl rfl
  refine ⟨v, _, ⟨hfirst, hv, interpret_jump rfl (propagate_of_arrival harrival)⟩, fun l => ?_, ?_⟩
  · refine mem_queue.trans ⟨fun h => h.elim id fun hl => ?_, Or.inl⟩
    exact (hs.waits l).mp ((mem_popped (v := v)).mp hl).2
  · exact ⟨_, by rw [visits_queue, if_pos rfl]⟩

theorem Spins.rounds (n : Nat) {s : Search Unit Unit} (hs : Spins s) :
    ∃ locs t, Rounds restless greatest .spinning s locs t ∧ locs.length = n := by
  induction n generalizing s with
  | zero => exact ⟨[], s, .nil, rfl⟩
  | succ n ih =>
    obtain ⟨v, t, round, ht⟩ := hs.round
    obtain ⟨locs, u, hrounds, hlength⟩ := ih ht
    exact ⟨_ :: locs, u, .cons round hrounds, congrArg (· + 1) hlength⟩

theorem Spins.loop (fuel : Nat) {s : Search Unit Unit} (hs : Spins s) :
    ∃ t, loop restless greatest .spinning fuel s = .error .exhausted t := by
  induction fuel generalizing s with
  | zero => exact ⟨s, rfl⟩
  | succ fuel ih =>
    obtain ⟨v, t, round, ht⟩ := hs.round
    rw [loop_of_ok round.first round.known round.run]
    exact ih ht

/-- With the greatest limit a search in which nothing is covered makes any number of rounds, and no amount of fuel
    is enough for it. -/
theorem restless_search_endless :
    (∀ n, ∃ locs s, Rounds restless greatest .spinning (.start restless ()) locs s ∧ locs.length = n) ∧
    ∀ fuel, ∃ s, loop restless greatest .spinning fuel (.start restless ()) = .error .exhausted s :=
  ⟨fun n => spins_start.rounds n, fun fuel => spins_start.loop fuel⟩

end Fixpoint

end CacheTiming
