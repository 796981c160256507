import CacheTiming.Proofs.Fixpoint.Turns

/-! Locations that are taken once.

Let some locations be such that every step to one of them leads forward, together with all locations
before them. When one of these is taken, all from which a state can still arrive there have had their turns:
what was taken comes before all that waits. So the state that it is taken with is the join of all
states that are ever passed on to it, and it is not taken again. -/

namespace CacheTiming.Fixpoint

variable {μ σ : Type} {D : Domain μ σ} {limits : Limits} {p : Program} {s s' t : Search μ σ}
  {loc l a b : Location} {pc : UInt64} {st : σ} {v : Visit σ} {E : Location → Prop}

/-! ### Joins in the order of arrival -/

/-- The states among some that are passed on which arrive at a location. -/
def arrivals (loc : Location) (ds : List (Delivery μ σ)) : List (Delivery μ σ) := ds.filter (·.loc = loc)

/-- The join of states in their order, each of which finds its own memory. There is none if no state
    arrives, or if one cannot be joined. -/
def joined (D : Domain μ σ) : List (Delivery μ σ) → Option σ
  | [] => none
  | first :: rest => rest.foldlM (fun st d =>
      match D.join st d.state d.memory with
      | .ok r _ => some r
      | .error .. => none) first.state

theorem arrivals_append (loc : Location) (ds es : List (Delivery μ σ)) :
    arrivals loc (ds ++ es) = arrivals loc ds ++ arrivals loc es := List.filter_append ..

theorem arrivals_eq_nil {ds : List (Delivery μ σ)} (h : ∀ d ∈ ds, d.loc ≠ loc) : arrivals loc ds = [] := by
  simpa [arrivals] using h

theorem arrivals_concat_of_ne {d : Delivery μ σ} (h : d.loc ≠ loc) (ds : List (Delivery μ σ)) :
    arrivals loc (ds ++ [d]) = arrivals loc ds := by
  simp [arrivals, h]

theorem arrivals_concat_self (d : Delivery μ σ) (ds : List (Delivery μ σ)) :
    arrivals d.loc (ds ++ [d]) = arrivals d.loc ds ++ [d] := by
  simp [arrivals]

theorem joined_append {ds : List (Delivery μ σ)} {d : Delivery μ σ} {r : σ} {m : μ} (h : joined D ds = some st)
    (hjoin : D.join st d.state d.memory = .ok r m) : joined D (ds ++ [d]) = some r := by
  cases ds with
  | nil => cases h
  | cons first rest =>
    have h : List.foldlM _ first.state rest = some st := h
    simp only [joined, List.cons_append, List.foldlM_append, h, List.foldlM_cons, List.foldlM_nil, Option.bind_eq_bind,
      Option.bind_some, hjoin, Option.pure_def]

/-! ### Locations that were taken -/

/-- A location was taken at least once. -/
def Search.Done (s : Search μ σ) (loc : Location) : Prop := ∃ v, s.visits[loc]? = some v ∧ v.done = true

theorem Search.Level.done_iff (h : s.Level s') : s'.Done a ↔ s.Done a := by
  rw [Search.Done, Search.Done, h.visits]

theorem done_popped : (s.popped loc v).Done a ↔ a = loc ∨ s.Done a := by
  rw [Search.Done, Search.Done, visits_popped]
  split
  · rename_i heq
    simp [heq]
  · rename_i hne
    simp [hne]

theorem not_done_start (D : Domain μ σ) (m : μ) : ¬ (Search.start D m).Done a := by
  rintro ⟨v, hv, hdone⟩
  rw [visits_start] at hv
  split at hv <;> cases hv
  cases hdone

theorem done_queue_of_none {m : μ} (hnew : s.visits[loc]? = none) : (s.queue m loc { state := st }).Done a ↔ s.Done a := by
  rw [Search.Done, Search.Done, visits_queue]
  split
  · rename_i heq
    simp [heq, hnew]
  · rfl

theorem done_queue_of_some {m : μ} {w : Visit σ} (hv : s.visits[loc]? = some v) (hw : w.done = v.done) :
    (s.queue m loc w).Done a ↔ s.Done a := by
  rw [Search.Done, Search.Done, visits_queue]
  split
  · rename_i heq
    simp [heq, hv, hw]
  · rfl

theorem Arrival.done_iff {back : Bool} (h : Arrival D limits back loc st s s') : s'.Done a ↔ s.Done a := by
  cases h with
  | fresh new eq => exact eq ▸ done_queue_of_none new
  | join known waiting run eq => exact eq ▸ done_queue_of_some known rfl
  | skip known done idle test eq => exact eq ▸ Iff.rfl
  | widen known done idle test backward round run eq => exact eq ▸ done_queue_of_some known rfl
  | replace known done idle test forward eq => exact eq ▸ done_queue_of_some known rfl

theorem interpret_done_iff (h : interpret D limits p loc st s = .ok () s') : s'.Done a ↔ s.Done a := by
  refine interpret_induction (Q := fun s s' => s'.Done a ↔ s.Done a) ?_ ?_ ?_ h
  · exact fun hst htu => htu.trans hst
  · exact fun hlevel => hlevel.done_iff
  · exact fun _ harrival => harrival.done_iff

theorem Round.done_iff (h : Round D limits p s loc v t) : t.Done a ↔ a = loc ∨ s.Done a :=
  (interpret_done_iff h.run).trans done_popped

theorem Arrival.mem_pending {back : Bool} (h : Arrival D limits back loc st s s') (hl : l ∈ s'.pending) :
    l = loc ∨ l ∈ s.pending := by
  by_cases hne : l = loc
  · exact Or.inl hne
  · exact Or.inr ((h.frame hne).2.mp hl)

/-- What waits after a round did so before it, or the program leads there. -/
theorem Round.mem_pending (h : Round D limits p s loc v t) (hl : l ∈ t.pending) :
    l ∈ (s.popped loc v).pending ∨ ∃ pc, p.Flows loc.pc pc ∧ l = loc.next limits.unroll pc := by
  refine interpret_induction (Q := fun s t => l ∈ t.pending →
    l ∈ s.pending ∨ ∃ pc, p.Flows loc.pc pc ∧ l = loc.next limits.unroll pc) ?_ ?_ ?_ h.run hl
  · exact fun hst htu hl => (htu hl).elim hst Or.inr
  · exact fun hlevel hl => Or.inl (hlevel.pending ▸ hl)
  · intro s t pc st' hpass harrival hl
    rcases harrival.mem_pending hl with rfl | hl
    · exact Or.inr ⟨pc, hpass.flows, rfl⟩
    · exact Or.inl hl

/-! ### Locations to which all steps lead forward -/

/-- Steps to some locations lead forward, and with each of them all locations before it are among them. -/
structure Onward (p : Program) (unroll : Int) (E : Location → Prop) : Prop where
  down : ∀ {a b : Location}, a.before b = true → E b → E a
  forward : ∀ {loc : Location} {pc : UInt64}, p.Flows loc.pc pc → E (loc.next unroll pc) →
    loc.before (loc.next unroll pc) = true

theorem Onward.before (hE : Onward p limits.unroll E) (ha : E a) (hb : ¬ E b) : a.before b = true :=
  Location.before_of_ne_of_not_before (fun heq => hb (heq ▸ ha)) fun hba => hb (hE.down hba ha)

/-- Below the limit of the depth all steps lead forward. -/
theorem onward_of_depth (p : Program) (unroll : Int) : Onward p unroll (·.depth < unroll) where
  down {a b} hab hb := by
    rw [Location.before_iff] at hab
    omega
  forward {loc pc} _ hdepth := by
    by_contra hnot
    obtain ⟨-, hlimit, heq⟩ := Location.next_of_not_before hnot
    rw [heq] at hdepth
    exact absurd hdepth (Int.not_lt.mpr hlimit)

/-- What was taken of some locations comes before all that waits. -/
def Search.Behind (E : Location → Prop) (s : Search μ σ) : Prop :=
  ∀ a l, s.Done a → E a → l ∈ s.pending → a.before l = true

theorem behind_start (D : Domain μ σ) (m : μ) : (Search.start D m).Behind E :=
  fun _ _ hdone => absurd hdone (not_done_start D m)

section Onward
variable (hE : Onward p limits.unroll E)
include hE

theorem Round.later (h : Round D limits p s loc v t) (hl : l ∈ t.pending) (hEl : E l) : loc.before l = true := by
  rcases h.mem_pending hl with hl | ⟨pc, hflows, rfl⟩
  · exact before_of_mem_popped h.first hl
  · exact hE.forward hflows hEl

theorem Round.behind (h : Round D limits p s loc v t) (hs : s.Behind E) : t.Behind E := by
  intro a l ha hEa hl
  by_cases hEl : E l
  · have hlater := h.later hE hl hEl
    rcases h.done_iff.mp ha with rfl | ha
    · exact hlater
    · exact Location.before_trans (hs a loc ha hEa (mem_of_min h.first)) hlater
  · exact hE.before hEa hEl

/-- Every turn of a search is later than what was taken before. -/
theorem turns_later (fuel : Nat) (hs : s.Behind E) (ha : s.Done a) (hEa : E a) :
    ∀ x ∈ turns D limits p fuel s, a.before x.loc = true := by
  have first : ∀ {s : Search μ σ} {loc : Location}, s.Behind E ∧ s.Done a → s.pending.min? = some loc →
      a.before loc = true := fun hs hmin => hs.1 _ _ hs.2 hEa (mem_of_min hmin)
  refine forall_mem_turns (fun hs hmin _ => first hs hmin) (fun hs hround => ?_) fuel ⟨hs, ha⟩
  exact ⟨hround.behind hE hs.1, hround.done_iff.mpr (Or.inr hs.2)⟩

/-- After a turn outside, all that waits is outside. -/
theorem Round.outside (h : Round D limits p s loc v t) (hloc : ¬ E loc) (hl : l ∈ t.pending) : ¬ E l :=
  fun hEl => hloc (hE.down (h.later hE hl hEl) hEl)

theorem turns_outside (fuel : Nat) (hs : ∀ l ∈ s.pending, ¬ E l) : ∀ x ∈ turns D limits p fuel s, ¬ E x.loc := by
  have first : ∀ {s : Search μ σ} {loc : Location}, (∀ l ∈ s.pending, ¬ E l) → s.pending.min? = some loc → ¬ E loc :=
    fun hs hmin => hs _ (mem_of_min hmin)
  refine forall_mem_turns (fun hs hmin _ => first hs hmin) (fun hs hround l hl => ?_) fuel hs
  exact hround.outside hE (first hs hround.first) hl

/-- Of two turns, the first one is at the earlier location, unless both are outside. -/
theorem turns_pairwise (fuel : Nat) (hs : s.Behind E) :
    (turns D limits p fuel s).Pairwise fun x y => E x.loc ∨ E y.loc → x.loc.before y.loc = true := by
  refine turns_induction (motive := fun s xs => s.Behind E →
    xs.Pairwise fun x y => E x.loc ∨ E y.loc → x.loc.before y.loc = true) ?_ ?_ ?_ fuel s hs
  · exact fun s _ => .nil
  · exact fun _ _ _ => List.pairwise_singleton ..
  · intro s loc v t fuel hround ih hs
    have ht := hround.behind hE hs
    refine .cons (fun y hy hEither => ?_) (ih ht)
    have hloc : E loc := by
      rcases hEither with hloc | hEy
      · exact hloc
      · by_contra hloc
        exact turns_outside hE fuel (fun l hl => hround.outside hE hloc hl) y hy hEy
    exact turns_later hE fuel ht (hround.done_iff.mpr (Or.inl rfl)) hloc y hy

theorem arrivals_turn_self (hloc : E loc) : arrivals loc (s.turn D limits p loc v).passed = [] := by
  refine arrivals_eq_nil fun d hd heq => ?_
  obtain ⟨pc, hflows, hnext⟩ := flows_of_mem_deliveries hd
  have hself : loc.next limits.unroll pc = loc := hnext.symm.trans heq
  have hforward := hE.forward hflows (hself.symm ▸ hloc)
  rw [hself] at hforward
  exact Location.before_irrefl loc hforward

/-- Nothing more arrives at a location that was taken. -/
theorem arrivals_turns_of_done (fuel : Nat) (hs : s.Behind E) (ha : s.Done a) (hEa : E a) :
    arrivals a ((turns D limits p fuel s).flatMap Turn.passed) = [] := by
  refine arrivals_eq_nil fun d hd heq => ?_
  obtain ⟨x, hx, hd⟩ := List.mem_flatMap.mp hd
  obtain ⟨pc, hflows, hloc⟩ := flows_of_mem_turns hx hd
  rw [heq] at hloc
  subst hloc
  exact Location.before_irrefl _ (Location.before_trans (turns_later hE fuel hs ha hEa x hx) (hE.forward hflows hEa))

end Onward

/-! ### States that wait -/

/-- What some locations hold is the join of all that has arrived there. -/
structure Search.Gathered (D : Domain μ σ) (E : Location → Prop) (past : List (Delivery μ σ)) (s : Search μ σ) :
    Prop where
  new : ∀ {a : Location}, E a → s.visits[a]? = none → arrivals a past = []
  kept : ∀ {a : Location} {v : Visit σ}, E a → s.visits[a]? = some v → joined D (arrivals a past) = some v.state

variable {past : List (Delivery μ σ)}

theorem gathered_start (D : Domain μ σ) (m : μ) :
    (Search.start D m).Gathered D E [{ loc := .start, state := D.init, memory := m }] where
  new {a} _ hnone := by
    rw [visits_start] at hnone
    split at hnone
    · cases hnone
    · rename_i hne
      exact arrivals_eq_nil (by simpa using Ne.symm hne)
  kept {a v} _ hv := by
    rw [visits_start] at hv
    split at hv
    · rename_i heq
      cases hv
      subst heq
      simp [arrivals, joined]
    · cases hv

theorem Search.Gathered.of_visits (h : s.Gathered D E past) (hvisits : s'.visits = s.visits) : s'.Gathered D E past where
  new ha hnone := h.new ha (hvisits ▸ hnone)
  kept ha hv := h.kept ha (hvisits ▸ hv)

theorem Search.Gathered.popped (h : s.Gathered D E past) (hv : s.visits[loc]? = some v) :
    (s.popped loc v).Gathered D E past where
  new {a} ha hnone := by
    rw [visits_popped] at hnone
    split at hnone
    · cases hnone
    · exact h.new ha hnone
  kept {a w} ha hw := by
    rw [visits_popped] at hw
    split at hw
    · rename_i heq
      cases hw
      rw [heq] at ha ⊢
      exact h.kept (v := v) ha hv
    · exact h.kept ha hw

/-- What arrives at a location that was not taken yet is the first to arrive there or is joined to the
    others. -/
theorem Arrival.gathered {back : Bool} (h : Arrival D limits back loc st s s') (hs : s.Gathered D E past)
    (hundone : E loc → ¬ s.Done loc) :
    s'.Gathered D E (past ++ [{ loc, state := st, memory := s.memory }]) := by
  -- Only where a location was taken already is a state compared, widened or replaced.
  have hjoined : E loc → ∃ w, s'.visits[loc]? = some w ∧
      joined D (arrivals loc (past ++ [{ loc, state := st, memory := s.memory }])) = some w.state := by
    intro hloc
    rw [arrivals_concat_self { loc, state := st, memory := s.memory }]
    cases h with
    | fresh new eq =>
      subst eq
      exact ⟨_, by rw [visits_queue, if_pos rfl], by rw [hs.new hloc new]; rfl⟩
    | join known waiting run eq =>
      subst eq
      exact ⟨_, by rw [visits_queue, if_pos rfl], joined_append (hs.kept hloc known) run⟩
    | skip known done => exact absurd ⟨_, known, done⟩ (hundone hloc)
    | widen known done => exact absurd ⟨_, known, done⟩ (hundone hloc)
    | replace known done => exact absurd ⟨_, known, done⟩ (hundone hloc)
  constructor
  · intro a ha hnone
    by_cases heq : a = loc
    · subst heq
      obtain ⟨w, hw, -⟩ := hjoined ha
      rw [hnone] at hw
      cases hw
    · rw [arrivals_concat_of_ne (Ne.symm heq)]
      exact hs.new ha ((h.frame heq).1 ▸ hnone)
  · intro a v ha hv
    by_cases heq : a = loc
    · subst heq
      obtain ⟨w, hw, hstate⟩ := hjoined ha
      rw [hv] at hw
      cases hw
      exact hstate
    · rw [arrivals_concat_of_ne (Ne.symm heq)]
      exact hs.kept ha ((h.frame heq).1 ▸ hv)

/-- States that arrive one after the other are gathered. -/
theorem Arrives.gathered {ds : List (Delivery μ σ)} (h : Arrives D limits s ds t) (hs : s.Gathered D E past)
    (hundone : ∀ d ∈ ds, E d.loc → ¬ s.Done d.loc) : t.Gathered D E (past ++ ds) := by
  induction h generalizing past with
  | nil level =>
    rw [List.append_nil]
    exact hs.of_visits level.visits
  | @cons s t u w d ds back level memory arrival rest ih =>
    have hdone : ∀ {a}, u.Done a ↔ s.Done a := arrival.done_iff.trans level.done_iff
    have hgathered := arrival.gathered (hs.of_visits level.visits) fun hEd hd =>
      hundone d List.mem_cons_self hEd (level.done_iff.mp hd)
    rw [memory] at hgathered
    rw [List.append_cons]
    exact ih hgathered fun d' hd' hEd hdone' => hundone d' (List.mem_cons_of_mem _ hd') hEd (hdone.mp hdone')

theorem Round.gathered (hE : Onward p limits.unroll E) (h : Round D limits p s loc v t) (hs : s.Behind E)
    (hgathered : s.Gathered D E past) : t.Gathered D E (past ++ (s.turn D limits p loc v).passed) := by
  refine (interpret_arrives h.run).gathered (hgathered.popped h.known) fun d hd hEd hdone => ?_
  obtain ⟨pc, hflows, hnext⟩ := flows_of_mem_deliveries hd
  rw [hnext] at hEd hdone
  have hlater := hE.forward hflows hEd
  rcases done_popped.mp hdone with heq | hdone
  · exact Location.before_irrefl _ (heq ▸ hlater)
  · exact Location.before_irrefl _ (Location.before_trans hlater (hs _ loc hdone hEd (mem_of_min h.first)))

/-- The state with which a location is taken is the join of all states that are ever passed on to it. -/
theorem joined_turns (hE : Onward p limits.unroll E) (fuel : Nat) (hs : s.Behind E) (hgathered : s.Gathered D E past)
    {x : Turn μ σ} (hx : x ∈ turns D limits p fuel s) (hEx : E x.loc) :
    joined D (arrivals x.loc (past ++ (turns D limits p fuel s).flatMap Turn.passed)) = some x.state := by
  refine turns_induction (motive := fun s xs => ∀ past, s.Behind E → s.Gathered D E past → x ∈ xs →
    joined D (arrivals x.loc (past ++ xs.flatMap Turn.passed)) = some x.state) ?_ ?_ ?_ fuel s past hs hgathered hx
  · intro s past _ _ hx
    cases hx
  · intro s loc v hmin hv past hs hgathered hx
    cases List.mem_singleton.mp hx
    rw [Search.loc_turn] at hEx ⊢
    rw [List.flatMap_singleton, arrivals_append, arrivals_turn_self hE hEx, List.append_nil]
    exact hgathered.kept hEx hv
  · intro s loc v t fuel hround ih past hs hgathered hx
    have ht := hround.behind hE hs
    rw [List.flatMap_cons]
    rcases List.mem_cons.mp hx with rfl | hx
    · rw [Search.loc_turn] at hEx ⊢
      have hrest := arrivals_turns_of_done (D := D) hE fuel ht (hround.done_iff.mpr (Or.inl rfl)) hEx
      rw [arrivals_append, arrivals_append, arrivals_turn_self hE hEx, hrest, List.append_nil, List.append_nil]
      exact hgathered.kept hEx hround.known
    · rw [← List.append_assoc]
      exact ih _ ht (hround.gathered hE hs hgathered) hx

end CacheTiming.Fixpoint
