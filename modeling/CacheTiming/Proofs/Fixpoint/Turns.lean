import CacheTiming.Proofs.Fixpoint.Schedule

/-! The turns of a search.

A turn is one location that is taken, with its state then and all that is passed on from there. The turns
of a search are just the steps that it logs, also if it stops in the middle of the last one. -/

namespace CacheTiming

/-- The location that is interpreted in a step, if the event is one. -/
def Event.stepped? : Event → Option Location
  | .step loc _ => some loc
  | _ => none

/-- The locations that are interpreted according to a log. -/
def steps (log : Array Event) : List Location := log.toList.filterMap Event.stepped?

namespace Fixpoint

variable {μ σ α β : Type}

/-- A state that is passed on, with the location where it arrives and the memory that it finds. -/
structure Delivery (μ σ : Type) where
  loc : Location
  state : σ
  memory : μ

/-- A location that was taken, with its state then and all that was passed on from there. -/
structure Turn (μ σ : Type) where
  loc : Location
  state : σ
  passed : List (Delivery μ σ)

section Definitions
variable (D : Domain μ σ) (limits : Limits) (p : Program)

/-- What is passed on from a location in a search, in this order. -/
def deliveries (loc : Location) (st : σ) (s : Search μ σ) : List (Delivery μ σ) :=
  let i := p.fetch loc.pc
  let next := loc.next limits.unroll (loc.pc + 1)
  let target := loc.next limits.unroll i.arg
  match i.op with
  | .halt | .undefined .. => []
  | .touch =>
    match D.touch st i.arg s.memory with
    | .ok st memory => [{ loc := next, state := st, memory }]
    | .error .. => []
  | .elapse =>
    match D.elapse st i.arg s.memory with
    | .ok st memory => [{ loc := next, state := st, memory }]
    | .error .. => []
  | .branch =>
    match propagate D limits loc (loc.pc + 1) st s with
    | .ok _ t => [{ loc := next, state := st, memory := s.memory }, { loc := target, state := st, memory := t.memory }]
    | .error .. => [{ loc := next, state := st, memory := s.memory }]
  | .jump => [{ loc := target, state := st, memory := s.memory }]

/-- The turns of a search. -/
def turns : (fuel : Nat) → Search μ σ → List (Turn μ σ)
  | 0, _ => []
  | fuel + 1, s =>
    match pop s with
    | .ok (some (loc, st)) t =>
      let passed := deliveries D limits p loc st (t.logging (.step loc (p.opAt loc.pc)))
      { loc, state := st, passed } ::
        match interpret D limits p loc st t with
        | .ok _ u => turns fuel u
        | .error .. => []
    | _ => []

/-- The turn in which a search takes a location with what is known about it. -/
def Search.turn (s : Search μ σ) (loc : Location) (v : Visit σ) : Turn μ σ where
  loc := loc
  state := v.state
  passed := deliveries D limits p loc v.state ((s.popped loc v).logging (.step loc (p.opAt loc.pc)))

end Definitions

variable {D : Domain μ σ} {limits : Limits} {p : Program} {s t : Search μ σ} {loc : Location} {st : σ} {v : Visit σ}

/-! ### What is passed on -/

/-- States that arrive one after the other, with nothing between them that touches the states of
    locations. -/
inductive Arrives (D : Domain μ σ) (limits : Limits) : Search μ σ → List (Delivery μ σ) → Search μ σ → Prop where
  | nil {s t : Search μ σ} (level : s.Level t) : Arrives D limits s [] t
  | cons {s t u w : Search μ σ} {d : Delivery μ σ} {ds : List (Delivery μ σ)} {back : Bool} (level : s.Level t)
      (memory : t.memory = d.memory) (arrival : Arrival D limits back d.loc d.state t u)
      (rest : Arrives D limits u ds w) : Arrives D limits s (d :: ds) w

theorem Arrives.propagate {u w : Search μ σ} {pc : UInt64} {ds : List (Delivery μ σ)}
    (h : Fixpoint.propagate D limits loc pc st t = .ok () u) (hlevel : s.Level t) (rest : Arrives D limits u ds w) :
    Arrives D limits s ({ loc := loc.next limits.unroll pc, state := st, memory := t.memory } :: ds) w := by
  have hnoting : s.Level (t.noting (loc.goesBack pc)) := ⟨hlevel.visits, hlevel.pending⟩
  exact .cons hnoting rfl (propagate_eq_ok h) rest

/-- All that an interpreted instruction does to the states of locations is that its deliveries arrive. -/
theorem interpret_arrives {s' : Search μ σ} (h : interpret D limits p loc st s = .ok () s') :
    Arrives D limits s (deliveries D limits p loc st (s.logging (.step loc (p.opAt loc.pc)))) s' := by
  have done : Arrives D limits s' [] s' := .nil ⟨rfl, rfl⟩
  cases interpret_eq_ok h with
  | halt op run =>
    have op : (p.fetch loc.pc).op = .halt := op
    simp only [deliveries, op]
    rcases conclude_eq_ok run with ⟨-, rfl⟩ | ⟨f, r, m, -, -, rfl⟩
    · exact .nil ⟨rfl, rfl⟩
    · exact .nil ⟨rfl, rfl⟩
  | touch op access run =>
    have op : (p.fetch loc.pc).op = .touch := op
    simp only [deliveries, op, access]
    exact .propagate run ⟨rfl, rfl⟩ done
  | bottom op access eq =>
    have op : (p.fetch loc.pc).op = .touch := op
    simp only [deliveries, op, access]
    exact .nil (eq ▸ ⟨rfl, rfl⟩)
  | elapse op pause run =>
    have op : (p.fetch loc.pc).op = .elapse := op
    simp only [deliveries, op, pause]
    exact .propagate run ⟨rfl, rfl⟩ done
  | branch op pass take =>
    have op : (p.fetch loc.pc).op = .branch := op
    simp only [deliveries, op, pass]
    exact .propagate pass ⟨rfl, rfl⟩ (.propagate take ⟨rfl, rfl⟩ done)
  | jump op run =>
    have op : (p.fetch loc.pc).op = .jump := op
    simp only [deliveries, op]
    exact .propagate run ⟨rfl, rfl⟩ done

/-- What is passed on goes where the program leads. -/
theorem flows_of_mem_deliveries {d : Delivery μ σ} (h : d ∈ deliveries D limits p loc st s) :
    ∃ pc, p.Flows loc.pc pc ∧ d.loc = loc.next limits.unroll pc := by
  unfold deliveries at h
  dsimp only at h
  split at h
  · cases h
  · cases h
  · rename_i op
    split at h
    · rw [List.mem_singleton.mp h]
      exact ⟨_, .next (Or.inl op), rfl⟩
    · cases h
  · rename_i op
    split at h
    · rw [List.mem_singleton.mp h]
      exact ⟨_, .next (Or.inr (Or.inl op)), rfl⟩
    · cases h
  · rename_i op
    split at h
    · rcases List.mem_cons.mp h with rfl | h
      · exact ⟨_, .next (Or.inr (Or.inr op)), rfl⟩
      · rw [List.mem_singleton.mp h]
        exact ⟨_, .target (Or.inl op), rfl⟩
    · rw [List.mem_singleton.mp h]
      exact ⟨_, .next (Or.inr (Or.inr op)), rfl⟩
  · rename_i op
    rw [List.mem_singleton.mp h]
    exact ⟨_, .target (Or.inr op), rfl⟩

/-! ### Turns and rounds -/

theorem Search.loc_turn : (s.turn D limits p loc v).loc = loc := rfl

/-- The last turn of a search is one in which it stops; each other is a round, and the turns of the search
    after the round follow. -/
theorem turns_induction {motive : Search μ σ → List (Turn μ σ) → Prop} (nil : ∀ s, motive s [])
    (stop : ∀ {s loc v}, s.pending.min? = some loc → s.visits[loc]? = some v →
      motive s [s.turn D limits p loc v])
    (round : ∀ {s loc v t fuel}, Round D limits p s loc v t → motive t (turns D limits p fuel t) →
      motive s (s.turn D limits p loc v :: turns D limits p fuel t))
    (fuel : Nat) (s : Search μ σ) : motive s (turns D limits p fuel s) := by
  induction fuel generalizing s with
  | zero => exact nil s
  | succ fuel ih =>
    rw [turns]
    split
    · rename_i loc st t hpop
      obtain ⟨v, hmin, hv, rfl, rfl⟩ := pop_eq_some hpop
      cases hrun : interpret D limits p loc v.state (s.popped loc v) with
      | ok _ u => exact round ⟨hmin, hv, hrun⟩ (ih u)
      | error _ _ => exact stop hmin hv
    · exact nil s

/-- What an invariant of rounds says about the turn that follows holds of all turns. -/
theorem forall_mem_turns {Inv : Search μ σ → Prop} {P : Turn μ σ → Prop}
    (first : ∀ {s loc v}, Inv s → s.pending.min? = some loc → s.visits[loc]? = some v → P (s.turn D limits p loc v))
    (round : ∀ {s loc v t}, Inv s → Round D limits p s loc v t → Inv t) (fuel : Nat) (hs : Inv s) :
    ∀ x ∈ turns D limits p fuel s, P x := by
  refine turns_induction (motive := fun s xs => Inv s → ∀ x ∈ xs, P x) ?_ ?_ ?_ fuel s hs
  · intro s _ x hx
    cases hx
  · intro s loc v hmin hv hs x hx
    rw [List.mem_singleton.mp hx]
    exact first hs hmin hv
  · intro s loc v t fuel hround ih hs x hx
    rcases List.mem_cons.mp hx with rfl | hx
    · exact first hs hround.first hround.known
    · exact ih (round hs hround) x hx

theorem turns_of_round (h : Round D limits p s loc v t) (fuel : Nat) :
    turns D limits p (fuel + 1) s = s.turn D limits p loc v :: turns D limits p fuel t := by
  rw [turns, pop_of_min h.first h.known]
  simp only [h.run]
  rfl

theorem turns_of_error {e : Stop} (hmin : s.pending.min? = some loc) (hv : s.visits[loc]? = some v)
    (hrun : interpret D limits p loc v.state (s.popped loc v) = .error e t) (fuel : Nat) :
    turns D limits p (fuel + 1) s = [s.turn D limits p loc v] := by
  rw [turns, pop_of_min hmin hv]
  simp only [hrun]
  rfl

theorem turns_of_empty (h : ∀ l, l ∉ s.pending) (fuel : Nat) : turns D limits p (fuel + 1) s = [] := by
  rw [turns, pop_of_not_mem h]

theorem flows_of_mem_turns {fuel : Nat} {x : Turn μ σ} {d : Delivery μ σ} (hx : x ∈ turns D limits p fuel s)
    (hd : d ∈ x.passed) : ∃ pc, p.Flows x.loc.pc pc ∧ d.loc = x.loc.next limits.unroll pc := by
  have hall : ∀ x ∈ turns D limits p fuel s, ∀ d ∈ x.passed,
      ∃ pc, p.Flows x.loc.pc pc ∧ d.loc = x.loc.next limits.unroll pc :=
    forall_mem_turns (fun (_ : True) _ _ _ hd => flows_of_mem_deliveries hd) (fun _ _ => trivial) fuel trivial
  exact hall x hx d hd

/-! ### Turns and the log -/

/-- The search that a computation leaves, whether it succeeds or not. -/
def left : EStateM.Result Stop (Search μ σ) α → Search μ σ
  | .ok _ s => s
  | .error _ s => s

/-- A computation that logs no step. -/
def Quiet (x : SearchM μ σ α) : Prop := ∀ s, steps (left (x s)).log = steps s.log

namespace Quiet

theorem pure (a : α) : Quiet (Pure.pure a : SearchM μ σ α) := fun _ => rfl

theorem throw (e : Stop) : Quiet (MonadExcept.throw e : SearchM μ σ α) := fun _ => rfl

theorem bind {x : SearchM μ σ α} {f : α → SearchM μ σ β} (hx : Quiet x) (hf : ∀ a, Quiet (f a)) : Quiet (x >>= f) := by
  intro s
  show steps (left (EStateM.bind x f s)).log = _
  rw [← hx s]
  cases h : x s with
  | ok a t =>
    simp only [EStateM.bind, h]
    exact hf a t
  | error e t =>
    simp only [EStateM.bind, h]
    rfl

theorem get_bind {f : Search μ σ → SearchM μ σ β} (hf : ∀ s, Quiet (f s)) : Quiet (get >>= f) := fun s => hf s s

theorem modify {f : Search μ σ → Search μ σ} (h : ∀ s, steps (f s).log = steps s.log) :
    Quiet (modify f : SearchM μ σ PUnit) := h

end Quiet

theorem steps_push (log : Array Event) (e : Event) : steps (log.push e) = steps log ++ e.stepped?.toList := by
  rw [steps, steps, Array.toList_push, List.filterMap_append]
  cases h : e.stepped? <;> simp [h]

theorem quiet_log {e : Event} (h : e.stepped? = none) : Quiet (log e : SearchM μ σ Unit) :=
  .modify fun s => by rw [steps_push, h]; exact List.append_nil _

theorem quiet_enqueue (loc : Location) (v : Visit σ) : Quiet (enqueue loc v : SearchM μ σ Unit) := .modify fun _ => rfl

theorem quiet_attempt (action : Action μ α) : Quiet (attempt action : SearchM μ σ _) := by
  intro s
  cases h : action s.memory with
  | ok a m => rw [attempt_of_ok h]; rfl
  | error e m => rw [attempt_of_error h]; rfl

theorem quiet_demand (action : Action μ α) : Quiet (demand action : SearchM μ σ α) := by
  refine .bind (quiet_attempt action) fun r => ?_
  cases r with
  | ok a => exact .pure a
  | error e => exact .throw _

theorem quiet_merge (loc : Location) (action : Action μ σ) : Quiet (merge loc action) := by
  refine .bind (quiet_attempt action) fun r => ?_
  cases r with
  | ok a => exact .pure a
  | error e =>
    refine .get_bind fun s => ?_
    split
    · exact .bind (quiet_log rfl) fun _ => .throw _
    · exact .throw _

theorem quiet_propagate (source : Location) (pc : UInt64) (st : σ) :
    Quiet (propagate D limits source pc st) := by
  refine .bind (.modify fun _ => rfl) fun _ => .get_bind fun s => ?_
  dsimp only
  split
  · exact quiet_enqueue _ _
  · refine .get_bind fun s => ?_
    split
    · exact .bind (quiet_merge _ _) fun _ => quiet_enqueue _ _
    · refine .bind (quiet_demand _) fun covered => ?_
      split
      · exact .pure _
      split
      · split
        · exact .bind (quiet_log rfl) fun _ => .throw _
        · exact .bind (quiet_merge _ _) fun _ => quiet_enqueue _ _
      · exact quiet_enqueue _ _

theorem quiet_conclude (loc : Location) (st : σ) : Quiet (conclude D loc st) := by
  refine .get_bind fun s => ?_
  split
  · exact .modify fun _ => rfl
  · exact .bind (quiet_merge _ _) fun _ => .modify fun _ => rfl

theorem quiet_finish : Quiet (finish : SearchM μ σ σ) := by
  refine .get_bind fun s => ?_
  split
  · exact .throw _
  · exact .get_bind fun s => .bind (quiet_log rfl) fun _ => .pure _

theorem steps_log_bind {f : Unit → SearchM μ σ α} (hf : Quiet (f ())) (loc : Location) (op : Opcode)
    (s : Search μ σ) : steps (left ((log (.step loc op) >>= f) s)).log = steps s.log ++ [loc] :=
  (hf (s.logging (.step loc op))).trans (steps_push s.log (.step loc op))

/-- Interpreting an instruction logs a step first, and no other one after that. -/
theorem steps_interpret (D : Domain μ σ) (limits : Limits) (p : Program) (loc : Location) (st : σ) (s : Search μ σ) :
    steps (left (interpret D limits p loc st s)).log = steps s.log ++ [loc] := by
  refine steps_log_bind ?_ loc _ s
  cases (p.fetch loc.pc).op with
  | «undefined» code above => exact .throw _
  | halt => exact quiet_conclude loc st
  | touch =>
    refine .bind (quiet_attempt _) fun r => ?_
    cases r with
    | ok st => exact quiet_propagate _ _ _
    | error e =>
      cases e with
      | bottom => exact .pure _
      | trace e => exact .throw _
      | fault f => exact .throw _
  | elapse => exact .bind (quiet_demand _) fun _ => quiet_propagate _ _ _
  | branch => exact .bind (quiet_propagate _ _ _) fun _ => quiet_propagate _ _ _
  | jump => exact quiet_propagate _ _ _

/-- The steps that a search logs are its turns. -/
theorem steps_loop (fuel : Nat) (hs : s.Scheduled) :
    steps (left (loop D limits p fuel s)).log = steps s.log ++ (turns D limits p fuel s).map Turn.loc := by
  induction fuel generalizing s with
  | zero => exact (List.append_nil _).symm
  | succ fuel ih =>
    rcases hs.empty_or_first with hnone | ⟨loc, v, hmin, hv⟩
    · rw [loop_of_empty hnone, turns_of_empty hnone, quiet_finish s]
      exact (List.append_nil _).symm
    · have hstep := steps_interpret D limits p loc v.state (s.popped loc v)
      cases hrun : interpret D limits p loc v.state (s.popped loc v) with
      | ok _ t =>
        rw [hrun] at hstep
        rw [loop_of_ok hmin hv hrun, turns_of_round ⟨hmin, hv, hrun⟩, ih (hs.popped.interpret hrun)]
        exact (congrArg (· ++ _) hstep).trans (List.append_assoc ..)
      | error e t =>
        rw [hrun] at hstep
        rw [loop_of_error hmin hv hrun, turns_of_error hmin hv hrun]
        exact hstep

end Fixpoint

end CacheTiming
