import CacheTiming.Proofs.Machine.Execution

/-! What the list of executions says.

Without an error the list holds just the executions within the limit on backward jumps, and no path
within the limit is refused. An error is that of some path. Whether there is a list at all is another
question: what is said here is said of a search that has ended. -/

namespace CacheTiming

namespace Path

/-- What is reported of a path that has halted. -/
def run (f : Path) : Run := { trace := f.machine.marks, time := f.machine.clock }

/-- Why a path cannot go on. -/
inductive Refused (p : Program) (d : Durations) (f : Path) : PathError → Prop where
  | invalidOpcode {op : Opcode} (found : p.opAt f.pc = op) (meaningless : op.isDefined = false) :
      Refused p d f (.invalidOpcode op f.pc)
  | clockOverflow (op : p.opAt f.pc = .halt) (overflow : f.machine.overflow = true) : Refused p d f .clockOverflow
  | fault {cause : Fault} (op : p.opAt f.pc = .touch)
      (access : f.machine.touch d (p.fetch f.pc).arg = .error cause) : Refused p d f (.fault cause)

variable {p : Program} {d : Durations} {maxBackJumps : Int} {f g : Path} {e : PathError} {m : Move}

/-! ### One step -/

theorem Refused.move (h : f.Refused p d e) (hj : ¬ maxBackJumps < f.jumps.toInt) : f.move p d maxBackJumps = .error e := by
  rw [Path.move, if_neg hj]
  cases h with
  | @invalidOpcode op found meaningless =>
    cases op with
    | «undefined» code above =>
      have found : (p.fetch f.pc).op = .undefined code above := found
      simp only [found]
    | _ => cases meaningless
  | clockOverflow op overflow =>
    have op : (p.fetch f.pc).op = .halt := op
    simp only [op, overflow, if_true]
  | fault op access =>
    have op : (p.fetch f.pc).op = .touch := op
    simp only [op, execute, Machine.exec, access, Except.map]

theorem move_of_halt (hj : ¬ maxBackJumps < f.jumps.toInt) (hop : p.opAt f.pc = .halt) (hclock : f.machine.overflow = false) :
    f.move p d maxBackJumps = .ok (.finish f.run) := by
  have hop : (p.fetch f.pc).op = .halt := hop
  rw [move, if_neg hj]
  simp only [hop, hclock, Bool.false_eq_true, if_false, run]

/-- A path is refused, has halted or goes on by a step of its machine. -/
theorem refused_or_halted_or_step (p : Program) (d : Durations) (f : Path) :
    (∃ e, f.Refused p d e) ∨ (p.opAt f.pc = .halt ∧ f.machine.overflow = false) ∨
      ∃ pc m, Machine.Step p d f.pc f.machine pc m := by
  cases hop : p.opAt f.pc with
  | «undefined» code above => exact Or.inl ⟨_, .invalidOpcode hop rfl⟩
  | halt =>
    cases hclock : f.machine.overflow with
    | true => exact Or.inl ⟨_, .clockOverflow hop hclock⟩
    | false => exact Or.inr (Or.inl ⟨rfl, rfl⟩)
  | touch =>
    cases ht : f.machine.touch d (p.fetch f.pc).arg with
    | error cause => exact Or.inl ⟨_, .fault hop ht⟩
    | ok m => exact Or.inr (Or.inr ⟨_, _, .touch hop ht⟩)
  | elapse => exact Or.inr (Or.inr ⟨_, _, .elapse hop⟩)
  | branch => exact Or.inr (Or.inr ⟨_, _, .pass hop⟩)
  | jump => exact Or.inr (Or.inr ⟨_, _, .jump hop⟩)

/-- A step is part of the next move, unless the path has jumped backwards too often. -/
theorem Step.move (h : Step p d f g) (hj : ¬ maxBackJumps < f.jumps.toInt) :
    ∃ m, f.move p d maxBackJumps = .ok m ∧ g ∈ m.next ∧ m.runs = [] := by
  obtain ⟨pc, machine, hstep, rfl⟩ := step_iff.mp h
  by_cases hbranch : p.opAt f.pc = .branch
  · refine ⟨_, move_eq_fork hj hbranch, ?_, rfl⟩
    cases hstep with
    | pass => simp [Move.next]
    | take => simp [Move.next]
    | touch op => simp [hbranch] at op
    | elapse op => simp [hbranch] at op
    | jump op => simp [hbranch] at op
  · exact ⟨_, move_eq_advance hj hbranch hstep, by simp [Move.next], rfl⟩

theorem step_of_mem_next (h : f.move p d maxBackJumps = .ok m) (hg : g ∈ m.next) : Step p d f g := by
  cases m with
  | cut => cases hg
  | finish run => cases hg
  | advance next =>
    rw [List.mem_singleton.mp hg]
    exact .advance h
  | fork next taken =>
    rcases List.mem_cons.mp hg with rfl | hg
    · exact .pass h
    · rw [List.mem_singleton.mp hg]
      exact .take h

theorem not_lt_of_mem_next (h : f.move p d maxBackJumps = .ok m) (hg : g ∈ m.next) : ¬ maxBackJumps < f.jumps.toInt := by
  refine not_lt_of_move h fun hcut => ?_
  rw [hcut] at hg
  cases hg

theorem refused_of_move (h : f.move p d maxBackJumps = .error e) : f.Refused p d e := by
  have hj := not_lt_of_error h
  rcases refused_or_halted_or_step p d f with ⟨e', he⟩ | ⟨hop, hclock⟩ | ⟨pc, machine, hstep⟩
  · rw [he.move hj] at h
    cases h
    exact he
  · rw [move_of_halt hj hop hclock] at h
    cases h
  · obtain ⟨m, hm, -, -⟩ := (step_iff.mpr ⟨pc, machine, hstep, rfl⟩).move hj
    rw [hm] at h
    cases h

/-- A move reports a path if it has halted within the limit. -/
theorem mem_runs_iff (h : f.move p d maxBackJumps = .ok m) {r : Run} :
    r ∈ m.runs ↔ ¬ maxBackJumps < f.jumps.toInt ∧ p.opAt f.pc = .halt ∧ r = f.run := by
  by_cases hj : maxBackJumps < f.jumps.toInt
  · rw [move, if_pos hj] at h
    cases h
    simp [Move.runs, hj]
  rcases refused_or_halted_or_step p d f with ⟨e', he⟩ | ⟨hop, hclock⟩ | ⟨pc, machine, hstep⟩
  · rw [he.move hj] at h
    cases h
  · rw [move_of_halt hj hop hclock] at h
    cases h
    simp [Move.runs, hj, hop]
  · obtain ⟨m', hm, -, hruns⟩ := (step_iff.mpr ⟨pc, machine, hstep, rfl⟩).move hj
    rw [hm] at h
    cases h
    have hop : p.opAt f.pc ≠ .halt := by cases hstep <;> simp_all
    simp [hruns, hop]

/-! ### The paths within the limit -/

/-- A path that was reached from another by steps of which none came from a path over the limit. -/
def ReachesWithin (p : Program) (d : Durations) (maxBackJumps : Int) : Path → Path → Prop :=
  Relation.ReflTransGen fun f g => ¬ maxBackJumps < f.jumps.toInt ∧ Step p d f g

theorem ReachesWithin.reaches (h : ReachesWithin p d maxBackJumps f g) : Reaches p d f g :=
  Relation.ReflTransGen.mono (fun _ _ => And.right) _ _ h

/-- A path within the limit to which one of the paths of a stack leads. -/
def Follows (p : Program) (d : Durations) (maxBackJumps : Int) (stack : List Path) (g : Path) : Prop :=
  ∃ f ∈ stack, ReachesWithin p d maxBackJumps f g ∧ ¬ maxBackJumps < g.jumps.toInt

variable {stack : List Path}

theorem follows_cons (h : f.move p d maxBackJumps = .ok m) :
    Follows p d maxBackJumps (f :: stack) g ↔
      (g = f ∧ ¬ maxBackJumps < f.jumps.toInt) ∨ Follows p d maxBackJumps (m.next ++ stack) g := by
  constructor
  · rintro ⟨f', hf', hreach, hj⟩
    rcases List.mem_cons.mp hf' with rfl | hf'
    · rcases Relation.ReflTransGen.cases_head hreach with rfl | ⟨next, ⟨hjf, hstep⟩, hrest⟩
      · exact Or.inl ⟨rfl, hj⟩
      · obtain ⟨m', hm, hnext, -⟩ := hstep.move hjf
        rw [hm] at h
        cases h
        exact Or.inr ⟨next, List.mem_append_left _ hnext, hrest, hj⟩
    · exact Or.inr ⟨f', List.mem_append_right _ hf', hreach, hj⟩
  · rintro (⟨rfl, hj⟩ | ⟨f', hf', hreach, hj⟩)
    · exact ⟨g, List.mem_cons_self, .refl, hj⟩
    · rcases List.mem_append.mp hf' with hf' | hf'
      · have hstep := And.intro (not_lt_of_mem_next h hf') (step_of_mem_next h hf')
        exact ⟨f, List.mem_cons_self, .head hstep hreach, hj⟩
      · exact ⟨f', List.mem_cons_of_mem _ hf', hreach, hj⟩

end Path

/-! ### The whole list -/

section Explore
variable {p : Program} {d : Durations} {maxBackJumps : Int} {f : Path} {e : PathError} {m : Move}
  {runs list : List Run} {stack : List Path}

theorem explore_of_error (h : f.move p d maxBackJumps = .error e) :
    explore p d maxBackJumps runs (f :: stack) = some (.error e) := by
  rw [explore, h]

theorem explore_of_ok (h : f.move p d maxBackJumps = .ok m) :
    explore p d maxBackJumps runs (f :: stack) = explore p d maxBackJumps (m.runs ++ runs) (m.next ++ stack) := by
  rw [explore, h]

/-- Paths are followed move by move. So what holds at the end of a search and is handed back by every move
    holds of each search that ends. -/
theorem explore_induction {motive : List Run → List Path → Except PathError (List Run) → Prop}
    (nil : ∀ runs, motive runs [] (.ok runs.reverse))
    (error : ∀ {runs f stack e}, f.move p d maxBackJumps = .error e → motive runs (f :: stack) (.error e))
    (ok : ∀ {runs f stack m r}, f.move p d maxBackJumps = .ok m → motive (m.runs ++ runs) (m.next ++ stack) r →
      motive runs (f :: stack) r)
    {r : Except PathError (List Run)} (h : explore p d maxBackJumps runs stack = some r) : motive runs stack r := by
  refine explore.partial_correctness p d maxBackJumps motive ?_ runs stack r h
  intro explore' ih runs stack r h
  cases stack with
  | nil =>
    cases h
    exact nil runs
  | cons f stack =>
    cases hmove : f.move p d maxBackJumps with
    | error e =>
      simp only [hmove] at h
      cases h
      exact error hmove
    | ok m =>
      simp only [hmove] at h
      exact ok hmove (ih _ _ _ h)

theorem explore_eq_error (h : explore p d maxBackJumps runs stack = some (.error e)) :
    ∃ g, Path.Follows p d maxBackJumps stack g ∧ g.Refused p d e := by
  refine explore_induction (motive := fun _ stack r => ∀ e, r = .error e →
    ∃ g, Path.Follows p d maxBackJumps stack g ∧ g.Refused p d e) ?_ ?_ ?_ h e rfl
  · intro runs e h
    cases h
  · rintro runs f stack e hmove _ ⟨⟩
    exact ⟨f, ⟨f, List.mem_cons_self, .refl, Path.not_lt_of_error hmove⟩, Path.refused_of_move hmove⟩
  · intro runs f stack m r hmove ih e hr
    obtain ⟨g, hg, he⟩ := ih e hr
    exact ⟨g, (Path.follows_cons hmove).mpr (Or.inr hg), he⟩

/-- A list holds what was found before and the executions of the paths that are left, none of which is
    refused. -/
structure Listing (p : Program) (d : Durations) (maxBackJumps : Int) (runs : List Run) (stack : List Path)
    (list : List Run) : Prop where
  accepted : ∀ g e, Path.Follows p d maxBackJumps stack g → ¬ g.Refused p d e
  listed : ∀ r, r ∈ list ↔ r ∈ runs ∨ ∃ g, Path.Follows p d maxBackJumps stack g ∧ p.opAt g.pc = .halt ∧ r = g.run

theorem explore_eq_ok (h : explore p d maxBackJumps runs stack = some (.ok list)) :
    Listing p d maxBackJumps runs stack list := by
  refine explore_induction (motive := fun runs stack r => ∀ list, r = .ok list →
    Listing p d maxBackJumps runs stack list) ?_ ?_ ?_ h list rfl
  · rintro runs _ ⟨⟩
    constructor <;> simp [Path.Follows]
  · intro runs f stack e hmove list h
    cases h
  · intro runs f stack m r hmove ih list hr
    obtain ⟨haccepted, hlisted⟩ := ih list hr
    constructor
    · intro g e hg he
      rcases (Path.follows_cons hmove).mp hg with ⟨rfl, hj⟩ | hg
      · rw [he.move hj] at hmove
        cases hmove
      · exact haccepted g e hg he
    · intro r
      rw [hlisted, List.mem_append, Path.mem_runs_iff hmove]
      constructor
      · rintro ((⟨hj, hop, rfl⟩ | hr) | ⟨g, hg, hop, rfl⟩)
        · exact Or.inr ⟨f, (Path.follows_cons hmove).mpr (Or.inl ⟨rfl, hj⟩), hop, rfl⟩
        · exact Or.inl hr
        · exact Or.inr ⟨g, (Path.follows_cons hmove).mpr (Or.inr hg), hop, rfl⟩
      · rintro (hr | ⟨g, hg, hop, rfl⟩)
        · exact Or.inl (Or.inr hr)
        · rcases (Path.follows_cons hmove).mp hg with ⟨rfl, hj⟩ | hg
          · exact Or.inl (Or.inl ⟨hj, hop, rfl⟩)
          · exact Or.inr ⟨g, hg, hop, rfl⟩

/-! ### From an empty cache -/

variable {g : Geometry}

theorem follows_start {f : Path} :
    Path.Follows p d maxBackJumps [.start (.empty g)] f ↔
      Path.ReachesWithin p d maxBackJumps (.start (.empty g)) f ∧ ¬ maxBackJumps < f.jumps.toInt := by
  simp [Path.Follows]

theorem enumerate_eq_error (h : enumerate p g d maxBackJumps = some (.error e)) :
    ∃ f, Path.Reaches p d (.start (.empty g)) f ∧ f.Refused p d e := by
  obtain ⟨f, hf, he⟩ := explore_eq_error h
  exact ⟨f, (follows_start.mp hf).1.reaches, he⟩

theorem Path.Refused.enumerate_ne_ok (he : f.Refused p d e)
    (hf : Path.ReachesWithin p d maxBackJumps (.start (.empty g)) f) (hj : ¬ maxBackJumps < f.jumps.toInt) :
    enumerate p g d maxBackJumps ≠ some (.ok list) := fun h =>
  (explore_eq_ok h).accepted f e (follows_start.mpr ⟨hf, hj⟩) he

theorem mem_enumerate (h : enumerate p g d maxBackJumps = some (.ok list)) {r : Run} :
    r ∈ list ↔ ∃ f, Path.ReachesWithin p d maxBackJumps (.start (.empty g)) f ∧ ¬ maxBackJumps < f.jumps.toInt ∧
      p.opAt f.pc = .halt ∧ r = f.run := by
  rw [(explore_eq_ok h).listed]
  constructor
  · rintro (hr | ⟨f, hf, hop, rfl⟩)
    · cases hr
    · obtain ⟨hreach, hj⟩ := follows_start.mp hf
      exact ⟨f, hreach, hj, hop, rfl⟩
  · rintro ⟨f, hreach, hj, hop, rfl⟩
    exact Or.inr ⟨f, follows_start.mpr ⟨hreach, hj⟩, hop, rfl⟩

end Explore

end CacheTiming
