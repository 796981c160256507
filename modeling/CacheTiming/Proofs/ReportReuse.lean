import CacheTiming.Auditor
import CacheTiming.Proofs.Program.Canonical

/-! Remembered reports are what a new analysis would say.

A report depends on the program only through its code, its fingerprint and its name, and programs with one
fingerprint have the same code as long as the digest tells their canonical texts apart. So an auditor that
looks up a report by the fingerprint and puts the new name into it answers like one that has seen no
program before, and its statistics count these answers. -/

namespace CacheTiming

variable {p q : Program} {c : Config}

/-! ### What a report depends on -/

section Code
variable {μ σ : Type} {D : Domain μ σ} {limits : Limits} (h : p.code = q.code)
include h

theorem Fixpoint.loop_of_code (fuel : Nat) : loop D limits p fuel = loop D limits q fuel := by
  induction fuel with
  | zero => rfl
  | succ fuel ih => simp only [loop, interpret, Program.fetch, h, ih]

theorem analyze_of_code (m : μ) : analyze D limits p m = analyze D limits q m := by
  simp only [analyze, Fixpoint.bound, h, Fixpoint.loop_of_code h]

end Code

def Report.named (r : Report) (name : String) : Report := { r with program := name }

def Examination.named (x : Examination) (name : String) : Examination := { x with report := x.report.named name }

theorem Examination.ofAnalysis_named {μ σ : Type} {fill : Report → σ → Except Fault Report} {r blank : Report}
    {name : String} (a : Analysis μ σ) (metrics : Metrics) (hr : r = blank.named name)
    (hfill : ∀ r final, fill (r.named name) final = (fill r final).map (·.named name)) :
    ofAnalysis a metrics r fill = (ofAnalysis a metrics blank fill).named name := by
  subst hr
  unfold ofAnalysis
  cases a.verdict with
  | converged final =>
    simp only [hfill]
    cases fill blank final with
    | ok r => rfl
    | error f => rfl
  | gaveUp cause => rfl
  | aborted e => rfl

/-- Examinations of programs with the same code and fingerprint differ in the name only. -/
theorem Examination.run_of_code (c : Config) (hcode : p.code = q.code) (hdigest : p.fingerprint = q.fingerprint) :
    run c p = (run c q).named p.name := by
  simp only [run, hdigest, analyze_of_code hcode]
  split
  · refine ofAnalysis_named _ _ rfl fun r final => ?_
    generalize Traced.render _ final = summary
    cases summary <;> rfl
  · refine ofAnalysis_named _ _ rfl fun r final => ?_
    generalize CacheModel.render final = summary
    cases summary <;> rfl

theorem Program.digest_eq_of_fingerprint (h : p.fingerprint = q.fingerprint) :
    Digest.keccak256 p.text = Digest.keccak256 q.text := by
  have h := congrArg String.toList h
  rw [fingerprint, fingerprint, String.toList_append, String.toList_append, List.append_cancel_left_eq] at h
  exact Text.hexBytes_inj (String.toList_inj.mp h)

/-! ### Answers -/

/-- What a caller learns from an audit beside its log. -/
def Audit.answer (x : Audit) : Report × Option AuditError := (x.report, x.error)

/-- What a caller is to learn from an examination. -/
def Examination.answer (x : Examination) : Report × Option AuditError := (x.report, x.failure.map .failure)

namespace Auditor

variable {a b : Auditor} {ps rest : List Program} {x : Audit}

/-- The audits of programs one after the other, and the auditor after them. -/
def analyzeAll (a : Auditor) : List Program → List Audit × Auditor
  | [] => ([], a)
  | p :: rest =>
    let audits := (a.analyze p).2.analyzeAll rest
    ((a.analyze p).1 :: audits.1, audits.2)

/-- How an auditor with accepted settings answers, and what becomes of it. -/
inductive Answers (a : Auditor) (p : Program) : Audit → Auditor → Prop where
  | known {r : Report} (found : a.reports[p.fingerprint]? = some r) :
      Answers a p { report := r.named p.name } (a.record (r.named p.name))
  | failed {e : Failure} {log : Array Event} {metrics : Metrics} (unknown : a.reports[p.fingerprint]? = none)
      (failure : (Examination.run a.config p).failure = some e) :
      Answers a p { report := (Examination.run a.config p).report, error := some (.failure e), log }
        { a with metrics, errors := a.errors + 1 }
  | new {log : Array Event} {metrics : Metrics} (unknown : a.reports[p.fingerprint]? = none)
      (failure : (Examination.run a.config p).failure = none) :
      Answers a p { report := (Examination.run a.config p).report, log }
        ({ a with metrics, reports := a.reports.insert p.fingerprint (Examination.run a.config p).report }.record
          (Examination.run a.config p).report)

theorem answers (hc : a.config.validate = .ok ()) (p : Program) : a.Answers p (a.analyze p).1 (a.analyze p).2 := by
  unfold analyze
  simp only [hc]
  cases hknown : a.reports[p.fingerprint]? with
  | some r => exact .known hknown
  | none =>
    cases hfailure : (Examination.run a.config p).failure with
    | some e => exact .failed hknown hfailure
    | none => exact .new hknown hfailure

theorem record_keeps (a : Auditor) (r : Report) : (a.record r).config = a.config ∧ (a.record r).reports = a.reports := by
  unfold record
  cases r.cause <;> exact ⟨rfl, rfl⟩

theorem Answers.config_eq (h : a.Answers p x b) : b.config = a.config := by
  cases h with
  | known found => exact (record_keeps a _).1
  | failed unknown failure => rfl
  | new unknown failure => exact (record_keeps _ _).1

/-- Every report that an auditor remembers is that of a program in the list. -/
structure Remembers (a : Auditor) (c : Config) (ps : List Program) : Prop where
  config : a.config = c
  reports : ∀ {digest : String} {r : Report}, a.reports[digest]? = some r →
    ∃ q ∈ ps, q.fingerprint = digest ∧ (Examination.run c q).failure = none ∧ r = (Examination.run c q).report

theorem remembers_start (c : Config) (ps : List Program) : Remembers { config := c } c ps := by
  refine ⟨rfl, fun {digest r} h => ?_⟩
  rw [Std.ExtTreeMap.getElem?_empty] at h
  cases h

theorem Remembers.record (h : a.Remembers c ps) (r : Report) : (a.record r).Remembers c ps := by
  obtain ⟨hconfig, hreports⟩ := record_keeps a r
  exact ⟨hconfig.trans h.config, fun hr => h.reports (hreports ▸ hr)⟩

/-- An auditor answers what an examination of the program says, and goes on remembering reports of these
    programs only. -/
theorem Answers.remembers (h : a.Answers p x b) (ha : a.Remembers c ps) (hp : p ∈ ps)
    (hcode : ∀ q ∈ ps, p.fingerprint = q.fingerprint → p.code = q.code) :
    x.answer = (Examination.run c p).answer ∧ b.Remembers c ps := by
  obtain ⟨rfl, hreports⟩ := ha
  cases h with
  | known found =>
    refine ⟨?_, Remembers.record ⟨rfl, hreports⟩ _⟩
    obtain ⟨q, hq, hdigest, hfailure, rfl⟩ := hreports found
    rw [Examination.run_of_code a.config (hcode q hq hdigest.symm) hdigest.symm]
    simp only [Audit.answer, Examination.answer, Examination.named, hfailure]
    rfl
  | failed unknown failure =>
    refine ⟨?_, rfl, hreports⟩
    simp only [Audit.answer, Examination.answer, failure]
    rfl
  | new unknown failure =>
    refine ⟨?_, Remembers.record ⟨rfl, fun {digest r} hr => ?_⟩ _⟩
    · simp only [Audit.answer, Examination.answer, failure]
      rfl
    · simp only [Std.ExtTreeMap.getElem?_insert, Std.LawfulEqCmp.compare_eq_iff_eq] at hr
      split at hr
      · rename_i hdigest
        cases hr
        exact ⟨p, hp, hdigest, failure, rfl⟩
      · exact hreports hr

theorem Remembers.analyzeAll (hc : c.validate = .ok ()) (hrest : ∀ p ∈ rest, p ∈ ps)
    (hcode : ∀ p ∈ ps, ∀ q ∈ ps, p.fingerprint = q.fingerprint → p.code = q.code) (h : a.Remembers c ps) :
    (a.analyzeAll rest).1.map Audit.answer = rest.map fun p => (Examination.run c p).answer := by
  induction rest generalizing a with
  | nil => rfl
  | cons p rest ih =>
    obtain ⟨hp, hrest⟩ := List.forall_mem_cons.mp hrest
    obtain ⟨hanswer, hnext⟩ := (answers (h.config ▸ hc) p).remembers h hp (hcode p hp)
    rw [Auditor.analyzeAll, List.map_cons, List.map_cons, hanswer, ih hrest hnext]

end Auditor

/-! ### Statistics -/

namespace Audit

def isError (x : Audit) : Bool := x.error.isSome

def isSuccess (x : Audit) : Bool := !x.isError && x.report.cause.isNone

/-- Whether an audit ended with a report that the analysis gave up. -/
def isFailure (x : Audit) : Bool := !x.isError && x.report.cause.isSome

def isFailureFor (cause : Cause) (x : Audit) : Bool := !x.isError && x.report.cause == some cause

end Audit

namespace Auditor

variable {a b : Auditor} {x : Audit} {audits : List Audit}

def total (counts : Std.ExtTreeMap Cause Nat) : Nat := counts.foldl (fun sum _ n => sum + n) 0

theorem foldl_add (counts : List (Cause × Nat)) (m n : Nat) :
    counts.foldl (fun sum x => sum + x.2) (m + n) = counts.foldl (fun sum x => sum + x.2) m + n := by
  induction counts generalizing m with
  | nil => rfl
  | cons x counts ih => rw [List.foldl_cons, List.foldl_cons, Nat.add_right_comm, ih]

theorem total_insert {counts : Std.ExtTreeMap Cause Nat} {cause : Cause} (h : cause ∉ counts) (n : Nat) :
    total (counts.insert cause n) = total counts + n := by
  have hperm := Program.toList_insert_perm h n
  rw [total, total, Std.ExtTreeMap.foldl_eq_foldl_toList, Std.ExtTreeMap.foldl_eq_foldl_toList,
    hperm.foldl_eq' fun x _ y _ sum => Nat.add_right_comm sum x.2 y.2, List.foldl_cons, foldl_add]

/-- Counting one more of a cause adds one to the sum, whether or not the cause was met before. -/
theorem total_count (counts : Std.ExtTreeMap Cause Nat) (cause : Cause) :
    total (counts.insert cause (counts[cause]?.getD 0 + 1)) = total counts + 1 := by
  cases hcount : counts[cause]? with
  | none =>
    have hnew : cause ∉ counts := by simp [Std.ExtTreeMap.mem_iff_isSome_getElem?, hcount]
    exact total_insert hnew 1
  | some n =>
    have hnew : cause ∉ counts.erase cause := by simp
    have hold : counts = (counts.erase cause).insert cause n := by
      refine Std.ExtTreeMap.ext_getElem? fun k => ?_
      simp only [Std.ExtTreeMap.getElem?_insert, Std.ExtTreeMap.getElem?_erase, Std.LawfulEqCmp.compare_eq_iff_eq]
      split
      · rename_i heq
        rw [← heq, hcount]
      · rfl
    have hnext : counts.insert cause (n + 1) = (counts.erase cause).insert cause (n + 1) := by
      refine Std.ExtTreeMap.ext_getElem? fun k => ?_
      simp only [Std.ExtTreeMap.getElem?_insert, Std.ExtTreeMap.getElem?_erase]
      split <;> rfl
    calc total (counts.insert cause (n + 1))
        = total (counts.erase cause) + (n + 1) := by rw [hnext, total_insert hnew]
      _ = total ((counts.erase cause).insert cause n) + 1 := by rw [total_insert hnew]; rfl
      _ = total counts + 1 := by rw [← hold]

/-- The statistics of an auditor count the audits so far. -/
structure Tallies (a : Auditor) (audits : List Audit) : Prop where
  successes : a.successes = audits.countP Audit.isSuccess
  failures : a.failures = audits.countP Audit.isFailure
  errors : a.errors = audits.countP Audit.isError
  causes : ∀ cause, a.causes[cause]?.getD 0 = audits.countP (Audit.isFailureFor cause)
  total : total a.causes = a.failures

theorem tallies_start (c : Config) : Tallies { config := c } [] where
  successes := rfl
  failures := rfl
  errors := rfl
  causes cause := by simp
  total := rfl

theorem Tallies.record {r : Report} (h : a.Tallies audits) (hr : x.report = r) (hx : x.error = none) :
    (a.record r).Tallies (audits ++ [x]) := by
  subst hr
  unfold Auditor.record
  cases hcause : x.report.cause with
  | none =>
    constructor
    · simp [h.successes, Audit.isSuccess, Audit.isError, hx, hcause]
    · simp [h.failures, Audit.isFailure, Audit.isError, hx, hcause]
    · simp [h.errors, Audit.isError, hx]
    · intro cause
      simp [h.causes, Audit.isFailureFor, Audit.isError, hx, hcause]
    · exact h.total
  | some cause =>
    constructor
    · simp [h.successes, Audit.isSuccess, Audit.isError, hx, hcause]
    · simp [h.failures, Audit.isFailure, Audit.isError, hx, hcause]
    · simp [h.errors, Audit.isError, hx]
    · intro other
      rw [List.countP_append, List.countP_singleton, Std.ExtTreeMap.getElem?_insert, ← h.causes]
      simp only [Audit.isFailureFor, Audit.isError, hx, hcause]
      by_cases heq : cause = other
      · subst heq
        simp
      · simp [heq]
    · simp only [total_count, h.total]

theorem Answers.tallies {p : Program} (h : a.Answers p x b) (ha : a.Tallies audits) : b.Tallies (audits ++ [x]) := by
  cases h with
  | known found => exact ha.record rfl rfl
  | failed unknown failure =>
    constructor
    · simp [ha.successes, Audit.isSuccess, Audit.isError]
    · simp [ha.failures, Audit.isFailure, Audit.isError]
    · simp [ha.errors, Audit.isError]
    · intro cause
      simp [ha.causes, Audit.isFailureFor, Audit.isError]
    · exact ha.total
  | new unknown failure => exact Tallies.record ⟨ha.successes, ha.failures, ha.errors, ha.causes, ha.total⟩ rfl rfl

theorem Tallies.analyzeAll (hc : a.config.validate = .ok ()) (h : a.Tallies audits) (ps : List Program) :
    (a.analyzeAll ps).2.Tallies (audits ++ (a.analyzeAll ps).1) := by
  induction ps generalizing a audits with
  | nil =>
    rw [Auditor.analyzeAll, List.append_nil]
    exact h
  | cons p ps ih =>
    have hanswers := answers hc p
    have hrest := ih (hanswers.config_eq ▸ hc) (hanswers.tallies h)
    rw [List.append_assoc, List.singleton_append] at hrest
    exact hrest

end Auditor

/-- That reports are remembered cannot be observed. However often and in which order programs are analyzed with
    one auditor, as long as the digest tells their canonical texts apart every answer is that of an auditor which
    has analyzed nothing before, and the statistics count these answers. -/
theorem remembered_reports_as_new (hc : c.validate = .ok ()) {ps : List Program}
    (hread : ∀ p ∈ ps, ∃ name text, Program.parse name text = .ok p)
    (hdigest : ∀ p ∈ ps, ∀ q ∈ ps, Digest.keccak256 p.text = Digest.keccak256 q.text → p.text = q.text) :
    (Auditor.analyzeAll { config := c } ps).1.map Audit.answer =
      ps.map (fun p => (Auditor.analyze { config := c } p).1.answer) ∧
    (Auditor.analyzeAll { config := c } ps).2.Tallies (Auditor.analyzeAll { config := c } ps).1 := by
  have hcode : ∀ p ∈ ps, ∀ q ∈ ps, p.fingerprint = q.fingerprint → p.code = q.code := by
    intro p hp q hq h
    obtain ⟨_, _, hp'⟩ := hread p hp
    obtain ⟨_, _, hq'⟩ := hread q hq
    exact ((Program.text_eq_iff hp' hq').mp (hdigest p hp q hq (Program.digest_eq_of_fingerprint h))).1
  constructor
  · rw [(Auditor.remembers_start c ps).analyzeAll hc (fun _ => id) hcode]
    refine List.map_congr_left fun p hp => ?_
    exact ((Auditor.answers hc p).remembers (Auditor.remembers_start c ps) hp (hcode p hp)).1.symm
  · exact (Auditor.tallies_start c).analyzeAll hc ps

def Program.single (name : String) : Program where
  name := name
  code := [{ op := .touch, arg := 64 }]
  labels := ∅

/-- One program under two names. -/
def Program.respelled : List Program := [.single "first", .single "second", .single "first"]

theorem respelled_programs_answered_as_new :
    Program.parse "first" (Text.utf8 "TOUCH 64") = .ok (.single "first") ∧
    Program.parse "second" (Text.utf8 "touch 0x40 ; again") = .ok (.single "second") ∧
    (Auditor.analyzeAll { config := .standard } Program.respelled).1.map Audit.answer =
      Program.respelled.map (fun p => (Auditor.analyze { config := .standard } p).1.answer) ∧
    (Auditor.analyzeAll { config := .standard } Program.respelled).2.Tallies
      (Auditor.analyzeAll { config := .standard } Program.respelled).1 := by
  have hfirst : Program.parse "first" (Text.utf8 "TOUCH 64") = .ok (.single "first") := rfl
  have hsecond : Program.parse "second" (Text.utf8 "touch 0x40 ; again") = .ok (.single "second") := rfl
  have hname : ∀ p ∈ Program.respelled, p = .single "first" ∨ p = .single "second" := by simp [Program.respelled]
  refine ⟨hfirst, hsecond, remembered_reports_as_new rfl (fun p hp => ?_) (fun p hp q hq _ => ?_)⟩
  · rcases hname p hp with rfl | rfl
    · exact ⟨_, _, hfirst⟩
    · exact ⟨_, _, hsecond⟩
  · -- The canonical text does not mention the name.
    rcases hname p hp with rfl | rfl <;> rcases hname q hq with rfl | rfl <;> rfl

end CacheTiming
