import CacheTiming.Report

/-! The auditor: analyses of many programs with one set of settings.

An auditor keeps statistics over all programs. It remembers its reports by the fingerprint of the
program, so a program that was analyzed before is not analyzed again; failures are not remembered. -/

namespace CacheTiming

namespace Cause

/-- Causes are ordered by their names. -/
instance : Ord Cause where
  compare := compareOn Cause.name

instance : Std.TransOrd Cause := inferInstanceAs (Std.TransCmp (compareOn Cause.name))

instance : Std.LawfulEqOrd Cause where
  eq_of_compare {a b} h := by
    have h : compare a.name b.name = .eq := h
    have h := Std.LawfulEqOrd.eq_of_compare h
    cases a <;> cases b <;> simp_all [name]

end Cause

/-- Why an audit ended with an error. -/
inductive AuditError where
  | config (e : ConfigError)
  | failure (e : Failure)
deriving DecidableEq, Repr

/-- The wording of an audit error. -/
def AuditError.message : AuditError → String
  | .config e => e.message
  | .failure e => e.message

/-- What an auditor says about a program. -/
structure Audit where
  report : Report
  error : Option AuditError := none
  log : Array Event := #[]

/-- An auditor. -/
structure Auditor where
  config : Config
  /-- The reports so far, by fingerprint. -/
  reports : Std.ExtTreeMap String Report := ∅
  successes : Nat := 0
  failures : Nat := 0
  errors : Nat := 0
  /-- How often each cause made an analysis give up. -/
  causes : Std.ExtTreeMap Cause Nat := ∅
  metrics : Metrics := {}

namespace Auditor

/-- Counts a report as a success or by the cause that made the analysis give up. -/
def record (a : Auditor) (r : Report) : Auditor :=
  match r.cause with
  | none => { a with successes := a.successes + 1 }
  | some cause =>
    { a with failures := a.failures + 1, causes := a.causes.insert cause ((a.causes[cause]?).getD 0 + 1) }

/-- The event that closes the log of a report. -/
def closing (r : Report) : Event :=
  match r.cause with
  | none => .finished r.nodes (r.times.getD 0) r.traces
  | some cause => .gaveUp cause

/-- Analyzes a program. -/
def analyze (a : Auditor) (p : Program) : Audit × Auditor :=
  match a.config.validate with
  | .error e => ({ report := {}, error := some (.config e) }, a)
  | .ok () =>
    match a.reports[p.fingerprint]? with
    | some known =>
      let report := { known with program := p.name }
      ({ report }, a.record report)
    | none =>
      let x := Examination.run a.config p
      let a := { a with metrics := a.metrics.add x.metrics }
      match x.failure with
      | some e =>
        ({ report := x.report, error := some (.failure e), log := x.log.push (.aborted e) },
          { a with errors := a.errors + 1 })
      | none =>
        ({ report := x.report, log := x.log.push (closing x.report) },
          { a with reports := a.reports.insert p.fingerprint x.report }.record x.report)

end Auditor

end CacheTiming
