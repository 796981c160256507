import CacheTiming.Config
import CacheTiming.Domain.CacheOnly

/-! The report on one program. -/

namespace CacheTiming

/-- What an analysis found out about a program. -/
structure Report where
  program : String := ""
  fingerprint : String := ""
  /-- Why the analysis gave up, if it did. -/
  cause : Option Cause := none
  tracesTracked : Bool := false
  /-- A bound on the number of traces, if they were followed to the end. -/
  traces : Option Count := none
  /-- A bound on the number of times, if it is known. -/
  times : Option Nat := none
  /-- The number of trie nodes. -/
  nodes : Nat := 0
  /-- A description of the final state. -/
  summary : String := ""
deriving DecidableEq, Repr

namespace Report

/-- The bits that the traces are worth, with nine decimals. -/
def traceBits (r : Report) : String := Bits.text 9 (r.traces.getD 0)

/-- The bits that the times are worth, with nine decimals. -/
def timeBits (r : Report) : String := Bits.text 9 (r.times.getD 0)

end Report

/-- What the analyses so far have done. -/
structure Metrics where
  nodesCreated : Nat := 0
  hashConsHits : Nat := 0
  placeholders : Nat := 0
  timeCollapses : Nat := 0
  bottomPaths : Nat := 0
deriving DecidableEq, Repr

namespace Metrics

/-- What a store and a domain over it have done. -/
def of (u : Usage) (l : Losses) : Metrics where
  nodesCreated := u.created
  hashConsHits := u.reused
  placeholders := u.placeholders
  timeCollapses := l.collapses
  bottomPaths := l.bottoms

/-- The metrics of two parts together. -/
def add (a b : Metrics) : Metrics where
  nodesCreated := a.nodesCreated + b.nodesCreated
  hashConsHits := a.hashConsHits + b.hashConsHits
  placeholders := a.placeholders + b.placeholders
  timeCollapses := a.timeCollapses + b.timeCollapses
  bottomPaths := a.bottomPaths + b.bottomPaths

end Metrics

/-- The analysis of one program on its own. -/
structure Examination where
  report : Report
  /-- Why there is no verdict, if there is none. -/
  failure : Option Failure
  metrics : Metrics
  log : Array Event

namespace Examination

/-- Puts an examination together from an analysis, given the metrics of its memory, a report that is
    filled in if it succeeds, and how to fill that in. -/
def ofAnalysis {μ σ : Type} (a : Analysis μ σ) (metrics : Metrics) (blank : Report)
    (fill : Report → σ → Except Fault Report) : Examination :=
  match a.verdict with
  | .converged final =>
    match fill blank final with
    | .ok report => { report, failure := none, metrics, log := a.log }
    | .error f => { report := blank, failure := some (.fault f), metrics, log := a.log }
  | .gaveUp cause => { report := { blank with cause := some cause }, failure := none, metrics, log := a.log }
  | .aborted e => { report := blank, failure := some e, metrics, log := a.log }

/-- Analyzes a program with the settings given. -/
def run (c : Config) (p : Program) : Examination :=
  let blank : Report := { program := p.name, fingerprint := p.fingerprint, tracesTracked := c.trackTraces }
  let cache := AgeCache.initial c.cache
  if c.trackTraces then
    let a := analyze (Traced.domain c.timing cache) c.limits p {}
    let store := a.memory.store
    ofAnalysis a (.of store.usage a.memory.losses) { blank with nodes := store.size } fun report final =>
      (final.render store).map fun summary =>
        { report with traces := some (store.count final.trace), times := final.times.card?, summary }
  else
    let a := analyze (CacheOnly.domain cache) c.limits p {}
    ofAnalysis a (.of {} a.memory) blank fun report final =>
      (CacheModel.render final).map fun summary => { report with summary }

end Examination

end CacheTiming
