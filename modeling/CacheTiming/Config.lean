import CacheTiming.Cache.Ages
import CacheTiming.Domain.Traced
import CacheTiming.Fixpoint.Search

/-! The settings of an analysis. -/

namespace CacheTiming

/-- All that can be set for an analysis. -/
structure Config where
  durations : Durations
  /-- The number of times that a set may hold before it becomes unknown. -/
  maxTimes : Int
  cache : CacheParams
  /-- Whether traces and times are followed; otherwise the cache alone is analyzed. -/
  trackTraces : Bool
  /-- The number of backward jumps after which the heads of loops are widened. -/
  maxUnroll : Int
  /-- How often a state may be widened at each location. -/
  maxIterations : Int
deriving DecidableEq, Repr

/-- Why settings are refused. -/
inductive ConfigError where
  | emptyGeometry (g : Geometry)
  | tooManyWays (ways : UInt64)
  | maxTimes (n : Int)
  | maxUnroll (n : Int)
  | maxIterations (n : Int)
deriving DecidableEq, Repr

namespace Config

/-- The settings that hold where nothing is set. -/
def standard : Config where
  durations := { hit := 3, miss := 20, noAccess := 1 }
  maxTimes := 10000000
  cache := { geometry := { lineSize := 64, sets := 64, ways := 8 }, initiallyEmpty := true }
  trackTraces := true
  maxUnroll := 16
  maxIterations := 64

/-- The largest number of ways, for which ages fit a byte. -/
def maxWays : UInt64 := 255

/-- Checks settings; the first fault counts. -/
def validate (c : Config) : Except ConfigError Unit :=
  let g := c.cache.geometry
  if g.lineSize = 0 ∨ g.sets = 0 ∨ g.ways = 0 then .error (.emptyGeometry g)
  else if maxWays < g.ways then .error (.tooManyWays g.ways)
  else if c.maxTimes < 1 then .error (.maxTimes c.maxTimes)
  else if c.maxUnroll < 0 then .error (.maxUnroll c.maxUnroll)
  else if c.maxIterations < 1 then .error (.maxIterations c.maxIterations)
  else .ok ()

/-- How the settings time the steps of a program. -/
def timing (c : Config) : Traced.Timing := { durations := c.durations, maxTimes := c.maxTimes }

/-- How the settings limit the search for a fixpoint. -/
def limits (c : Config) : Limits := { unroll := c.maxUnroll, rounds := c.maxIterations }

end Config

/-- The wording of an error in the settings. -/
def ConfigError.message : ConfigError → String
  | .emptyGeometry g =>
    "cache geometry must be positive, got \x7bLineSize:" ++ g.lineSize.toNat.repr ++ " Sets:" ++ g.sets.toNat.repr ++
      " Ways:" ++ g.ways.toNat.repr ++ "\x7d"
  | .tooManyWays ways =>
    "at most " ++ Config.maxWays.toNat.repr ++ " ways are supported, got " ++ ways.toNat.repr
  | .maxTimes n => "max_times must be positive, got " ++ n.repr
  | .maxUnroll n => "max_unroll must not be negative, got " ++ n.repr
  | .maxIterations n => "max_iterations must be positive, got " ++ n.repr

end CacheTiming
