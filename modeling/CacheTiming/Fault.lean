/-! Faults: what stops a computation that was asked for something impossible.

A fault is no verdict on a program. It cannot occur with a cache geometry that has been validated, with
one cache model throughout and with instructions that a machine can run. -/

namespace CacheTiming

/-- The reason of a fault. -/
inductive Fault where
  /-- A line size or a number of sets is zero. -/
  | zeroDivisor
  /-- A machine was asked to run an operation that it cannot run by itself. -/
  | notExecutable
  /-- Caches of two different models were to be combined. -/
  | mixedModels
deriving DecidableEq, Repr

/-- The wording of a fault. -/
def Fault.message : Fault → String
  | .zeroDivisor => "the line size and the number of sets must not be zero"
  | .notExecutable => "the operation has no execution of its own"
  | .mixedModels => "caches of different models cannot be combined"

end CacheTiming
