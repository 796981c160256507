import CacheTiming.Domain.Basic

/-! The domain of caches alone, without traces and times. -/

namespace CacheTiming.CacheOnly

variable {χ : Type} [CacheModel χ]

/-- The cache after an access, which covers both outcomes. -/
def touch (c : χ) (address : UInt64) : Action Losses χ := do
  let outcomes ← Action.ofFault (CacheModel.touch c address)
  match outcomes.hit, outcomes.miss with
  | none, none =>
    modify fun m => { m with bottoms := m.bottoms + 1 }
    throw .bottom
  | some hit, none => return hit
  | none, some miss => return miss
  | some hit, some miss => Action.ofFault (CacheModel.join hit miss)

/-- The domain that starts with a given cache. -/
def domain (initial : χ) : Domain Losses χ where
  init := initial
  touch := touch
  elapse c time := return CacheModel.elapse c time
  join c d := Action.ofFault (CacheModel.join c d)
  widen c d := Action.ofFault (CacheModel.widen c d)
  subseteq c d := Action.ofFault (CacheModel.subseteq c d)

end CacheTiming.CacheOnly
