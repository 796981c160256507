/-! What a node of the trace trie observed. -/

namespace CacheTiming

/-- The outcome of one memory access, a step without access, or nothing at all for a placeholder. Any
    byte is a status, but only five have a meaning. -/
inductive Status where
  /-- Marks a placeholder, which stands for a merge that no single outcome describes. -/
  | none
  | hit
  | miss
  | hitOrMiss
  | noAccess
  | unknown (code : UInt8) (above : 4 < code)
deriving Repr

namespace Status

/-- The status with a given code. -/
def ofByte (b : UInt8) : Status :=
  if h : 4 < b then .unknown b h
  else if b = 0 then .none
  else if b = 1 then .hit
  else if b = 2 then .miss
  else if b = 3 then .hitOrMiss
  else .noAccess

/-- The code of a status. -/
def toByte : Status → UInt8
  | .none => 0
  | .hit => 1
  | .miss => 2
  | .hitOrMiss => 3
  | .noAccess => 4
  | .unknown code _ => code

theorem ofByte_toByte (s : Status) : ofByte s.toByte = s := by
  cases s with
  | unknown code above => exact dif_pos above
  | _ => rfl

theorem toByte_inj {s t : Status} : s.toByte = t.toByte ↔ s = t :=
  ⟨fun h => by rw [← ofByte_toByte s, h, ofByte_toByte], fun h => h ▸ rfl⟩

/-- Statuses are compared by their codes. -/
instance : DecidableEq Status := fun _ _ => decidable_of_iff _ toByte_inj

/-- The name of a status. -/
def name : Status → String
  | .none => "None"
  | .hit => "Hit"
  | .miss => "Miss"
  | .hitOrMiss => "HitOrMiss"
  | .noAccess => "NoAccess"
  | .unknown .. => "Unknown"

/-- The order of statuses: `hitOrMiss` covers a hit and a miss, any other status only itself. -/
def subseteq (s t : Status) : Bool :=
  s = t || (t = .hitOrMiss && (s = .hit || s = .miss))

end Status

end CacheTiming
