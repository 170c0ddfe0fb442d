/-!
# Dialects

Interpreters disagree on three families of instructions. A dialect says which reading holds.
-/

namespace OctoLift

/-- The choices an interpreter makes. By default none of the three holds. -/
structure Dialect where
  /-- `vx >>= vy` and `vx <<= vy` shift `vx` in place and ignore `vy`. -/
  shiftsInPlace : Bool := false
  /-- `save vx` and `load vx` leave `i` as it was. -/
  keepsIndex : Bool := false
  /-- Arithmetic with a flag writes `vf` before `vx`, so that the result wins in `vf`. -/
  flagFirst : Bool := false
  deriving DecidableEq, Repr, Inhabited

end OctoLift
