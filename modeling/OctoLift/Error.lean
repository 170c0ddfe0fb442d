import OctoLift.Numeral

/-!
# Errors

Why a ROM cannot be analysed or its source not be written.
-/

namespace OctoLift

/-- The largest ROM that fits between the entry point and the end of memory. -/
def maxRomSize : Nat := 65024

/-- What can go wrong. -/
inductive Error where
  | romTooLarge (size : Nat)
  | incomplete (pending : Nat)
  | alreadyFinalized
  | notFinalized
  deriving DecidableEq, Repr

/-- The text of an error. -/
def Error.message : Error → String
  | romTooLarge size =>
    "ROM is " ++ Numeral.decimal size ++ " bytes, at most " ++ Numeral.decimal maxRomSize ++
      " fit above the load address"
  | incomplete pending =>
    "analysis incomplete: " ++ Numeral.decimal pending ++ " addresses still pending"
  | alreadyFinalized => "analysis already finalized"
  | notFinalized => "analysis not finalized: call finalize before format"

end OctoLift
