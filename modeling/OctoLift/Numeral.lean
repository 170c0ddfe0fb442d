/-!
# Numerals

Addresses and bytes are written in hexadecimal with a fixed least number of digits, small
operands in decimal.
-/

namespace OctoLift.Numeral

/-- The base-sixteen digits of `n`, in lower case, filled with zeros on the left up to `width`. -/
def hexDigits (width n : Nat) : List Char :=
  let digits := Nat.toDigits 16 n
  List.replicate (width - digits.length) '0' ++ digits

/-- `0x` and at least `width` lower-case digits. -/
def hexLower (width n : Nat) : String :=
  "0x" ++ String.ofList (hexDigits width n)

/-- `0x` and at least `width` upper-case digits. -/
def hexUpper (width n : Nat) : String :=
  "0x" ++ String.ofList ((hexDigits width n).map Char.toUpper)

/-- A byte in two upper-case digits. -/
def byte (b : UInt8) : String :=
  hexUpper 2 b.toNat

/-- The shortest decimal numeral. -/
def decimal (n : Nat) : String :=
  n.repr

theorem toList_hexUpper (width n : Nat) :
    (hexUpper width n).toList = '0' :: 'x' :: (hexDigits width n).map Char.toUpper := by
  simp [hexUpper]

end OctoLift.Numeral
