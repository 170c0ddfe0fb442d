import OctoLift.Numeral

/-!
# Reading numerals back

A hexadecimal numeral gives back its number, whichever case its digits are in and however many
zeros fill it. So two numbers with the same numeral are equal.
-/

namespace OctoLift.Numeral

/-- The value of a base-sixteen digit of either case. -/
def digitValue (c : Char) : Nat :=
  "0123456789ABCDEF".toList.idxOf c.toUpper

/-- The number that base-sixteen digits stand for. -/
def hexValue (digits : List Char) : Nat :=
  digits.foldl (fun value c => 16 * value + digitValue c) 0

theorem digitValue_digitChar : ∀ k < 16, digitValue (Nat.digitChar k) = k := by
  decide

theorem digitValue_toUpper_digitChar : ∀ k < 16, digitValue (Nat.digitChar k).toUpper = k := by
  decide

theorem hexValue_append (digits : List Char) (c : Char) :
    hexValue (digits ++ [c]) = 16 * hexValue digits + digitValue c := by
  simp only [hexValue, List.foldl_append, List.foldl_cons, List.foldl_nil]

theorem hexValue_zeros_append {z : Char} (hz : digitValue z = 0) (count : Nat)
    (digits : List Char) : hexValue (List.replicate count z ++ digits) = hexValue digits := by
  induction count with
  | zero => rfl
  | succ count ih =>
    rw [List.replicate_succ, List.cons_append, ← ih, hexValue, List.foldl_cons, hz]
    rfl

section Written

variable {write : Char → Char} (hwrite : ∀ k < 16, digitValue (write (Nat.digitChar k)) = k)

include hwrite

theorem hexValue_map_toDigits (n : Nat) : hexValue ((Nat.toDigits 16 n).map write) = n := by
  induction n using Nat.strongRecOn with
  | ind n ih =>
    by_cases hn : n < 16
    · rw [Nat.toDigits_of_lt_base hn, List.map_singleton]
      have hdigit := hwrite n hn
      simpa [hexValue] using hdigit
    · rw [Nat.toDigits_of_base_le (by decide) (by omega), List.map_append, List.map_singleton,
        hexValue_append, ih (n / 16) (by omega), hwrite (n % 16) (by omega)]
      omega

theorem hexValue_map_hexDigits (width n : Nat) :
    hexValue ((hexDigits width n).map write) = n := by
  have hzero : digitValue (write '0') = 0 := hwrite 0 (by decide)
  rw [hexDigits, List.map_append, List.map_replicate, hexValue_zeros_append hzero,
    hexValue_map_toDigits hwrite]

end Written

theorem hexLower_injective (width : Nat) : Function.Injective (hexLower width) := by
  intro m n h
  have hdigits : hexDigits width m = hexDigits width n := by
    have hlist := congrArg String.toList h
    simpa [hexLower] using hlist
  have hread (n : Nat) : hexValue (hexDigits width n) = n := by
    have hmap := @hexValue_map_hexDigits id digitValue_digitChar width n
    rwa [List.map_id] at hmap
  rw [← hread m, hdigits, hread n]

end OctoLift.Numeral
