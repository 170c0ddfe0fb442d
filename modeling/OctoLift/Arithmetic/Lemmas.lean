import OctoLift.Arithmetic

/-!
# What byte operations compute

A logical operation works on each bit alone. A carrying one has a result that need not fit in a
byte: its value and its flag make up this result, so that either is told by the other and the
operands.
-/

namespace OctoLift

namespace AluOp

/-- The operation on a single bit of either operand. -/
def onBits : AluOp → Bool → Bool → Bool
  | set, _, b => b
  | or, a, b => a || b
  | and, a, b => a && b
  | xor, a, b => a ^^ b

theorem testBit_eval (op : AluOp) (a b : UInt8) (k : Nat) :
    (op.eval a b).toNat.testBit k = op.onBits (a.toNat.testBit k) (b.toNat.testBit k) := by
  cases op with
  | set => rfl
  | or => rw [eval, UInt8.toNat_or, Nat.testBit_or, onBits]
  | and => rw [eval, UInt8.toNat_and, Nat.testBit_and, onBits]
  | xor => rw [eval, UInt8.toNat_xor, Nat.testBit_xor, onBits]

end AluOp

namespace CarryOp

/-- How operands, value and flag belong together. The flag of an addition or a shift to the left is
the ninth bit of the result, that of a shift to the right the bit below the lowest one; without the
flag of a subtraction, 256 has been borrowed. -/
def Computes : CarryOp → (a b value flag : Nat) → Prop
  | add, a, b, value, flag => value + 256 * flag = a + b
  | sub, a, b, value, flag => value + 256 * flag + b = a + 256
  | shr, _, b, value, flag => 2 * value + flag = b
  | subRev, a, b, value, flag => value + 256 * flag + a = b + 256
  | shl, _, b, value, flag => value + 256 * flag = 2 * b

variable {op : CarryOp}

section Shifts

variable (b : UInt8)

theorem toNat_shiftRight_one : (b >>> 1).toNat = b.toNat / 2 := by
  simp [Nat.shiftRight_eq_div_pow]

theorem toNat_shiftRight_seven : (b >>> 7).toNat = b.toNat / 128 := by
  simp [Nat.shiftRight_eq_div_pow]

theorem toNat_shiftLeft_one : (b <<< 1).toNat = b.toNat * 2 % 256 := by
  simp [Nat.shiftLeft_eq]

theorem toNat_and_one : (b &&& 1).toNat = b.toNat % 2 := by
  simp [Nat.and_one_is_mod]

end Shifts

theorem flag_le_one (op : CarryOp) (a b : UInt8) : (op.flag a b).toNat ≤ 1 := by
  have hb := b.toNat_lt
  cases op with
  | add | sub | subRev =>
    rw [flag]
    split <;> decide
  | shr =>
    rw [flag, toNat_and_one]
    omega
  | shl =>
    rw [flag, toNat_shiftRight_seven]
    omega

theorem computes_value_flag (op : CarryOp) (a b : UInt8) :
    op.Computes a.toNat b.toNat (op.value a b).toNat (op.flag a b).toNat := by
  have ha := a.toNat_lt
  have hb := b.toNat_lt
  have hone : (1 : UInt8).toNat = 1 := rfl
  have hzero : (0 : UInt8).toNat = 0 := rfl
  cases op with
  | add =>
    simp only [Computes, value, flag, UInt8.toNat_add]
    split <;> omega
  | sub | subRev =>
    simp only [Computes, value, flag, UInt8.toNat_sub, UInt8.le_iff_toNat_le]
    split <;> omega
  | shr =>
    simp only [Computes, value, flag, toNat_shiftRight_one, toNat_and_one]
    omega
  | shl =>
    simp only [Computes, value, flag, toNat_shiftLeft_one, toNat_shiftRight_seven]
    omega

theorem Computes.unique {a b value flag value' flag' : Nat} (h : op.Computes a b value flag)
    (h' : op.Computes a b value' flag') (hvalue : value < 256) (hvalue' : value' < 256)
    (hflag : flag ≤ 1) (hflag' : flag' ≤ 1) : value = value' ∧ flag = flag' := by
  cases op <;> simp only [Computes] at h h' <;> omega

/-- The value and the flag of an operation are what belongs together with the operands, and nothing
else does. -/
theorem computes_iff {a b value flag : UInt8} :
    op.Computes a.toNat b.toNat value.toNat flag.toNat ∧ flag.toNat ≤ 1 ↔
      value = op.value a b ∧ flag = op.flag a b := by
  constructor
  · rintro ⟨h, hflag⟩
    obtain ⟨hv, hf⟩ := h.unique (op.computes_value_flag a b) value.toNat_lt
      (op.value a b).toNat_lt hflag (op.flag_le_one a b)
    exact ⟨UInt8.toNat_inj.1 hv, UInt8.toNat_inj.1 hf⟩
  · rintro ⟨rfl, rfl⟩
    exact ⟨op.computes_value_flag a b, op.flag_le_one a b⟩

end CarryOp
end OctoLift
