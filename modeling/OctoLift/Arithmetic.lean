/-!
# Byte arithmetic

The two-operand operations of the `8xyn` family on bytes. The logical ones give a value, the
carrying ones a value and the flag that goes to `vf`.
-/

namespace OctoLift

/-- Operations that write `vx` alone. -/
inductive AluOp where
  | set
  | or
  | and
  | xor
  deriving DecidableEq, Repr, Inhabited

namespace AluOp

/-- The value that `vx` takes from the bytes `a` in `vx` and `b` in `vy`. -/
def eval : AluOp → UInt8 → UInt8 → UInt8
  | set, _, b => b
  | or, a, b => a ||| b
  | and, a, b => a &&& b
  | xor, a, b => a ^^^ b

def symbol : AluOp → String
  | set => ":="
  | or => "|="
  | and => "&="
  | xor => "^="

end AluOp

/-- Operations that write `vx` and a carry or borrow flag. -/
inductive CarryOp where
  /-- `vx += vy`, flag set on carry. -/
  | add
  /-- `vx -= vy`, flag set when nothing is borrowed. -/
  | sub
  /-- `vx >>= vy`, the flag is the bit shifted out. -/
  | shr
  /-- `vx =- vy`, flag set when nothing is borrowed. -/
  | subRev
  /-- `vx <<= vy`, the flag is the bit shifted out. -/
  | shl
  deriving DecidableEq, Repr, Inhabited

namespace CarryOp

/-- The value for `vx`, from the bytes `a` in `vx` and `b` in the source register. -/
def value : CarryOp → UInt8 → UInt8 → UInt8
  | add, a, b => a + b
  | sub, a, b => a - b
  | shr, _, b => b >>> 1
  | subRev, a, b => b - a
  | shl, _, b => b <<< 1

/-- The flag for `vf`, from the bytes `a` in `vx` and `b` in the source register. -/
def flag : CarryOp → UInt8 → UInt8 → UInt8
  | add, a, b => if 256 ≤ a.toNat + b.toNat then 1 else 0
  | sub, a, b => if b ≤ a then 1 else 0
  | shr, _, b => b &&& 1
  | subRev, a, b => if a ≤ b then 1 else 0
  | shl, _, b => b >>> 7

/-- The shifts read their source register according to the dialect. -/
def isShift : CarryOp → Bool
  | shr | shl => true
  | add | sub | subRev => false

def symbol : CarryOp → String
  | add => "+="
  | sub => "-="
  | shr => ">>="
  | subRev => "=-"
  | shl => "<<="

end CarryOp
end OctoLift
