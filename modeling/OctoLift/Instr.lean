import OctoLift.Arithmetic

/-!
# Instructions

The instruction set of CHIP-8 with the SUPER-CHIP and XO-CHIP extensions. Registers are numbered
`0` to `15`, addresses have sixteen bits. Every instruction takes two bytes except the long index
load, which takes four.
-/

namespace OctoLift

/-- A location of the interpreter's memory. -/
abbrev Address := UInt16

/-- The number of a `v` register, or any other four-bit operand. -/
abbrev Nibble := Fin 16

/-- The register `vf`, which takes flags. -/
def flagRegister : Nibble := ⟨15, by decide⟩

/-- The register `v0`, which offsets jumps. -/
def offsetRegister : Nibble := ⟨0, by decide⟩

/-- Programs are loaded, and start, at this address. -/
def entryPoint : Address := 0x200

/-- When a conditional skip passes over the next instruction. -/
inductive Condition where
  /-- `3xnn`: `vx` equals the byte. -/
  | eqImm (x : Nibble) (nn : UInt8)
  /-- `4xnn`: `vx` differs from the byte. -/
  | neImm (x : Nibble) (nn : UInt8)
  /-- `5xy0`: the registers are equal. -/
  | eqReg (x y : Nibble)
  /-- `9xy0`: the registers differ. -/
  | neReg (x y : Nibble)
  /-- `Ex9E`: the key in `vx` is down. -/
  | keyDown (x : Nibble)
  /-- `ExA1`: the key in `vx` is up. -/
  | keyUp (x : Nibble)
  deriving DecidableEq, Repr, Inhabited

/-- A decoded instruction. -/
inductive Instr where
  /-- `0000`, where a program that runs into empty memory stops. -/
  | halt
  /-- `00Cn` -/
  | scrollDown (n : Nibble)
  /-- `00Dn` -/
  | scrollUp (n : Nibble)
  /-- `00E0` -/
  | clear
  /-- `00EE` -/
  | ret
  /-- `00FB` -/
  | scrollRight
  /-- `00FC` -/
  | scrollLeft
  /-- `00FD` -/
  | exit
  /-- `00FE` -/
  | lores
  /-- `00FF` -/
  | hires
  /-- `0nnn`: run machine code of the host processor. -/
  | native (target : Address)
  /-- `1nnn` -/
  | jump (target : Address)
  /-- `2nnn` -/
  | call (target : Address)
  /-- `3xnn`, `4xnn`, `5xy0`, `9xy0`, `Ex9E`, `ExA1` -/
  | skip (condition : Condition)
  /-- `5xy2` -/
  | saveRange (x y : Nibble)
  /-- `5xy3` -/
  | loadRange (x y : Nibble)
  /-- `6xnn` -/
  | loadImm (x : Nibble) (nn : UInt8)
  /-- `7xnn` -/
  | addImm (x : Nibble) (nn : UInt8)
  /-- `8xy0` to `8xy3` -/
  | alu (op : AluOp) (x y : Nibble)
  /-- `8xy4` to `8xy7` and `8xyE` -/
  | carry (op : CarryOp) (x y : Nibble)
  /-- `Annn` -/
  | setIndex (target : Address)
  /-- `Bnnn` -/
  | jumpOffset (target : Address)
  /-- `Cxnn` -/
  | random (x : Nibble) (mask : UInt8)
  /-- `Dxyn` -/
  | sprite (x y n : Nibble)
  /-- `F000 nnnn` -/
  | longIndex (target : Address)
  /-- `Fn01` -/
  | plane (mask : Nibble)
  /-- `F002` -/
  | audio
  /-- `Fx07` -/
  | getDelay (x : Nibble)
  /-- `Fx0A` -/
  | waitKey (x : Nibble)
  /-- `Fx15` -/
  | setDelay (x : Nibble)
  /-- `Fx18` -/
  | setBuzzer (x : Nibble)
  /-- `Fx1E` -/
  | addIndex (x : Nibble)
  /-- `Fx29` -/
  | hexFont (x : Nibble)
  /-- `Fx30` -/
  | bigHexFont (x : Nibble)
  /-- `Fx33` -/
  | bcd (x : Nibble)
  /-- `Fx3A` -/
  | pitch (x : Nibble)
  /-- `Fx55` -/
  | save (x : Nibble)
  /-- `Fx65` -/
  | load (x : Nibble)
  /-- `Fx75` -/
  | saveFlags (x : Nibble)
  /-- `Fx85` -/
  | loadFlags (x : Nibble)
  /-- Any other word. -/
  | invalid (word : UInt16)
  deriving DecidableEq, Repr, Inhabited

namespace Instr

/-- Bytes of the encoded instruction. -/
def size : Instr → Nat
  | longIndex _ => 4
  | _ => 2

/-- Execution never continues past these. -/
def isHalt : Instr → Bool
  | halt | exit => true
  | _ => false

/-- The address that a jump or an index load refers to. -/
def labelTarget : Instr → Option Address
  | jump a | jumpOffset a | setIndex a | longIndex a => some a
  | _ => none

/-- The subroutine that a call refers to. -/
def callTarget : Instr → Option Address
  | call a => some a
  | _ => none

/-- The machine code routine that the instruction refers to. -/
def nativeTarget : Instr → Option Address
  | native a => some a
  | _ => none

theorem size_eq (i : Instr) : i.size = 2 ∨ i.size = 4 := by
  cases i <;> simp [size]

theorem size_pos (i : Instr) : 0 < i.size := by
  rcases i.size_eq with h | h <;> omega

end Instr
end OctoLift
