import OctoLift.Instr.Decode
import OctoLift.Numeral

/-!
# COSMAC 1802 machine code

Host machine code that a program reaches by `0nnn`. An instruction is an opcode byte and up to
two operand bytes; the opcode alone decides how many.
-/

namespace OctoLift.Cosmac

/-- How an opcode takes its operand. -/
inductive Operand where
  /-- No operand. -/
  | implied
  /-- A register, in the low digit of the opcode. -/
  | register
  /-- An input or output device, in the low three bits of the opcode. -/
  | device
  /-- One immediate byte. -/
  | immediate
  /-- One byte: the low byte of a target on the same page. -/
  | shortBranch
  /-- Two bytes: a target. -/
  | longBranch
  deriving DecidableEq, Repr, Inhabited

/-- Operand bytes after the opcode. -/
def Operand.size : Operand → Nat
  | implied | register | device => 0
  | immediate | shortBranch => 1
  | longBranch => 2

/-- What an opcode byte stands for. -/
structure Opcode where
  mnemonic : String
  operand : Operand
  deriving DecidableEq, Repr, Inhabited

/-- The short branches and the short skip, `30` to `3F`. -/
def shortBranches : Nat → Opcode
  | 0x0 => ⟨"br", .shortBranch⟩
  | 0x1 => ⟨"bq", .shortBranch⟩
  | 0x2 => ⟨"bz", .shortBranch⟩
  | 0x3 => ⟨"bdf", .shortBranch⟩
  | 0x4 => ⟨"b1", .shortBranch⟩
  | 0x5 => ⟨"b2", .shortBranch⟩
  | 0x6 => ⟨"b3", .shortBranch⟩
  | 0x7 => ⟨"b4", .shortBranch⟩
  | 0x8 => ⟨"skp", .implied⟩
  | 0x9 => ⟨"bnq", .shortBranch⟩
  | 0xA => ⟨"bnz", .shortBranch⟩
  | 0xB => ⟨"bnf", .shortBranch⟩
  | 0xC => ⟨"bn1", .shortBranch⟩
  | 0xD => ⟨"bn2", .shortBranch⟩
  | 0xE => ⟨"bn3", .shortBranch⟩
  | _ => ⟨"bn4", .shortBranch⟩

/-- Input and output, `60` to `6F`; `68` has no meaning and stands for itself. -/
def devices : Nat → Opcode
  | 0x0 => ⟨"irx", .implied⟩
  | 0x8 => ⟨"db 0x68", .implied⟩
  | n => if n < 8 then ⟨"out", .device⟩ else ⟨"inp", .device⟩

/-- Control, memory and arithmetic with carry, `70` to `7F`. -/
def control : Nat → Opcode
  | 0x0 => ⟨"ret", .implied⟩
  | 0x1 => ⟨"dis", .implied⟩
  | 0x2 => ⟨"ldxa", .implied⟩
  | 0x3 => ⟨"stxd", .implied⟩
  | 0x4 => ⟨"adc", .implied⟩
  | 0x5 => ⟨"sdb", .implied⟩
  | 0x6 => ⟨"shrc", .implied⟩
  | 0x7 => ⟨"smb", .implied⟩
  | 0x8 => ⟨"sav", .implied⟩
  | 0x9 => ⟨"mark", .implied⟩
  | 0xA => ⟨"req", .implied⟩
  | 0xB => ⟨"seq", .implied⟩
  | 0xC => ⟨"adci", .immediate⟩
  | 0xD => ⟨"sdbi", .immediate⟩
  | 0xE => ⟨"shlc", .implied⟩
  | _ => ⟨"smbi", .immediate⟩

/-- The long branches and long skips, `C0` to `CF`. -/
def longBranches : Nat → Opcode
  | 0x0 => ⟨"lbr", .longBranch⟩
  | 0x1 => ⟨"lbq", .longBranch⟩
  | 0x2 => ⟨"lbz", .longBranch⟩
  | 0x3 => ⟨"lbdf", .longBranch⟩
  | 0x4 => ⟨"nop", .implied⟩
  | 0x5 => ⟨"lsnq", .implied⟩
  | 0x6 => ⟨"lsnz", .implied⟩
  | 0x7 => ⟨"lsnf", .implied⟩
  | 0x8 => ⟨"lskp", .implied⟩
  | 0x9 => ⟨"lbnq", .longBranch⟩
  | 0xA => ⟨"lbnz", .longBranch⟩
  | 0xB => ⟨"lbnf", .longBranch⟩
  | 0xC => ⟨"lsie", .implied⟩
  | 0xD => ⟨"lsq", .implied⟩
  | 0xE => ⟨"lsz", .implied⟩
  | _ => ⟨"lsdf", .implied⟩

/-- Arithmetic and logic, `F0` to `FF`. -/
def arithmetic : Nat → Opcode
  | 0x0 => ⟨"ldx", .implied⟩
  | 0x1 => ⟨"or", .implied⟩
  | 0x2 => ⟨"and", .implied⟩
  | 0x3 => ⟨"xor", .implied⟩
  | 0x4 => ⟨"add", .implied⟩
  | 0x5 => ⟨"sd", .implied⟩
  | 0x6 => ⟨"shr", .implied⟩
  | 0x7 => ⟨"sm", .implied⟩
  | 0x8 => ⟨"ldi", .immediate⟩
  | 0x9 => ⟨"ori", .immediate⟩
  | 0xA => ⟨"ani", .immediate⟩
  | 0xB => ⟨"xri", .immediate⟩
  | 0xC => ⟨"adi", .immediate⟩
  | 0xD => ⟨"sdi", .immediate⟩
  | 0xE => ⟨"shl", .implied⟩
  | _ => ⟨"smi", .immediate⟩

def opcode (b : UInt8) : Opcode :=
  let low := (lowNibble b).val
  match (highNibble b).val with
  | 0x0 => if low = 0 then ⟨"idl", .implied⟩ else ⟨"ldn", .register⟩
  | 0x1 => ⟨"inc", .register⟩
  | 0x2 => ⟨"dec", .register⟩
  | 0x3 => shortBranches low
  | 0x4 => ⟨"lda", .register⟩
  | 0x5 => ⟨"str", .register⟩
  | 0x6 => devices low
  | 0x7 => control low
  | 0x8 => ⟨"glo", .register⟩
  | 0x9 => ⟨"ghi", .register⟩
  | 0xA => ⟨"plo", .register⟩
  | 0xB => ⟨"phi", .register⟩
  | 0xC => longBranches low
  | 0xD => ⟨"sep", .register⟩
  | 0xE => ⟨"sex", .register⟩
  | _ => arithmetic low

/-- A decoded instruction, with all the operand bytes that its opcode asks for. -/
structure MachineInstr where
  address : Address
  op : UInt8
  operands : List UInt8
  complete : operands.length = (opcode op).operand.size
  deriving DecidableEq

namespace MachineInstr

def bytes (i : MachineInstr) : List UInt8 :=
  i.op :: i.operands

def size (i : MachineInstr) : Nat :=
  1 + (opcode i.op).operand.size

/-- `sep r4` hands control back to the interpreter. -/
def returnsToInterpreter (i : MachineInstr) : Bool :=
  i.op == 0xD4

/-- The target of a short branch lies on the page of its operand byte. -/
def shortTarget (i : MachineInstr) (low : UInt8) : Address :=
  ((i.address + 1) &&& 0xFF00) ||| low.toUInt16

def text (i : MachineInstr) : String :=
  let mnemonic := (opcode i.op).mnemonic
  match (opcode i.op).operand, i.operands with
  | .register, _ => mnemonic ++ " r" ++ String.ofList [(Nat.digitChar (lowNibble i.op).val).toUpper]
  | .device, _ => mnemonic ++ " " ++ Numeral.decimal ((lowNibble i.op).val % 8)
  | .immediate, [b] => mnemonic ++ " " ++ Numeral.byte b
  | .shortBranch, [b] => mnemonic ++ " " ++ Numeral.hexUpper 4 (i.shortTarget b).toNat
  | .longBranch, [hi, lo] => mnemonic ++ " " ++ Numeral.hexUpper 4 (wordOfBytes hi lo).toNat
  | _, _ => mnemonic

theorem length_bytes (i : MachineInstr) : i.bytes.length = i.size := by
  simp [bytes, size, i.complete, Nat.add_comm]

end MachineInstr

/-- The instruction at the start of `bytes`, if all of it is there. -/
def decode (bytes : List UInt8) (address : Address) : Option MachineInstr :=
  match bytes with
  | [] => none
  | op :: rest =>
    if h : (opcode op).operand.size ≤ rest.length then
      some ⟨address, op, rest.take (opcode op).operand.size, by rw [List.length_take, Nat.min_eq_left h]⟩
    else none

theorem size_le_of_decode {bytes : List UInt8} {address : Address} {i : MachineInstr}
    (h : decode bytes address = some i) : i.size ≤ bytes.length := by
  cases bytes with
  | nil => simp [decode] at h
  | cons op rest =>
    simp only [decode] at h
    split at h
    · obtain rfl := Option.some.inj h
      simp only [MachineInstr.size, List.length_cons]
      omega
    · contradiction

/-- Decodes one instruction after another and gives the bytes that are left. -/
def sweep (bytes : List UInt8) (address : Address) : List MachineInstr × List UInt8 :=
  match _h : decode bytes address with
  | none => ([], bytes)
  | some i =>
    let (rest, left) := sweep (bytes.drop i.size) (address + UInt16.ofNat i.size)
    (i :: rest, left)
termination_by bytes.length
decreasing_by
  have := size_le_of_decode _h
  simp only [List.length_drop, MachineInstr.size] at *
  omega

end OctoLift.Cosmac
