import OctoLift.Instr

/-!
# Decoding

A word is decoded by its first digit; the families `0`, `5`, `8`, `E` and `F` are told apart by
its last digit or its low byte. Every word decodes, those of no instruction as `invalid`.
-/

namespace OctoLift

/-- The first hexadecimal digit of a byte. -/
def highNibble (b : UInt8) : Nibble :=
  ⟨b.toNat / 16, by have := b.toNat_lt; omega⟩

/-- The last hexadecimal digit of a byte. -/
def lowNibble (b : UInt8) : Nibble :=
  ⟨b.toNat % 16, by omega⟩

/-- The big-endian word of two bytes. -/
def wordOfBytes (hi lo : UInt8) : UInt16 :=
  UInt16.ofNat (hi.toNat * 256 + lo.toNat)

namespace Instr

/-- The low twelve bits of a word. -/
def operandAddress (hi lo : UInt8) : Address :=
  UInt16.ofNat ((lowNibble hi).val * 256 + lo.toNat)

/-- The `0nnn` family: what the interpreter itself provides, else machine code. -/
def decodeSystem (hi lo : UInt8) : Instr :=
  if hi = 0 then
    match lo.toNat with
    | 0x00 => halt
    | 0xE0 => clear
    | 0xEE => ret
    | 0xFB => scrollRight
    | 0xFC => scrollLeft
    | 0xFD => exit
    | 0xFE => lores
    | 0xFF => hires
    | _ =>
      if (highNibble lo).val = 0xC then scrollDown (lowNibble lo)
      else if (highNibble lo).val = 0xD then scrollUp (lowNibble lo)
      else native (operandAddress hi lo)
  else native (operandAddress hi lo)

def decodePair (hi lo : UInt8) : Instr :=
  let x := lowNibble hi
  let y := highNibble lo
  match (lowNibble lo).val with
  | 0x0 => skip (.eqReg x y)
  | 0x2 => saveRange x y
  | 0x3 => loadRange x y
  | _ => invalid (wordOfBytes hi lo)

def decodeArithmetic (hi lo : UInt8) : Instr :=
  let x := lowNibble hi
  let y := highNibble lo
  match (lowNibble lo).val with
  | 0x0 => alu .set x y
  | 0x1 => alu .or x y
  | 0x2 => alu .and x y
  | 0x3 => alu .xor x y
  | 0x4 => carry .add x y
  | 0x5 => carry .sub x y
  | 0x6 => carry .shr x y
  | 0x7 => carry .subRev x y
  | 0xE => carry .shl x y
  | _ => invalid (wordOfBytes hi lo)

def decodeKey (hi lo : UInt8) : Instr :=
  match lo.toNat with
  | 0x9E => skip (.keyDown (lowNibble hi))
  | 0xA1 => skip (.keyUp (lowNibble hi))
  | _ => invalid (wordOfBytes hi lo)

/-- The `Fxnn` family, where `tail` is the word that follows. -/
def decodeMisc (hi lo : UInt8) (tail : Address) : Instr :=
  let x := lowNibble hi
  match lo.toNat with
  | 0x00 => if x.val = 0 then longIndex tail else invalid (wordOfBytes hi lo)
  | 0x01 => plane x
  | 0x02 => if x.val = 0 then audio else invalid (wordOfBytes hi lo)
  | 0x07 => getDelay x
  | 0x0A => waitKey x
  | 0x15 => setDelay x
  | 0x18 => setBuzzer x
  | 0x1E => addIndex x
  | 0x29 => hexFont x
  | 0x30 => bigHexFont x
  | 0x33 => bcd x
  | 0x3A => pitch x
  | 0x55 => save x
  | 0x65 => load x
  | 0x75 => saveFlags x
  | 0x85 => loadFlags x
  | _ => invalid (wordOfBytes hi lo)

/-- The instruction whose first word is `hi`, `lo` and whose second, if it has one, is `tail`. -/
def decode (hi lo : UInt8) (tail : Address) : Instr :=
  let x := lowNibble hi
  let target := operandAddress hi lo
  match (highNibble hi).val with
  | 0x0 => decodeSystem hi lo
  | 0x1 => jump target
  | 0x2 => call target
  | 0x3 => skip (.eqImm x lo)
  | 0x4 => skip (.neImm x lo)
  | 0x5 => decodePair hi lo
  | 0x6 => loadImm x lo
  | 0x7 => addImm x lo
  | 0x8 => decodeArithmetic hi lo
  | 0x9 =>
    if (lowNibble lo).val = 0 then skip (.neReg x (highNibble lo))
    else invalid (wordOfBytes hi lo)
  | 0xA => setIndex target
  | 0xB => jumpOffset target
  | 0xC => random x lo
  | 0xD => sprite x (highNibble lo) (lowNibble lo)
  | 0xE => decodeKey hi lo
  | _ => decodeMisc hi lo tail

/-- The instruction of a word alone: a long index load gets the address zero. -/
def ofWord (hi lo : UInt8) : Instr :=
  decode hi lo 0

/-- The instruction at the start of a byte string; missing bytes count as zero. -/
def ofBytes (bytes : List UInt8) : Instr :=
  decode (bytes.getD 0 0) (bytes.getD 1 0) (wordOfBytes (bytes.getD 2 0) (bytes.getD 3 0))

end Instr
end OctoLift
