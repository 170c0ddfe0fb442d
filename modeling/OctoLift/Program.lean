import OctoLift.Error
import OctoLift.Instr.Decode

/-!
# Programs in memory

A ROM loaded at the entry point. Every other byte of memory, and any beyond its end, reads as
zero.
-/

namespace OctoLift

/-- A ROM that fits into memory. -/
structure Program where
  rom : Array UInt8
  fits : rom.size ≤ maxRomSize
  deriving DecidableEq

namespace Program

/-- Loads a ROM, unless it is too large. -/
def load (rom : Array UInt8) : Except Error Program :=
  if h : rom.size ≤ maxRomSize then .ok ⟨rom, h⟩ else .error (.romTooLarge rom.size)

def byte (p : Program) (a : Nat) : UInt8 :=
  if entryPoint.toNat ≤ a then p.rom.getD (a - entryPoint.toNat) 0 else 0

def bytes (p : Program) (a n : Nat) : List UInt8 :=
  (List.range n).map fun k => p.byte (a + k)

def instr (p : Program) (a : Address) : Instr :=
  let a := a.toNat
  .decode (p.byte a) (p.byte (a + 1)) (wordOfBytes (p.byte (a + 2)) (p.byte (a + 3)))

/-- Computed values of `i` saturate one byte past the ROM. -/
def pointerLimit (p : Program) : Address :=
  UInt16.ofNat (min (p.rom.size + entryPoint.toNat + 1) 0xFFFF)

end Program
end OctoLift
