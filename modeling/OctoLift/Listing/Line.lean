import OctoLift.Analysis
import OctoLift.Cosmac
import OctoLift.Listing.Layout

/-!
# Lines

What a listing is made of. A chunk is a statement or a group of raw bytes and stands for one or
more successive locations; the other lines stand for none.
-/

namespace OctoLift

/-- What is written for the bytes at a location. -/
inductive Chunk where
  /-- A jump to `head`, written as the end of the loop that was opened there. -/
  | again (head : Address)
  /-- An instruction of the host processor. -/
  | machine (i : Cosmac.MachineInstr)
  /-- A statement. -/
  | code (i : Instr)
  /-- The first word of a long index load whose second word has to stand apart. -/
  | splitLong (i : Instr)
  /-- The second word of such a load. -/
  | operand
  /-- A byte that is read or written. -/
  | data
  /-- A word that is executed, and read or written as well. -/
  | selfModifying
  /-- A byte about which nothing is known. -/
  | unused

namespace Chunk

/-- How many locations the chunk stands for. -/
def size : Chunk → Nat
  | again _ | splitLong _ | operand | selfModifying => 2
  | machine i => i.size
  | code i => i.size
  | data | unused => 1

theorem size_pos (c : Chunk) : 0 < c.size := by
  cases c with
  | machine i => simp only [size, Cosmac.MachineInstr.size]; omega
  | code i => exact i.size_pos
  | _ => simp [size]

def text (p : Program) (names : Naming) (here : Address) : Chunk → String
  | again _ => "again"
  | machine i => " ".intercalate (i.bytes.map Numeral.byte) ++ " # " ++ i.text
  | code i => i.text names
  | splitLong i => word ++ " # " ++ i.text names
  | operand => word
  | data => Numeral.byte high
  | selfModifying => word ++ " # smc? " ++ (Instr.ofWord high low).text names
  | unused => Numeral.byte high ++ " # unused?"
where
  high := p.byte here.toNat
  low := p.byte (here.toNat + 1)
  word := wordText high low

end Chunk

/-- A line of a listing. -/
inductive Line where
  | remark (text : String)
  | blank
  /-- Gives a name to an address outside the listing. -/
  | const (symbol : Symbol) (target : Address)
  /-- Gives a name to the next location. -/
  | name (symbol : Symbol)
  /-- Gives a name to the second byte of the next chunk. -/
  | next (symbol : Symbol)
  /-- Opens a loop. -/
  | loop (depth : Nat) (head : Address)
  | chunk (depth : Nat) (here : Address) (chunk : Chunk)

/-- The text of a line, without its end. -/
def Line.text (indent : Indent) (p : Program) (names : Naming) : Line → String
  | remark text => text
  | blank => ""
  | const s target => ":const " ++ s.text ++ " " ++ addressLiteral target
  | name s => ": " ++ s.text
  | next s => ":next " ++ s.text
  | loop depth _ => indent.at depth ++ "loop"
  | chunk depth here c => indent.at depth ++ c.text p names here

end OctoLift
