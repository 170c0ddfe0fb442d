import OctoLift.Instr.Decode
import OctoLift.Numeral

/-!
# Statements

The Octo statement of an instruction. Octo writes a skip as the condition under which the next
instruction runs, so each test appears negated. An address with a name is written by its name.
-/

namespace OctoLift

/-- Names of addresses, kept apart for labels, subroutines and machine code. -/
structure Naming where
  label : Address → Option String
  subroutine : Address → Option String
  native : Address → Option String

def Naming.none : Naming :=
  ⟨fun _ => .none, fun _ => .none, fun _ => .none⟩

def registerName (x : Nibble) : String :=
  "v" ++ String.ofList [(Nat.digitChar x.val).toUpper]

/-- An address as a literal of at least three digits. -/
def addressLiteral (a : Address) : String :=
  Numeral.hexUpper 3 a.toNat

/-- An address by its name, else as a literal. -/
def addressText (name : Option String) (a : Address) : String :=
  name.getD (addressLiteral a)

/-- The condition under which the instruction after the skip runs. -/
def Condition.negatedText : Condition → String
  | eqImm x nn => registerName x ++ " != " ++ Numeral.decimal nn.toNat
  | neImm x nn => registerName x ++ " == " ++ Numeral.decimal nn.toNat
  | eqReg x y => registerName x ++ " != " ++ registerName y
  | neReg x y => registerName x ++ " == " ++ registerName y
  | keyDown x => registerName x ++ " -key"
  | keyUp x => registerName x ++ " key"

/-- Two bytes, high before low. -/
def wordText (hi lo : UInt8) : String :=
  Numeral.byte hi ++ " " ++ Numeral.byte lo

/-- The statement of an instruction. A named subroutine is called by its name alone. -/
def Instr.text (names : Naming) : Instr → String
  | halt => wordText 0 0
  | scrollDown n => "scroll-down " ++ Numeral.decimal n.val
  | scrollUp n => "scroll-up " ++ Numeral.decimal n.val
  | clear => "clear"
  | ret => "return"
  | scrollRight => "scroll-right"
  | scrollLeft => "scroll-left"
  | exit => "exit"
  | lores => "lores"
  | hires => "hires"
  | native a => "native " ++ addressText (names.native a) a
  | jump a => "jump " ++ addressText (names.label a) a
  | call a => (names.subroutine a).getD (":call " ++ addressLiteral a)
  | skip c => "if " ++ c.negatedText ++ " then"
  | saveRange x y => "save " ++ registerName x ++ " - " ++ registerName y
  | loadRange x y => "load " ++ registerName x ++ " - " ++ registerName y
  | loadImm x nn => registerName x ++ " := " ++ Numeral.decimal nn.toNat
  | addImm x nn => registerName x ++ " += " ++ Numeral.decimal nn.toNat
  | alu op x y => registerName x ++ " " ++ op.symbol ++ " " ++ registerName y
  | carry op x y => registerName x ++ " " ++ op.symbol ++ " " ++ registerName y
  | setIndex a => "i := " ++ addressText (names.label a) a
  | jumpOffset a => "jump0 " ++ addressText (names.label a) a
  | random x mask => registerName x ++ " := random " ++ Numeral.decimal mask.toNat
  | sprite x y n =>
    "sprite " ++ registerName x ++ " " ++ registerName y ++ " " ++ Numeral.decimal n.val
  | longIndex a => "i := long " ++ addressText (names.label a) a
  | plane mask => "plane " ++ Numeral.decimal mask.val
  | audio => "audio"
  | getDelay x => registerName x ++ " := delay"
  | waitKey x => registerName x ++ " := key"
  | setDelay x => "delay := " ++ registerName x
  | setBuzzer x => "buzzer := " ++ registerName x
  | addIndex x => "i += " ++ registerName x
  | hexFont x => "i := hex " ++ registerName x
  | bigHexFont x => "i := bighex " ++ registerName x
  | bcd x => "bcd " ++ registerName x
  | pitch x => "pitch := " ++ registerName x
  | save x => "save " ++ registerName x
  | load x => "load " ++ registerName x
  | saveFlags x => "saveflags " ++ registerName x
  | loadFlags x => "loadflags " ++ registerName x
  | invalid w => wordText (w >>> 8).toUInt8 w.toUInt8 ++ " # bad opcode?"

end OctoLift
