import OctoLift.Numeral

/-!
# JSON documents

JSON values and their text over several lines: two blanks for each level, every item and field on
a line of its own, and nothing between the brackets of an empty list or record.
-/

namespace OctoLift

/-- A JSON value. The fields of a record stand in the order in which they are written. -/
inductive JsonValue where
  | bool (b : Bool)
  | number (n : Nat)
  /-- A text without characters that would have to be escaped. -/
  | text (s : String)
  | list (items : List JsonValue)
  | record (fields : List (String × JsonValue))

namespace JsonValue

def quoted (s : String) : String :=
  "\"" ++ s ++ "\""

def newLine (depth : Nat) : String :=
  "\n" ++ String.ofList (List.replicate (2 * depth) ' ')

mutual

/-- Appends a value, whose brackets stand at `depth`, to a text. -/
def write (depth : Nat) (out : String) : JsonValue → String
  | bool b => out ++ (if b then "true" else "false")
  | number n => out ++ Numeral.decimal n
  | text s => out ++ quoted s
  | list [] => out ++ "[]"
  | list items => writeItems (depth + 1) "" (out ++ "[") items ++ newLine depth ++ "]"
  | record [] => out ++ "\x7b\x7d"
  | record fields => writeFields (depth + 1) "" (out ++ "\x7b") fields ++ newLine depth ++ "\x7d"

/-- Appends items, the first of them after `lead` and the others after commas. -/
def writeItems (depth : Nat) (lead out : String) : List JsonValue → String
  | [] => out
  | v :: rest => writeItems depth "," (write depth (out ++ lead ++ newLine depth) v) rest

/-- Appends fields, the first of them after `lead` and the others after commas. -/
def writeFields (depth : Nat) (lead out : String) : List (String × JsonValue) → String
  | [] => out
  | (name, v) :: rest =>
    writeFields depth "," (write depth (out ++ lead ++ newLine depth ++ quoted name ++ ": ") v) rest

end

def pretty (v : JsonValue) : String :=
  v.write 0 ""

end JsonValue
end OctoLift
