import OctoLift.RefTable
import OctoLift.Instr.Text

/-!
# Names of targets

Every target gets a name. Each table numbers its targets in ascending order; the entry point is
always called `main`, both as a label and as a subroutine, and takes no number.
-/

namespace OctoLift

/-- What a name is for. -/
inductive SymbolKind where
  | label
  | subroutine
  | native
  deriving DecidableEq, Repr, Inhabited

/-- The word that names of a kind begin with. -/
def SymbolKind.stem : SymbolKind → String
  | label => "label"
  | subroutine => "sub"
  | native => "machine"

inductive Symbol where
  /-- The name of the entry point. -/
  | entry
  | numbered (kind : SymbolKind) (n : Nat)
  deriving DecidableEq, Repr, Inhabited

def Symbol.text : Symbol → String
  | entry => "main"
  | numbered kind n => kind.stem ++ "-" ++ Numeral.decimal n

abbrev NameMap := AddressMap (Option Symbol)

namespace NameMap

/-- Numbers a list of targets from `n` on. -/
def number (kind : SymbolKind) : (n : Nat) → List Address → NameMap → NameMap
  | _, [], names => names
  | n, a :: rest, names => number kind (n + 1) rest (names.set a (some (.numbered kind n)))

/-- The numbered names of a table; the entry point gets none. -/
def ofTable (kind : SymbolKind) (t : RefTable) : NameMap :=
  number kind 0 (t.targets.filter (· != entryPoint)) (.const none)

/-- The named addresses with their names, ascending. -/
def toList (names : NameMap) : List (Address × Symbol) :=
  AddressMap.addresses.filterMap fun a => names[a].map fun s => (a, s)

end NameMap

structure SymbolTable where
  labels : NameMap
  subroutines : NameMap
  natives : NameMap
  deriving Inhabited

namespace SymbolTable

/-- Names the targets of the three tables, and the entry point. -/
def ofReferences (r : References) : SymbolTable where
  labels := (NameMap.ofTable .label r.labels).set entryPoint (some .entry)
  subroutines := (NameMap.ofTable .subroutine r.subroutines).set entryPoint (some .entry)
  natives := NameMap.ofTable .native r.natives

/-- The names as statements use them. -/
def naming (t : SymbolTable) : Naming where
  label a := t.labels[a].map Symbol.text
  subroutine a := t.subroutines[a].map Symbol.text
  native a := t.natives[a].map Symbol.text

end SymbolTable
end OctoLift
