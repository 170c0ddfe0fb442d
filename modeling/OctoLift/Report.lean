import OctoLift.Analysis
import OctoLift.JsonValue

/-!
# Reports

What an analysis has found, as a table to be read by other programs: the regions of classified
memory and the named targets with all references to them.
-/

namespace OctoLift

/-- A named target. -/
structure ReportEntry where
  name : Symbol
  address : Address
  refs : List Address
  deriving DecidableEq, Repr

/-- What an analysis has found. -/
structure Report where
  romSize : Nat
  dialect : Dialect
  regions : List Region
  labels : List ReportEntry
  subroutines : List ReportEntry
  natives : List ReportEntry
  deriving DecidableEq, Repr

namespace Report

/-- The named targets of a table, ascending. -/
def entries (table : RefTable) (names : NameMap) : List ReportEntry :=
  table.targets.filterMap fun a => names[a].map fun s => ⟨s, a, table.refs a⟩

def ofAnalysis (a : Analysis) : Report where
  romSize := a.program.rom.size
  dialect := a.dialect
  regions := ClassMap.regions a.classes
  labels := entries a.references.labels a.symbols.labels
  subroutines := entries a.references.subroutines a.symbols.subroutines
  natives := entries a.references.natives a.symbols.natives

def location (a : Nat) : JsonValue :=
  .text (Numeral.hexLower 4 a)

def regionValue (r : Region) : JsonValue :=
  .record [("start", location r.start), ("len", .number r.length), ("class", .text r.kind.name)]

def entryValue (e : ReportEntry) : JsonValue :=
  .record
    [("name", .text e.name.text), ("address", location e.address.toNat),
      ("refs", .list (e.refs.map fun r => location r.toNat))]

def toValue (r : Report) : JsonValue :=
  .record
    [("rom_len", .number r.romSize),
      ("quirks",
        .record
          [("shift", .bool r.dialect.shiftsInPlace), ("load_store", .bool r.dialect.keepsIndex),
            ("vf_order", .bool r.dialect.flagFirst)]),
      ("regions", .list (r.regions.map regionValue)),
      ("labels", .list (r.labels.map entryValue)),
      ("subroutines", .list (r.subroutines.map entryValue)),
      ("natives", .list (r.natives.map entryValue))]

def text (r : Report) : String :=
  r.toValue.pretty

end Report
end OctoLift
