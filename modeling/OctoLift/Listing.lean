import OctoLift.Listing.Walk

/-!
# Listings

The Octo source of a range of memory that starts at the entry point: remarks on the dialect, names
of the targets outside the range, then what the walk over the range writes.
-/

namespace OctoLift

/-- The choices of a dialect as remarks. -/
def Dialect.remarks (d : Dialect) : List Line :=
  let remark (choice : Bool) (text : String) : List Line := if choice then [.remark text] else []
  remark d.shiftsInPlace "# analyzed with shifts that modify vx in place and ignore vy." ++
    remark d.keepsIndex "# analyzed with load and store operations that don't modify i." ++
    remark d.flagFirst "# analyzed with arithmetic that writes vf before the result."

namespace Analysis

/-- Where a listing of `length` bytes stops. -/
def stopAfter (length : Nat) : Nat :=
  min (entryPoint.toNat + length) 65536

/-- Names for the targets of one table that lie outside the listing. -/
def constLines (stop : Nat) (table : RefTable) (names : NameMap) : List Line :=
  table.targets.filterMap fun target =>
    if entryPoint.toNat ≤ target.toNat ∧ target.toNat < stop then none
    else names[target].map fun s => .const s target

/-- The lines of a listing of `length` bytes. -/
def lines (a : Analysis) (layout : Layout) (length : Nat) : Array Line :=
  let stop := stopAfter length
  let head := (if layout.remarks then a.dialect.remarks else []) ++ [.blank] ++
    constLines stop a.references.labels a.symbols.labels ++
    constLines stop a.references.subroutines a.symbols.subroutines ++
    constLines stop a.references.natives a.symbols.natives
  head.toArray ++ (Walk.start.run a stop).lines

/-- The source text of `length` bytes. -/
def source (a : Analysis) (layout : Layout) (length : Nat) : String :=
  let names := a.symbols.naming
  (a.lines layout length).foldl
    (fun text line => text ++ line.text layout.indent a.program names ++ "\n") ""

end Analysis
end OctoLift
