import OctoLift.AddressMap
import OctoLift.WordSet

/-!
# Cross references

Which instructions refer to which addresses: for each target the set of referring addresses. There
is one table for labels, one for subroutines and one for machine code routines.
-/

namespace OctoLift

/-- The referring addresses of every target. -/
structure RefTable where
  sources : AddressMap WordSet

namespace RefTable

def empty : RefTable :=
  ⟨.const ∅⟩

instance : Inhabited RefTable := ⟨empty⟩

/-- Records that the instruction at `source` refers to `target`. -/
def add (t : RefTable) (target source : Address) : RefTable :=
  ⟨t.sources.set target (t.sources[target] ∪ .single source)⟩

/-- Records a reference if there is a target. -/
def addSome (t : RefTable) (target : Option Address) (source : Address) : RefTable :=
  match target with
  | some a => t.add a source
  | none => t

def has (t : RefTable) (target source : Address) : Bool :=
  t.sources[target].contains source

def contains (t : RefTable) (target : Address) : Bool :=
  !t.sources[target].isEmpty

/-- The referring addresses of a target, ascending. -/
def refs (t : RefTable) (target : Address) : List Address :=
  t.sources[target].toList

def targets (t : RefTable) : List Address :=
  t.sources.support fun s => !s.isEmpty

def size (t : RefTable) : Nat :=
  t.targets.length

end RefTable

/-- The three tables of references. -/
structure References where
  labels : RefTable
  subroutines : RefTable
  natives : RefTable

namespace References

def empty : References :=
  ⟨.empty, .empty, .empty⟩

instance : Inhabited References := ⟨empty⟩

/-- Records what the instruction at `here` refers to. -/
def record (r : References) (here : Address) (i : Instr) : References where
  labels := r.labels.addSome i.labelTarget here
  subroutines := r.subroutines.addSome i.callTarget here
  natives := r.natives.addSome i.nativeTarget here

def contains (r : References) (a : Address) : Bool :=
  r.labels.contains a || r.subroutines.contains a || r.natives.contains a

end References
end OctoLift
