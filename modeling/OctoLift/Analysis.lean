import OctoLift.Analysis.Successors
import OctoLift.ClassMap
import OctoLift.Dialect
import OctoLift.SymbolTable

/-!
# Finished analyses

What is known about a program once the exploration has come to rest: the possible states at each
reached address, the class of each byte, the cross references and the names.
-/

namespace OctoLift

/-- The states that may reach each address; none at an address that is never reached. -/
abbrev Reaching := AddressMap (Option RegState)

/-- A finished analysis. -/
structure Analysis where
  program : Program
  dialect : Dialect
  reaching : Reaching
  classes : ClassMap
  references : References
  symbols : SymbolTable

/-- The addresses that execution may reach from an address. -/
def Analysis.successors (a : Analysis) (here : Address) : List Address :=
  match a.reaching[here] with
  | some s => a.program.successors here (a.program.instr here) s
  | none => []

/-- The reached addresses, ascending. -/
def Reaching.addresses (r : Reaching) : List Address :=
  r.support Option.isSome

def Reaching.count (r : Reaching) : Nat :=
  r.cells.toArray.foldl (fun n s => if s.isSome then n + 1 else n) 0

end OctoLift
