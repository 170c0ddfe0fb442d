import OctoLift.Listing.Line
import OctoLift.Listing.Loop

/-!
# The walk over memory

A listing is written in one walk upward from the entry point. At each location the walk writes the
names that belong there and the loops that open there, chooses a chunk and moves past it.
-/

namespace OctoLift

/-- A loop that has been opened and waits for its tail. -/
structure OpenLoop where
  head : Address
  tail : Address
  deriving DecidableEq, Repr

structure Walk where
  /-- The next location. -/
  location : Nat
  /-- The open loops, the innermost first. -/
  openLoops : List OpenLoop
  /-- Whether the walk is within machine code of the host processor. -/
  inMachineCode : Bool
  /-- The end of the long index load that is being written in two words. -/
  operandEnd : Nat
  /-- The lines so far. -/
  lines : Array Line

namespace Analysis

/-- The label references to an address: first the tails of loops that open there, then the
others. -/
def splitRefs (a : Analysis) (stop : Nat) (here : Address) : List Address × List Address :=
  (a.references.labels.refs here).partition fun tail => a.isLoopTail here tail stop

/-- The name of a target by the first table that has it. -/
def nameOf (a : Analysis) (target : Address) : Option Symbol :=
  if a.references.labels.contains target then a.symbols.labels[target]
  else if a.references.subroutines.contains target then a.symbols.subroutines[target]
  else if a.references.natives.contains target then a.symbols.natives[target]
  else none

/-- Whether a target lies in the `size` bytes at `here`, but neither at the first nor at the
second of them. -/
def hidesTarget (a : Analysis) (here : Address) (size : Nat) : Bool :=
  (List.range size).any fun k => 2 ≤ k && a.references.contains (here + UInt16.ofNat k)

/-- The machine instruction at an unclassified location, if it ends before `stop` and hides no
target. -/
def machineInstrAt (a : Analysis) (stop : Nat) (here : Address) : Option Cosmac.MachineInstr :=
  if a.classes[here] = .unclassified then
    (Cosmac.decode (a.program.bytes here.toNat (min 3 (stop - here.toNat))) here).filter
      fun i => !a.hidesTarget here i.size
  else none

/-- The chunk at a location outside of loops' tails, machine code and split loads. -/
def chunkByClass (a : Analysis) (stop : Nat) (here : Address) : Chunk :=
  match a.classes[here] with
  | .data => .data
  | .selfModifying => .selfModifying
  | .code =>
    if a.classes.classAt (here.toNat + 1) = .selfModifying then .selfModifying
    else
      let i := a.program.instr here
      if 2 < i.size ∧ (stop < here.toNat + i.size ∨ a.hidesTarget here i.size = true) then
        .splitLong i
      else .code i
  | .unclassified =>
    if a.classes.classAt (here.toNat + 1) = .selfModifying then .selfModifying else .unused

/-- The line that gives a location a name, if it has one. -/
def nameLine (symbol : Option Symbol) : List Line :=
  match symbol with
  | some s => [.name s]
  | none => []

/-- The lines before the chunk at a location, where the loops with the given tails open and
`others` are the remaining label references. -/
def headerLines (a : Analysis) (here : Address) (depth : Nat) (tails others : List Address) :
    List Line :=
  let subroutine :=
    if here ≠ entryPoint ∧ a.references.subroutines.contains here = true then
      match a.symbols.subroutines[here] with
      | some s => [.blank, .name s]
      | none => []
    else []
  let main := if here = entryPoint then [.name .entry] else []
  let loops := (List.range tails.length).map fun k => .loop (depth + k + 1) here
  let label :=
    if !others.isEmpty ∧ here ≠ entryPoint then nameLine a.symbols.labels[here] else []
  let routine :=
    if a.references.natives.contains here then nameLine a.symbols.natives[here] else []
  subroutine ++ main ++ loops ++ label ++ routine

end Analysis

namespace Walk

def start : Walk :=
  ⟨entryPoint.toNat, [], false, 0, #[]⟩

/-- The chunk that a walk writes next, and whether machine code goes on. -/
def choose (a : Analysis) (stop : Nat) (here : Address) (openLoops : List OpenLoop)
    (inMachineCode : Bool) (operandEnd : Nat) : Chunk × Bool :=
  match openLoops.find? (·.tail = here) with
  | some l => (.again l.head, inMachineCode)
  | none =>
    match if inMachineCode then a.machineInstrAt stop here else none with
    | some i => (.machine i, true)
    | none =>
      (if here.toNat < operandEnd then .operand else a.chunkByClass stop here, false)

/-- Writes the next chunk with all that belongs before and after it. -/
def step (a : Analysis) (stop : Nat) : Walk → Walk
  | ⟨location, openLoops, inMachineCode, operandEnd, lines⟩ =>
    let here := UInt16.ofNat location
    let (tails, others) := a.splitRefs stop here
    let lines := lines ++ a.headerLines here openLoops.length tails others
    let openLoops := tails.map (OpenLoop.mk here) ++ openLoops
    let entersMachineCode :=
      a.references.natives.contains here && a.classes[here] = .unclassified
    let (chunk, inMachineCode) :=
      choose a stop here openLoops (inMachineCode || entersMachineCode) operandEnd
    let lines :=
      match a.nameOf (here + 1) with
      | some s => if 1 < chunk.size then lines.push (.next s) else lines
      | none => lines
    let openLoops := openLoops.filter (·.tail != here)
    let lines := lines.push (.chunk (openLoops.length + 1) here chunk)
    let after := location + chunk.size
    let sameClass := a.classes.classAt location = a.classes.classAt after
    let operandEnd :=
      match chunk with
      | .splitLong i => location + i.size
      | _ => operandEnd
    let returns :=
      match chunk with
      | .machine i => i.returnsToInterpreter
      | _ => false
    let lines := if !sameClass || returns then lines.push .blank else lines
    ⟨after, openLoops, inMachineCode && !returns, operandEnd, lines⟩

theorem location_lt_step (a : Analysis) (stop : Nat) (w : Walk) :
    w.location < (step a stop w).location := by
  simp only [step]
  have := Chunk.size_pos
  exact Nat.lt_add_of_pos_right (this _)

/-- Walks on to the first location that is not before `stop`. -/
def run (a : Analysis) (stop : Nat) (w : Walk) : Walk :=
  if w.location < stop then run a stop (step a stop w) else w
termination_by stop - w.location
decreasing_by
  have := location_lt_step a stop w
  omega

end Walk
end OctoLift
