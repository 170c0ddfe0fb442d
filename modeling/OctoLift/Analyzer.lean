import OctoLift.Analysis
import OctoLift.Analysis.Transfer

/-!
# Exploration

The search for the least states that are closed under execution. Addresses wait on a stack without
duplicates. A visit takes the top address, records what its instruction touches and merges the
state after it into every successor; a successor that gains something waits again. A `return`
depends on the states at the call sites as well, so it also waits again when the return addresses
that it would give now differ from those it gave last.
-/

namespace OctoLift

structure Analyzer where
  program : Program
  dialect : Dialect
  reaching : Reaching
  classes : ClassMap
  references : References
  /-- The addresses that wait, the next one first. -/
  fringe : List Address
  queued : AddressMap Bool
  /-- The return addresses that each `return` gave when it was last visited. -/
  chased : AddressMap (Option WordSet)
  /-- How many visits there have been. -/
  steps : Nat

namespace Analyzer

/-- Visits of one batch, unless another number is asked for. -/
def batchSize : Nat := 256

/-- More visits than any exploration takes: an address waits when it is first reached, when one of
its 27 sets grows, or when the return addresses that it gives have grown. -/
def visitBound : Nat :=
  65536 * (1 + 27 * 65536) + 65536 * (1 + 65536) + 1

/-- An exploration about to start: the entry point waits in the power-on state. -/
def start (program : Program) (dialect : Dialect) : Analyzer where
  program := program
  dialect := dialect
  reaching := (AddressMap.const none).set entryPoint (some .powerOn)
  classes := .unknown
  references := .empty
  fringe := [entryPoint]
  queued := (AddressMap.const false).set entryPoint true
  chased := .const none
  steps := 0

def ofRom (rom : Array UInt8) (dialect : Dialect) : Except Error Analyzer :=
  (Program.load rom).map fun program => start program dialect

def isDone (a : Analyzer) : Bool :=
  a.fringe.isEmpty

def pending (a : Analyzer) : Nat :=
  a.fringe.length

/-- Puts an address on top of the stack, unless it waits already. -/
def enqueue (a : Analyzer) (t : Address) : Analyzer :=
  if a.queued[t] then a
  else { a with fringe := t :: a.fringe, queued := a.queued.set t true }

/-- The union of the return addresses at the call sites that precede some return addresses. -/
def chase (states : Address → Option RegState) (returns : WordSet) : WordSet :=
  returns.toList.foldl
    (fun found r =>
      match states (r - 2) with
      | some s => found ∪ s.get .returns
      | none => found)
    ∅

/-- The return addresses that a `return` reached with `returns` gives now. -/
def chaseNow (a : Analyzer) (returns : WordSet) : WordSet :=
  chase (fun c => a.reaching[c]) returns

/-- Whether an address holds a `return` that would give other addresses than when it was last
visited. -/
def isStale (a : Analyzer) (t : Address) : Bool :=
  a.program.instr t = .ret &&
    match a.reaching[t] with
    | some s => a.chased[t] != some (a.chaseNow (s.get .returns))
    | none => false

/-- Merges the state `out` into a successor. -/
def flow (out : RegState) (a : Analyzer) (t : Address) : Analyzer :=
  match a.reaching[t] with
  | none => { a with reaching := a.reaching.set t (some out) }.enqueue t
  | some s =>
    match s.merge out with
    | (merged, true) => { a with reaching := a.reaching.set t (some merged) }.enqueue t
    | (_, false) => if a.isStale t then a.enqueue t else a

/-- Marks the bytes that an instruction accesses in the state `s`. -/
def markData (classes : ClassMap) (s : RegState) (i : Instr) : ClassMap :=
  let n := s.dataLength i
  if n = 0 then classes
  else (s.get .index).toList.foldl (fun m base => m.markRange base.toNat n .data) classes

/-- Records what the instruction `i` at `here` touches when it leads from the state `s` to the
state `out`. -/
def record (a : Analyzer) (here : Address) (i : Instr) (s out : RegState) : Analyzer :=
  { a with
    classes := markData (a.classes.markRange here.toNat i.size .code) s i
    references := a.references.record here i
    chased := if i = .ret then a.chased.set here (some (out.get .returns)) else a.chased }

def after (a : Analyzer) (here : Address) (i : Instr) (s : RegState) : RegState :=
  s.transfer a.dialect a.program.pointerLimit here a.chaseNow i

def visit (a : Analyzer) (here : Address) : Analyzer :=
  match a.reaching[here] with
  | none => a
  | some s =>
    let i := a.program.instr here
    let out := a.after here i s
    let next := a.program.successors here i s
    next.foldl (flow out) (a.record here i s out)

/-- Takes an address from the stack and visits it. -/
def pop (a : Analyzer) (here : Address) (rest : List Address) : Analyzer :=
  { a with fringe := rest, queued := a.queued.set here false, steps := a.steps + 1 }.visit here

/-- At most `budget` visits; fewer if nothing waits any more. -/
def step : (budget : Nat) → Analyzer → Analyzer
  | 0, a => a
  | n + 1, a =>
    match a.fringe with
    | [] => a
    | here :: rest => step n (a.pop here rest)

def run (a : Analyzer) : Analyzer :=
  a.step visitBound

/-- Names the targets, if nothing waits. -/
def finish (a : Analyzer) : Except Error Analysis :=
  if a.isDone then
    .ok
      { program := a.program
        dialect := a.dialect
        reaching := a.reaching
        classes := a.classes
        references := a.references
        symbols := .ofReferences a.references }
  else .error (.incomplete a.pending)

end Analyzer

def Analysis.ofRom (rom : Array UInt8) (dialect : Dialect) : Except Error Analysis := do
  (← Analyzer.ofRom rom dialect).run.finish

end OctoLift
