import OctoLift.Analysis

/-!
# Loops

A backward jump is written as the end of a loop if the span that it closes is one run of executed
instructions, entered at its head alone as far as subroutines go, and without a jump back beyond
the head.
-/

namespace OctoLift

/-- The location `n` bytes on, but not past the end of memory. -/
def Address.advance (a : Address) (n : Nat) : Address :=
  UInt16.ofNat (min (a.toNat + n) 0xFFFF)

theorem Address.toNat_advance (a : Address) (n : Nat) :
    (Address.advance a n).toNat = min (a.toNat + n) 0xFFFF := by
  simp only [advance, UInt16.toNat_ofNat']
  omega

namespace Analysis

/-- Whether an instruction leaves a span that starts at `head` by a jump to an address before
it. -/
def jumpsBefore (a : Analysis) (head here : Address) : Bool :=
  match a.program.instr here with
  | .jump target => target < head
  | _ => false

/-- Whether the instructions from `here` on, one after another, lead to `tail` through code that
may stand in a loop with the given head. -/
def spans (a : Analysis) (head tail here : Address) : Bool :=
  if here ≠ head ∧ a.references.subroutines.contains here = true then false
  else if a.classes[here].isExecuted = false then false
  else if a.jumpsBefore head here = true then false
  else if tail ≤ here then here == tail
  else a.spans head tail (Address.advance here (a.program.instr here).size)
termination_by tail.toNat - here.toNat
decreasing_by
  rename_i h
  have hlt : here.toNat < tail.toNat := by
    simpa [UInt16.le_iff_toNat_le] using h
  have htail := tail.toNat_lt
  have hsize := (a.program.instr here).size_pos
  rw [Address.toNat_advance]
  omega

/-- Whether the reference from `tail` to `head` can be written as the end of a loop, in a listing
of the locations before `stop`. -/
def isLoopTail (a : Analysis) (head tail : Address) (stop : Nat) : Bool :=
  decide (head ≤ tail) && decide (tail.toNat < stop) && (a.program.instr tail == .jump head) &&
    a.spans head tail head

end Analysis
end OctoLift
