import OctoLift.Listing.Loop

/-!
# The scan of a loop

Before a loop is opened its span is scanned from the head to the tail, instruction by instruction.
The scan depends on the bytes alone and not on where statements are written.
-/

namespace OctoLift

/-- The addresses that a scan from `head` comes to, each instruction by its full size. -/
inductive Program.Scans (p : Program) (head : Address) : Address → Prop
  | start : Scans p head head
  | next {here : Address} (h : Scans p head here) :
      Scans p head (Address.advance here (p.instr here).size)

namespace Program.Scans

variable {p : Program} {head here tail : Address}

theorem trans (h : p.Scans head here) (h' : p.Scans here tail) : p.Scans head tail := by
  induction h' with
  | start => exact h
  | next _ ih => exact ih.next

end Program.Scans

theorem Address.le_advance (here : Address) (n : Nat) : here ≤ Address.advance here n := by
  have hlt := here.toNat_lt
  rw [UInt16.le_iff_toNat_le, Address.toNat_advance]
  omega

namespace Analysis

variable {a : Analysis} {head here tail : Address} {stop : Nat}

/-- What the scan of a span has to find at an address. -/
structure FitAt (a : Analysis) (head here : Address) : Prop where
  executed : (a.classes[here]).isExecuted = true
  notEntered : here ≠ head → a.references.subroutines.contains here = false
  stays : a.jumpsBefore head here = false

theorem spans_iff :
    a.spans head tail here = true ↔ a.FitAt head here ∧
      (here = tail ∨ here < tail ∧
        a.spans head tail (Address.advance here (a.program.instr here).size) = true) := by
  rw [spans]
  split
  · next h => exact iff_of_false nofun fun hfit => by simp [hfit.1.notEntered h.1] at h
  split
  · next h => exact iff_of_false nofun fun hfit => by simp [hfit.1.executed] at h
  split
  · next h => exact iff_of_false nofun fun hfit => by simp [hfit.1.stays] at h
  next hentered hclass hjump =>
  have hfit : a.FitAt head here :=
    ⟨by simpa using hclass, by simpa using hentered, by simpa using hjump⟩
  rw [and_iff_right hfit]
  split
  · next hle => simp [UInt16.not_lt.2 hle]
  · next hlt => simp [UInt16.not_le.1 hlt, UInt16.ne_of_lt (UInt16.not_le.1 hlt)]

theorem spans_cases (h : a.spans head tail here = true) :
    (a.classes[here]).isExecuted = true ∧ a.jumpsBefore head here = false ∧
      (here = tail ∨ here < tail ∧
        a.spans head tail (Address.advance here (a.program.instr here).size) = true) := by
  obtain ⟨hfit, hnext⟩ := spans_iff.1 h
  exact ⟨hfit.executed, hfit.stays, hnext⟩

theorem scans_of_spans (h : a.spans head tail here = true) : a.program.Scans here tail := by
  fun_induction a.spans head tail here with
  | case1 => cases h
  | case2 => cases h
  | case3 => cases h
  | case4 here _ _ _ hle =>
    obtain rfl : here = tail := by simpa using h
    exact .start
  | case5 here _ _ _ _ ih => exact Program.Scans.trans (.next .start) (ih h)

/-- All that the scan comes to up to the tail has been found fit. -/
theorem spans_of_scans (h : a.spans head tail head = true) (hscan : a.program.Scans head here)
    (hle : here ≤ tail) : a.spans head tail here = true := by
  induction hscan with
  | start => exact h
  | @next here _ ih =>
    have hspans := ih (UInt16.le_trans (Address.le_advance _ _) hle)
    obtain ⟨-, -, rfl | ⟨-, hnext⟩⟩ := spans_cases hspans
    · have hback := Address.le_advance here (a.program.instr here).size
      rw [UInt16.le_antisymm hle hback]
      exact hspans
    · exact hnext

/-- Every location up to the tail lies in one of the instructions that the scan comes to. -/
theorem exists_scans_of_le (h : a.spans head tail here = true) {x : Address} (hge : here ≤ x)
    (hlt : x < tail) :
    ∃ s, a.program.Scans here s ∧ s ≤ x ∧ x.toNat < s.toNat + (a.program.instr s).size := by
  fun_induction a.spans head tail here with
  | case1 => cases h
  | case2 => cases h
  | case3 => cases h
  | case4 here _ _ _ hle =>
    obtain rfl : here = tail := by simpa using h
    exact absurd hlt (UInt16.not_lt.2 hge)
  | case5 here _ _ _ _ ih =>
    by_cases hx : x.toNat < here.toNat + (a.program.instr here).size
    · exact ⟨here, .start, hge, hx⟩
    · have hnext : Address.advance here (a.program.instr here).size ≤ x := by
        rw [UInt16.le_iff_toNat_le, Address.toNat_advance]
        omega
      obtain ⟨s, hs, hsx, hxs⟩ := ih h hnext
      exact ⟨s, Program.Scans.trans (.next .start) hs, hsx, hxs⟩

section LoopTail

variable (h : a.isLoopTail head tail stop = true)

include h

theorem spans_of_isLoopTail : a.spans head tail head = true := by
  simp only [isLoopTail, Bool.and_eq_true] at h
  exact h.2

theorem lt_stop_of_isLoopTail : tail.toNat < stop := by
  simp only [isLoopTail, Bool.and_eq_true, decide_eq_true_eq] at h
  exact h.1.1.2

theorem instr_of_isLoopTail : a.program.instr tail = .jump head := by
  simp only [isLoopTail, Bool.and_eq_true, beq_iff_eq] at h
  exact h.1.2

theorem head_le_of_scans (hscan : a.program.Scans head here) (hle : here ≤ tail)
    {target : Address} (hjump : a.program.instr here = .jump target) : head ≤ target := by
  obtain ⟨-, hstay, -⟩ := spans_cases (spans_of_scans (spans_of_isLoopTail h) hscan hle)
  rw [jumpsBefore, hjump] at hstay
  simpa using hstay

end LoopTail

end Analysis
end OctoLift
