import OctoLift.Instr

/-!
# Registers

The locations whose possible values are tracked. Each has a slot of its own in a register file.
-/

namespace OctoLift

/-- A tracked location. -/
inductive Register where
  /-- A general purpose register. -/
  | v (x : Nibble)
  /-- The index register `i`. -/
  | index
  /-- The addresses at which a `return` may land. -/
  | returns
  /-- A persistent flag register. -/
  | flag (n : Fin 8)
  /-- The mask of drawing planes. -/
  | plane
  deriving DecidableEq, Repr, Inhabited

namespace Register

/-- The position of a register in a register file. -/
def slot : Register → Fin 27
  | v x => ⟨x.val, by omega⟩
  | index => 16
  | returns => 17
  | flag n => ⟨18 + n.val, by omega⟩
  | plane => 26

/-- The register at a position. -/
def ofSlot (k : Fin 27) : Register :=
  if h : k.val < 16 then v ⟨k.val, h⟩
  else if k.val = 16 then index
  else if k.val = 17 then returns
  else if h : k.val < 26 then flag ⟨k.val - 18, by omega⟩
  else plane

@[simp] theorem ofSlot_slot (r : Register) : ofSlot r.slot = r := by
  cases r with
  | v x => simp [slot, ofSlot]
  | index => rfl
  | returns => rfl
  | flag n => revert n; decide
  | plane => rfl

@[simp] theorem slot_ofSlot (k : Fin 27) : (ofSlot k).slot = k := by
  unfold ofSlot
  split
  · rfl
  split
  · next h => exact Fin.ext h.symm
  split
  · next h => exact Fin.ext h.symm
  split
  · apply Fin.ext
    simp only [slot]
    omega
  · apply Fin.ext
    simp only [slot]
    omega

theorem slot_inj {r s : Register} : r.slot = s.slot ↔ r = s :=
  ⟨fun h => by rw [← ofSlot_slot r, h, ofSlot_slot], fun h => by rw [h]⟩

/-- The flag register of a number, if there is one. -/
def flag? (n : Nat) : Option Register :=
  if h : n < 8 then some (flag ⟨n, h⟩) else none

end Register
end OctoLift
