import OctoLift.Program
import OctoLift.RegState

/-!
# Successors

Where execution may continue after an instruction. A skip is decided by the possible values of its
operands: each way is open exactly if some choice of values takes it.
-/

namespace OctoLift

namespace Condition

/-- Whether some pair of values passes a test; one register gives both the same value. -/
def somePair (s : RegState) (x y : Nibble) (test : UInt8 → UInt8 → Bool) : Bool :=
  if x = y then (s.get (.v x)).toBytes.any fun a => test a a
  else
    let bs := (s.get (.v y)).toBytes
    (s.get (.v x)).toBytes.any fun a => bs.any (test a)

def canHold (s : RegState) : Condition → Bool
  | eqImm x nn => (s.get (.v x)).toBytes.any (· == nn)
  | neImm x nn => (s.get (.v x)).toBytes.any (· != nn)
  | eqReg x y => somePair s x y (· == ·)
  | neReg x y => somePair s x y (· != ·)
  | keyDown _ | keyUp _ => true

def canFail (s : RegState) : Condition → Bool
  | eqImm x nn => (s.get (.v x)).toBytes.any (· != nn)
  | neImm x nn => (s.get (.v x)).toBytes.any (· == nn)
  | eqReg x y => somePair s x y (· != ·)
  | neReg x y => somePair s x y (· == ·)
  | keyDown _ | keyUp _ => true

end Condition

namespace Program

/-- The address past the whole instruction that follows a skip at `here`. -/
def skipTarget (p : Program) (here : Address) : Address :=
  here + 2 + UInt16.ofNat (p.instr (here + 2)).size

/-- The addresses at which execution may continue after the instruction `i` at `here`. -/
def successors (p : Program) (here : Address) (i : Instr) (s : RegState) : List Address :=
  match i with
  | .halt | .exit => []
  | .jump a | .call a => [a]
  | .skip c =>
    (if c.canFail s then [here + 2] else []) ++ (if c.canHold s then [p.skipTarget here] else [])
  | .ret => (s.get .returns).toList
  | .jumpOffset a => ((s.get (.v offsetRegister)).shift a).toList
  | i => [here + UInt16.ofNat i.size]

variable {p : Program} {here t : Address} {s : RegState}

theorem mem_successors_skip {c : Condition} :
    t ∈ p.successors here (.skip c) s ↔
      c.canFail s = true ∧ t = here + 2 ∨ c.canHold s = true ∧ t = p.skipTarget here := by
  change t ∈ (if c.canFail s then [here + 2] else []) ++
      (if c.canHold s then [p.skipTarget here] else []) ↔ _
  rw [List.mem_append]
  by_cases hf : c.canFail s = true
  · by_cases hh : c.canHold s = true <;> simp [hf, hh]
  · by_cases hh : c.canHold s = true <;> simp [hf, hh]

theorem mem_successors_ret : t ∈ p.successors here .ret s ↔ t ∈ s.get .returns :=
  WordSet.mem_toList

theorem mem_successors_jumpOffset {a : Address} :
    t ∈ p.successors here (.jumpOffset a) s ↔ t ∈ (s.get (.v offsetRegister)).shift a :=
  WordSet.mem_toList

end Program
end OctoLift
