import OctoLift.Arithmetic.Lemmas
import OctoLift.Dialect
import OctoLift.Program
import OctoLift.Register

/-!
# The machine

The interpreter that the analysis looks at from above: one value in every register, a stack of
return addresses without bound, and a program that never changes. What an instruction takes from
outside (bytes of memory, timer, noise, keys, sprite collisions) is the input of its step, so a
run is determined by its inputs.
-/

namespace OctoLift

structure Registers where
  v : Nibble → UInt8
  flag : Fin 8 → UInt8
  plane : UInt8
  index : Address

/-- What one step may take from outside. -/
structure Input where
  /-- The byte that a load finds for each `v` register. -/
  memory : Nibble → UInt8
  timer : UInt8
  noise : UInt8
  key : Nibble
  keyDown : Bool
  hit : Bool
  deriving Inhabited

namespace Registers

def powerOn : Registers where
  v _ := 0
  flag _ := 0
  plane := 1
  index := 0

/-- The value of a register; the return addresses are on the stack. -/
def value (r : Registers) : Register → Option UInt16
  | .v x => some (r.v x).toUInt16
  | .index => some r.index
  | .returns => none
  | .flag n => some (r.flag n).toUInt16
  | .plane => some r.plane.toUInt16

def setV (r : Registers) (x : Nibble) (b : UInt8) : Registers :=
  { r with v := fun y => if y = x then b else r.v y }

/-- Gives `i` a computed value, which saturates at `limit`. -/
def setIndex (r : Registers) (limit i : Address) : Registers :=
  { r with index := min i limit }

def loadBytes (r : Registers) (input : Input) (lo hi : Nat) : Registers :=
  { r with v := fun y => if lo ≤ y.val ∧ y.val ≤ hi then input.memory y else r.v y }

def storeFlags (r : Registers) (x : Nibble) : Registers :=
  { r with flag := fun n => if n.val ≤ x.val then r.v ⟨n.val, by omega⟩ else r.flag n }

def fetchFlags (r : Registers) (x : Nibble) : Registers :=
  { r with
    v := fun y =>
      if h : y.val < 8 then if y.val ≤ x.val then r.flag ⟨y.val, h⟩ else r.v y else r.v y }

def advanceIndex (r : Registers) (d : Dialect) (limit : Address) (x : Nibble) : Registers :=
  if d.keepsIndex then r else r.setIndex limit (r.index + UInt16.ofNat (x.val + 1))

/-- An operation with a flag. A shift in place reads `vx` instead of `vy`. -/
def applyCarry (r : Registers) (d : Dialect) (op : CarryOp) (x y : Nibble) : Registers :=
  let a := r.v x
  let b := if op.isShift && d.shiftsInPlace then r.v x else r.v y
  if d.flagFirst then (r.setV flagRegister (op.flag a b)).setV x (op.value a b)
  else (r.setV x (op.value a b)).setV flagRegister (op.flag a b)

def execute (r : Registers) (d : Dialect) (limit : Address) (input : Input) : Instr → Registers
  | .loadImm x nn => r.setV x nn
  | .addImm x nn => r.setV x (r.v x + nn)
  | .alu op x y => r.setV x (op.eval (r.v x) (r.v y))
  | .carry op x y => r.applyCarry d op x y
  | .setIndex a | .longIndex a => { r with index := a }
  | .random x mask => r.setV x (input.noise &&& mask)
  | .getDelay x => r.setV x input.timer
  | .waitKey x => r.setV x (UInt8.ofNat input.key.val)
  | .addIndex x => r.setIndex limit (r.index + (r.v x).toUInt16)
  | .hexFont x => r.setIndex limit (5 * ((r.v x).toUInt16 &&& 0xF))
  | .bigHexFont x => r.setIndex limit (10 * ((r.v x).toUInt16 &&& 0xF) + 80)
  | .save x => r.advanceIndex d limit x
  | .load x => (r.loadBytes input 0 x.val).advanceIndex d limit x
  | .loadRange x y => r.loadBytes input (min x.val y.val) (max x.val y.val)
  | .saveFlags x => r.storeFlags x
  | .loadFlags x => r.fetchFlags x
  | .plane mask => { r with plane := UInt8.ofNat mask.val }
  | .sprite _ _ _ => r.setV flagRegister (if input.hit then 1 else 0)
  | .halt | .scrollDown _ | .scrollUp _ | .clear | .ret | .scrollRight | .scrollLeft | .exit
  | .lores | .hires | .native _ | .jump _ | .call _ | .skip _ | .saveRange _ _ | .jumpOffset _
  | .audio | .setDelay _ | .setBuzzer _ | .bcd _ | .pitch _ | .invalid _ => r

theorem value_setV_ne (r : Registers) {x : Nibble} {q : Register} (hq : q ≠ .v x) (b : UInt8) :
    (r.setV x b).value q = r.value q := by
  cases q with
  | v y =>
    have hy : y ≠ x := fun e => hq (by rw [e])
    simp only [value, Registers.setV, if_neg hy]
  | _ => rfl

@[simp] theorem value_setV_self (r : Registers) (x : Nibble) (b : UInt8) :
    (r.setV x b).value (.v x) = some b.toUInt16 := by
  simp only [value, Registers.setV, if_true]

section Arithmetic

variable (r : Registers) (d : Dialect) (limit : Address) (input : Input) {x y : Nibble}

theorem testBit_execute_alu (op : AluOp) (k : Nat) :
    ((r.execute d limit input (.alu op x y)).v x).toNat.testBit k =
      op.onBits ((r.v x).toNat.testBit k) ((r.v y).toNat.testBit k) := by
  have hwritten : (r.execute d limit input (.alu op x y)).v x = op.eval (r.v x) (r.v y) := by
    simp [execute, setV]
  rw [hwritten, AluOp.testBit_eval]

/-- In whichever order the two are written, the value and the flag of an operation come to belong
together with its operands, and all other registers keep what they have. -/
theorem computes_execute_carry (op : CarryOp) (hx : x ≠ flagRegister) :
    let b := if op.isShift && d.shiftsInPlace then r.v x else r.v y
    let after := r.execute d limit input (.carry op x y)
    op.Computes (r.v x).toNat b.toNat (after.v x).toNat (after.v flagRegister).toNat ∧
      (after.v flagRegister).toNat ≤ 1 ∧
      ∀ p, p ≠ .v x → p ≠ .v flagRegister → after.value p = r.value p := by
  intro b after
  have hwritten : after.v x = op.value (r.v x) b ∧ after.v flagRegister = op.flag (r.v x) b := by
    dsimp only [after, execute, applyCarry]
    split <;> simp [setV, hx, hx.symm, b]
  rw [← and_assoc]
  refine ⟨CarryOp.computes_iff.2 hwritten, fun p hpx hpf => ?_⟩
  dsimp only [after, execute, applyCarry]
  split
  · rw [value_setV_ne _ hpx, value_setV_ne _ hpf]
  · rw [value_setV_ne _ hpf, value_setV_ne _ hpx]

/-- An operation on `vf` itself leaves there what is written last. -/
theorem execute_carry_flagRegister (op : CarryOp) :
    let b := if op.isShift && d.shiftsInPlace then r.v flagRegister else r.v y
    (r.execute d limit input (.carry op flagRegister y)).v flagRegister =
      if d.flagFirst then op.value (r.v flagRegister) b else op.flag (r.v flagRegister) b := by
  dsimp only [execute, applyCarry]
  split <;> simp [setV]

end Arithmetic

end Registers

def Condition.holds (r : Registers) (input : Input) : Condition → Bool
  | eqImm x nn => r.v x == nn
  | neImm x nn => r.v x != nn
  | eqReg x y => r.v x == r.v y
  | neReg x y => r.v x != r.v y
  | keyDown _ => input.keyDown
  | keyUp _ => !input.keyDown

structure Machine where
  pc : Address
  registers : Registers
  /-- The return addresses, the next one first. -/
  stack : List Address

namespace Machine

def powerOn : Machine :=
  ⟨entryPoint, .powerOn, []⟩

/-- One step, unless the machine stops. -/
def step (p : Program) (d : Dialect) (input : Input) (m : Machine) : Option Machine :=
  let i := p.instr m.pc
  let registers := m.registers.execute d p.pointerLimit input i
  match i with
  | .halt | .exit => none
  | .ret =>
    match m.stack with
    | [] => none
    | back :: stack => some ⟨back, registers, stack⟩
  | .call a => some ⟨a, registers, (m.pc + 2) :: m.stack⟩
  | .jump a => some ⟨a, registers, m.stack⟩
  | .jumpOffset a => some ⟨a + (m.registers.v offsetRegister).toUInt16, registers, m.stack⟩
  | .skip c =>
    let next := m.pc + 2
    let pc := if c.holds m.registers input then next + UInt16.ofNat (p.instr next).size else next
    some ⟨pc, registers, m.stack⟩
  | i => some ⟨m.pc + UInt16.ofNat i.size, registers, m.stack⟩

/-- The machine after one step for each input, if it has not stopped before. -/
def run (p : Program) (d : Dialect) : List Input → Machine → Option Machine
  | [], m => some m
  | input :: rest, m => (m.step p d input).bind (run p d rest)

/-- The machine stops at a halting instruction or when there is nowhere to return to, whatever
comes from outside. -/
theorem step_eq_none_iff {p : Program} {d : Dialect} {input : Input} {m : Machine} :
    m.step p d input = none ↔
      (p.instr m.pc).isHalt = true ∨ p.instr m.pc = .ret ∧ m.stack = [] := by
  cases hi : p.instr m.pc with
  | ret => cases hs : m.stack <;> simp [step, hi, hs, Instr.isHalt]
  | _ => simp [step, hi, Instr.isHalt]

end Machine
end OctoLift
