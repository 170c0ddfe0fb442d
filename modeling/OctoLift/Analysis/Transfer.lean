import OctoLift.Dialect
import OctoLift.RegState

/-!
# Transfer

How one instruction changes the possible values of the registers, and how many bytes it accesses
from each possible value of `i`. Every result set holds the values that some choice of operands
gives.
-/

namespace OctoLift

def anyByte : WordSet :=
  .upTo 0xFF

namespace RegState

def v (s : RegState) (x : Nibble) : WordSet :=
  s.get (.v x)

def setV (s : RegState) (x : Nibble) (values : WordSet) : RegState :=
  s.set (.v x) values

/-- Bytes from memory go into the registers from `lo` to `hi`. -/
def loadBytes (s : RegState) (lo hi : Nat) : RegState :=
  (List.finRange 16).foldl
    (fun s r => if lo ≤ r.val ∧ r.val ≤ hi then s.setV r anyByte else s) s

/-- The flag registers up to the number `x` take the values of the `v` registers. -/
def storeFlags (s : RegState) (x : Nibble) : RegState :=
  (List.finRange 8).foldl
    (fun s n => if n.val ≤ x.val then s.set (.flag n) (s.v (n.castLE (by decide))) else s) s

/-- The `v` registers up to the number `x` take the values of the flag registers. -/
def fetchFlags (s : RegState) (x : Nibble) : RegState :=
  (List.finRange 8).foldl
    (fun s n => if n.val ≤ x.val then s.setV (n.castLE (by decide)) (s.get (.flag n)) else s) s

/-- `i` moves past the bytes that a save or load has accessed, unless the dialect keeps it. -/
def advanceIndex (s : RegState) (d : Dialect) (limit : Address) (x : Nibble) : RegState :=
  if d.keepsIndex then s
  else s.set .index (((s.get .index).shift (UInt16.ofNat (x.val + 1))).cap limit)

/-- An operation with a flag. A shift in place reads `vx` twice. -/
def applyCarry (s : RegState) (d : Dialect) (op : CarryOp) (x y : Nibble) : RegState :=
  let source := if op.isShift && d.shiftsInPlace then x else y
  let values := WordSet.combine op.value (x == source) (s.v x) (s.v source)
  let flags := WordSet.combine op.flag (x == source) (s.v x) (s.v source)
  if d.flagFirst then (s.setV flagRegister flags).setV x values
  else (s.setV x values).setV flagRegister flags

/-- The state after the instruction `i` at `here`. Computed values of `i` saturate at `limit`;
`chase` gives the addresses to which the callers of a returning subroutine return in turn. -/
def transfer (d : Dialect) (limit here : Address) (chase : WordSet → WordSet) (i : Instr)
    (s : RegState) : RegState :=
  match i with
  | .ret => s.set .returns (chase (s.get .returns))
  | .call _ => s.set .returns (.single (here + 2))
  | .loadImm x nn => s.setV x (.single nn.toUInt16)
  | .addImm x nn => s.setV x (.ofBytes ((s.v x).toBytes.map (· + nn)))
  | .alu op x y => s.setV x (WordSet.combine op.eval (x == y) (s.v x) (s.v y))
  | .carry op x y => s.applyCarry d op x y
  | .setIndex a | .longIndex a => s.set .index (.single a)
  | .random x mask => s.setV x (.masked mask)
  | .getDelay x => s.setV x anyByte
  | .waitKey x => s.setV x (.upTo 0xF)
  | .addIndex x => s.set .index ((WordSet.sums (s.get .index) (s.v x)).cap limit)
  | .hexFont x => s.set .index (((s.v x).image fun v => 5 * (v &&& 0xF)).cap limit)
  | .bigHexFont x => s.set .index (((s.v x).image fun v => 10 * (v &&& 0xF) + 80).cap limit)
  | .save x => s.advanceIndex d limit x
  | .load x => (s.loadBytes 0 x.val).advanceIndex d limit x
  | .loadRange x y => s.loadBytes (min x.val y.val) (max x.val y.val)
  | .saveFlags x => s.storeFlags x
  | .loadFlags x => s.fetchFlags x
  | .plane mask => s.set .plane (.single (UInt16.ofNat mask.val))
  | .sprite _ _ _ => s.setV flagRegister (.upTo 1)
  | .halt | .scrollDown _ | .scrollUp _ | .clear | .scrollRight | .scrollLeft | .exit | .lores
  | .hires | .native _ | .jump _ | .skip _ | .saveRange _ _ | .jumpOffset _ | .audio
  | .setDelay _ | .setBuzzer _ | .bcd _ | .pitch _ | .invalid _ => s

/-- How many of the two drawing planes a mask selects. -/
def planeCount (mask : UInt16) : Nat :=
  (mask &&& 1).toNat + (mask >>> 1 &&& 1).toNat

/-- The largest number of planes that may be selected. -/
def maxPlanes (s : RegState) : Nat :=
  (s.get .plane).toList.foldl (fun n mask => max n (planeCount mask)) 0

/-- How many bytes the instruction accesses from `i` on. A sprite of height zero has 32 bytes,
and there is one sprite for each plane. -/
def dataLength (s : RegState) (i : Instr) : Nat :=
  match i with
  | .bcd _ => 3
  | .save x | .load x => x.val + 1
  | .saveRange x y | .loadRange x y => max x.val y.val - min x.val y.val + 1
  | .audio => 16
  | .sprite _ _ n => (if n.val = 0 then 32 else n.val) * s.maxPlanes
  | _ => 0

end RegState
end OctoLift
