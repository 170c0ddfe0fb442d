import OctoLift.AddressMap

/-!
# Classification of memory

What the analysis has learned about each byte. Classes form a lattice: nothing known at the
bottom, code and data side by side, self-modifying code above both. Marking only moves upward.
-/

namespace OctoLift

/-- What is known about a byte. -/
inductive Class where
  | unclassified
  /-- Executed. -/
  | code
  /-- Read or written by an instruction. -/
  | data
  /-- Executed, and read or written as well. -/
  | selfModifying
  deriving DecidableEq, Repr, Inhabited

namespace Class

/-- The least class above both. -/
def join : Class → Class → Class
  | unclassified, c => c
  | c, unclassified => c
  | code, code => code
  | data, data => data
  | _, _ => selfModifying

def isExecuted : Class → Bool
  | code | selfModifying => true
  | unclassified | data => false

def name : Class → String
  | unclassified => "unclassified"
  | code => "code"
  | data => "data"
  | selfModifying => "smc"

theorem join_comm (a b : Class) : a.join b = b.join a := by
  cases a <;> cases b <;> rfl

theorem join_assoc (a b c : Class) : (a.join b).join c = a.join (b.join c) := by
  cases a <;> cases b <;> cases c <;> rfl

@[simp] theorem join_self (a : Class) : a.join a = a := by
  cases a <;> rfl

end Class

abbrev ClassMap := AddressMap Class

/-- A run of addresses of one class. -/
structure Region where
  start : Nat
  length : Nat
  kind : Class
  deriving DecidableEq, Repr

namespace ClassMap

def unknown : ClassMap :=
  .const .unclassified

/-- The class at a location; locations past the end of memory are unclassified. -/
def classAt (m : ClassMap) (a : Nat) : Class :=
  if h : a < 65536 then m.cells[a] else .unclassified

/-- Joins a class into a location; locations past the end of memory are ignored. -/
def mark (m : ClassMap) (a : Nat) (c : Class) : ClassMap :=
  if h : a < 65536 then ⟨m.cells.set a (m.cells[a].join c)⟩ else m

def markRange (m : ClassMap) (a : Nat) : (n : Nat) → Class → ClassMap
  | 0, _ => m
  | n + 1, c => markRange (m.mark a c) (a + 1) n c

def count (m : ClassMap) (c : Class) : Nat :=
  m.cells.toArray.foldl (fun n d => if d = c then n + 1 else n) 0

/-- Puts one location before the regions of those that follow it. -/
def extend (a : Nat) (c : Class) (regions : List Region) : List Region :=
  if c = .unclassified then regions
  else
    match regions with
    | r :: rest =>
      if r.kind = c ∧ r.start = a + 1 then ⟨a, r.length + 1, c⟩ :: rest
      else ⟨a, 1, c⟩ :: regions
    | [] => [⟨a, 1, c⟩]

/-- The regions of the locations below `n`, put before those of the locations from `n` on. -/
def regionsBelow (m : ClassMap) : (n : Nat) → List Region → List Region
  | 0, regions => regions
  | n + 1, regions => regionsBelow m n (extend n (m.classAt n) regions)

/-- The maximal runs of classified addresses, in ascending order. -/
def regions (m : ClassMap) : List Region :=
  m.regionsBelow 65536 []

end ClassMap
end OctoLift
