import OctoLift.Register
import OctoLift.WordSet

/-!
# Register files of value sets

One set of possible values for each register. States are ordered register by register, and the
union of two states is their least upper bound in that order.
-/

namespace OctoLift

/-- The possible values of every register, by slot. -/
structure RegState where
  sets : Vector WordSet 27
  deriving DecidableEq

namespace RegState

def get (s : RegState) (r : Register) : WordSet :=
  s.sets[r.slot]

def set (s : RegState) (r : Register) (values : WordSet) : RegState :=
  ⟨s.sets.set r.slot values⟩

/-- At power-on every register is zero, the first plane is selected and there is nowhere to
return to. -/
def powerOn : RegState :=
  let zero : RegState := ⟨Vector.replicate 27 (.single 0)⟩
  (zero.set .returns ∅).set .plane (.single 1)

instance : Inhabited RegState := ⟨powerOn⟩

def union (s t : RegState) : RegState :=
  ⟨s.sets.zipWith WordSet.union t.sets⟩

instance : Union RegState := ⟨union⟩

/-- Whether every register of `s` holds no value that it cannot hold in `t`. -/
def isSubset (s t : RegState) : Bool :=
  (List.finRange 27).all fun k => s.sets[k].isSubset t.sets[k]

/-- The union, and whether some register gains a value. -/
def merge (s t : RegState) : RegState × Bool :=
  if t.isSubset s then (s, false) else (s ∪ t, true)

instance : HasSubset RegState := ⟨fun s t => ∀ r, s.get r ⊆ t.get r⟩

@[ext] theorem ext {s t : RegState} (h : ∀ r, s.get r = t.get r) : s = t := by
  obtain ⟨a⟩ := s
  obtain ⟨b⟩ := t
  congr
  apply Vector.ext
  intro k hk
  have := h (Register.ofSlot ⟨k, hk⟩)
  simpa [get] using this

@[simp] theorem get_set_self (s : RegState) (r : Register) (values : WordSet) :
    (s.set r values).get r = values := by
  simp [get, set]

theorem get_set_ne {r q : Register} (h : r ≠ q) (s : RegState) (values : WordSet) :
    (s.set r values).get q = s.get q := by
  have : r.slot ≠ q.slot := fun e => h (Register.slot_inj.1 e)
  simp only [get, set, Fin.getElem_fin]
  rw [Vector.getElem_set_ne]
  simpa [Fin.ext_iff] using this

@[simp] theorem get_union (s t : RegState) (r : Register) :
    (s ∪ t).get r = s.get r ∪ t.get r := by
  change (s.sets.zipWith WordSet.union t.sets)[r.slot] = _
  rw [Fin.getElem_fin, Vector.getElem_zipWith]
  rfl

theorem isSubset_iff {s t : RegState} : s.isSubset t = true ↔ s ⊆ t := by
  simp only [isSubset, List.all_eq_true, WordSet.isSubset_iff]
  constructor
  · exact fun h r => h r.slot (List.mem_finRange _)
  · intro h k _
    simpa [get] using h (.ofSlot k)

instance (s t : RegState) : Decidable (s ⊆ t) :=
  decidable_of_iff _ isSubset_iff

end RegState
end OctoLift
