import OctoLift.Instr

/-!
# Tables over the address space

A value for every one of the 65536 addresses. Reading after writing gives the value written at
that address and the former value elsewhere.
-/

namespace OctoLift

structure AddressMap (α : Type) where
  cells : Vector α 65536

namespace AddressMap

variable {α : Type}

def position (a : Address) : Fin 65536 :=
  ⟨a.toNat, a.toNat_lt⟩

def const (a : α) : AddressMap α :=
  ⟨Vector.replicate 65536 a⟩

instance [Inhabited α] : Inhabited (AddressMap α) := ⟨const default⟩

instance : GetElem (AddressMap α) Address α (fun _ _ => True) where
  getElem m a _ := m.cells[position a]

theorem getElem_def (m : AddressMap α) (a : Address) : m[a] = m.cells[position a] :=
  rfl

def set (m : AddressMap α) (a : Address) (value : α) : AddressMap α :=
  ⟨m.cells.set (position a) value⟩

theorem position_inj {a b : Address} : (position a).val = (position b).val ↔ a = b :=
  UInt16.toNat_inj

@[simp] theorem getElem_const (v : α) (a : Address) : (const v)[a] = v := by
  simp [getElem_def, const]

@[simp] theorem getElem_set_self (m : AddressMap α) (a : Address) (v : α) : (m.set a v)[a] = v := by
  simp [getElem_def, set]

theorem getElem_set_ne {a b : Address} (h : a ≠ b) (m : AddressMap α) (v : α) :
    (m.set a v)[b] = m[b] := by
  simp only [getElem_def, set, Fin.getElem_fin]
  exact Vector.getElem_set_ne _ _ (fun e => h (position_inj.1 e))

theorem getElem_set (m : AddressMap α) (a b : Address) (v : α) :
    (m.set a v)[b] = if a = b then v else m[b] := by
  by_cases h : a = b
  · subst h
    simp
  · rw [if_neg h, getElem_set_ne h]

/-- A table is known by its values. -/
@[ext] theorem ext {m n : AddressMap α} (h : ∀ a : Address, m[a] = n[a]) : m = n := by
  obtain ⟨x⟩ := m
  obtain ⟨y⟩ := n
  congr
  apply Vector.ext
  intro i hi
  have := h (UInt16.ofNat i)
  simpa [getElem_def, position, Nat.mod_eq_of_lt hi] using this

/-- Every address in ascending order. -/
def addresses : List Address :=
  (List.range 65536).map UInt16.ofNat

theorem mem_addresses (a : Address) : a ∈ addresses :=
  List.mem_map.2 ⟨a.toNat, List.mem_range.2 a.toNat_lt, by simp⟩

/-- The addresses, in ascending order, whose value passes a test. -/
def support (m : AddressMap α) (p : α → Bool) : List Address :=
  addresses.filter fun a => p m[a]

@[simp] theorem mem_support {m : AddressMap α} {p : α → Bool} {a : Address} :
    a ∈ m.support p ↔ p m[a] = true := by
  simp [support, mem_addresses]

end AddressMap
end OctoLift
