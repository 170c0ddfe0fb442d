import Mathlib.Data.List.Nodup
import OctoLift.SymbolTable

/-!
# Names and targets

A name belongs to one address only. Every target has a name in each table that it stands in, and
what has a name, the entry point apart, is a target.
-/

namespace OctoLift

namespace AddressMap

theorem nodup_addresses : addresses.Nodup := by
  refine List.Nodup.map_on ?_ List.nodup_range
  intro j hj k hk h
  have hj := List.mem_range.1 hj
  have hk := List.mem_range.1 hk
  have hnat : (UInt16.ofNat j).toNat = (UInt16.ofNat k).toNat := by rw [h]
  simp only [UInt16.toNat_ofNat'] at hnat
  omega

theorem nodup_support {α : Type} (m : AddressMap α) (p : α → Bool) : (m.support p).Nodup :=
  nodup_addresses.filter _

end AddressMap

namespace RefTable

@[simp] theorem mem_targets {t : RefTable} {a : Address} :
    a ∈ t.targets ↔ t.contains a = true :=
  AddressMap.mem_support

theorem nodup_targets (t : RefTable) : t.targets.Nodup :=
  AddressMap.nodup_support _ _

end RefTable

namespace NameMap

variable {kind : SymbolKind} {a b : Address} {s : Symbol}

theorem getElem_number {targets : List Address} (h : targets.Nodup) (n : Nat) (names : NameMap) :
    (number kind n targets names)[a] =
      if a ∈ targets then some (.numbered kind (n + targets.idxOf a)) else names[a] := by
  induction targets generalizing n names with
  | nil => rfl
  | cons t rest ih =>
    obtain ⟨ht, hrest⟩ := List.nodup_cons.1 h
    rw [number, ih hrest]
    by_cases ha : t = a
    · subst ha
      simp [ht]
    · rw [AddressMap.getElem_set_ne ha, List.idxOf_cons_ne rest ha]
      have hmem : a ∈ t :: rest ↔ a ∈ rest := by
        rw [List.mem_cons, or_iff_right (Ne.symm ha)]
      simp only [hmem, Nat.succ_eq_add_one, Nat.add_assoc, Nat.add_comm 1]

theorem getElem_ofTable (t : RefTable) :
    (ofTable kind t)[a] =
      if t.contains a = true ∧ a ≠ entryPoint then
        some (.numbered kind ((t.targets.filter (· != entryPoint)).idxOf a))
      else none := by
  rw [ofTable, getElem_number (t.nodup_targets.filter _)]
  simp

theorem ofTable_inj {t : RefTable} (ha : (ofTable kind t)[a] = some s)
    (hb : (ofTable kind t)[b] = some s) : a = b := by
  rw [getElem_ofTable] at ha hb
  split at ha
  · next hmem =>
    split at hb
    · have hidx := ha.trans hb.symm
      simp only [Option.some.injEq, Symbol.numbered.injEq, true_and] at hidx
      refine (List.idxOf_inj ?_).1 hidx
      simpa using hmem
    · cases hb
  · cases ha

end NameMap

/-- The name of an address in one of the tables. -/
def SymbolTable.name? (t : SymbolTable) : SymbolKind → Address → Option Symbol
  | .label, a => t.labels[a]
  | .subroutine, a => t.subroutines[a]
  | .native, a => t.natives[a]

/-- Whether one of the tables gives a name to an address. -/
def SymbolTable.Gives (t : SymbolTable) (a : Address) (s : Symbol) : Prop :=
  ∃ kind, t.name? kind a = some s

/-- The references of one kind. -/
def References.table (r : References) : SymbolKind → RefTable
  | .label => r.labels
  | .subroutine => r.subroutines
  | .native => r.natives

theorem References.contains_iff {r : References} {a : Address} :
    r.contains a = true ↔ ∃ kind, (r.table kind).contains a = true := by
  rw [contains, Bool.or_eq_true, Bool.or_eq_true]
  constructor
  · rintro ((h | h) | h)
    · exact ⟨.label, h⟩
    · exact ⟨.subroutine, h⟩
    · exact ⟨.native, h⟩
  · rintro ⟨kind, h⟩
    cases kind with
    | label => exact Or.inl (Or.inl h)
    | subroutine => exact Or.inl (Or.inr h)
    | native => exact Or.inr h

namespace SymbolTable

variable {r : References} {kind : SymbolKind} {a b : Address} {s : Symbol}

theorem name?_of_ne (h : a ≠ entryPoint) :
    (ofReferences r).name? kind a = (NameMap.ofTable kind (r.table kind))[a] := by
  cases kind with
  | label => exact AddressMap.getElem_set_ne (Ne.symm h) _ _
  | subroutine => exact AddressMap.getElem_set_ne (Ne.symm h) _ _
  | native => rfl

theorem name?_entryPoint (r : References) (kind : SymbolKind) :
    (ofReferences r).name? kind entryPoint = if kind = .native then none else some .entry := by
  cases kind with
  | label => exact AddressMap.getElem_set_self _ _ _
  | subroutine => exact AddressMap.getElem_set_self _ _ _
  | native =>
    have hname : (NameMap.ofTable .native r.natives)[entryPoint] = none := by
      rw [NameMap.getElem_ofTable, if_neg fun h => h.2 rfl]
    exact hname

/-- Away from the entry point the targets of a table have names of the table's kind. -/
theorem exists_name (h : a ≠ entryPoint) (hmem : (r.table kind).contains a = true) :
    ∃ n, (ofReferences r).name? kind a = some (.numbered kind n) := by
  rw [name?_of_ne h, NameMap.getElem_ofTable, if_pos ⟨hmem, h⟩]
  exact ⟨_, rfl⟩

theorem name?_eq_some (h : (ofReferences r).name? kind a = some s) :
    (a = entryPoint ∧ s = .entry) ∨
      a ≠ entryPoint ∧ (r.table kind).contains a = true ∧ ∃ n, s = .numbered kind n := by
  by_cases ha : a = entryPoint
  · subst ha
    rw [name?_entryPoint] at h
    split at h
    · cases h
    · cases h
      exact Or.inl ⟨rfl, rfl⟩
  · rw [name?_of_ne ha, NameMap.getElem_ofTable] at h
    split at h
    · next hmem =>
      cases h
      exact Or.inr ⟨ha, hmem.1, _, rfl⟩
    · cases h

/-- No two addresses share a name, not even in different tables. -/
theorem gives_inj (ha : (ofReferences r).Gives a s) (hb : (ofReferences r).Gives b s) : a = b := by
  obtain ⟨kind, ha⟩ := ha
  obtain ⟨kind', hb⟩ := hb
  rcases name?_eq_some ha with ⟨rfl, rfl⟩ | ⟨hane, -, n, rfl⟩
  · rcases name?_eq_some hb with ⟨rfl, -⟩ | ⟨-, -, _, hs⟩
    · rfl
    · cases hs
  · rcases name?_eq_some hb with ⟨-, hs⟩ | ⟨hbne, -, n', hs⟩
    · cases hs
    · cases hs
      rw [name?_of_ne hane] at ha
      rw [name?_of_ne hbne] at hb
      exact NameMap.ofTable_inj ha hb

theorem gives_entry_iff : (ofReferences r).Gives a .entry ↔ a = entryPoint := by
  constructor
  · rintro ⟨kind, h⟩
    rcases name?_eq_some h with ⟨h, -⟩ | ⟨-, -, _, hs⟩
    · exact h
    · cases hs
  · rintro rfl
    exact ⟨.label, name?_entryPoint r .label⟩

end SymbolTable

end OctoLift
