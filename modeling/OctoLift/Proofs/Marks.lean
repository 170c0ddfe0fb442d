import OctoLift.Analyzer
import OctoLift.WordSet.Lemmas

/-!
# What a visit leaves behind

A visit marks bytes and records references. Marks and references only accumulate, and a visit
that meets its own marks and references again changes neither map.
-/

namespace OctoLift

namespace Class

theorem join_join_left (c d : Class) : c.join (c.join d) = c.join d := by
  rw [← join_assoc, join_self]

theorem join_of_join {b c d : Class} (h : c.join d = d) (hb : c.join b = c) : d.join b = d := by
  rw [← h, join_comm c d, join_assoc, hb]

end Class

namespace ClassMap

/-- Every class of `m` lies below that of `m'`. -/
def Le (m m' : ClassMap) : Prop :=
  ∀ k, (classAt m k).join (classAt m' k) = classAt m' k

/-- Marking the `n` locations from `a` on with `c` would change nothing. -/
def Covered (m : ClassMap) (a n : Nat) (c : Class) : Prop :=
  ∀ k, a ≤ k → k < a + n → k < 65536 → (classAt m k).join c = classAt m k

theorem ext_classAt {m m' : ClassMap} (h : ∀ k, classAt m k = classAt m' k) : m = m' := by
  apply AddressMap.ext
  intro a
  have hlt := a.toNat_lt
  have ha := h a.toNat
  simp only [classAt, dif_pos hlt] at ha
  exact ha

theorem classAt_mark (m : ClassMap) (a k : Nat) (c : Class) :
    classAt (mark m a c) k =
      if a = k ∧ k < 65536 then (classAt m k).join c else classAt m k := by
  unfold mark classAt
  by_cases ha : a < 65536
  · by_cases hk : k < 65536
    · by_cases hak : a = k
      · subst hak
        simp [ha]
      · simp [ha, hk, hak]
    · simp [hk]
  · have hak : ¬ (a = k ∧ k < 65536) := by omega
    rw [dif_neg ha, if_neg hak]

theorem classAt_markRange (m : ClassMap) (a n k : Nat) (c : Class) :
    classAt (markRange m a n c) k =
      if a ≤ k ∧ k < a + n ∧ k < 65536 then (classAt m k).join c else classAt m k := by
  induction n generalizing m a with
  | zero =>
    have hk : ¬ (a ≤ k ∧ k < a + 0 ∧ k < 65536) := by omega
    rw [if_neg hk]
    rfl
  | succ n ih =>
    rw [markRange, ih, classAt_mark]
    by_cases hak : a = k
    · have hrest : ¬ (a + 1 ≤ k ∧ k < a + 1 + n ∧ k < 65536) := by omega
      rw [if_neg hrest]
      by_cases hk : k < 65536
      · rw [if_pos ⟨hak, hk⟩, if_pos (by omega)]
      · rw [if_neg (by omega), if_neg (by omega)]
    · have hne : ¬ (a = k ∧ k < 65536) := fun h => hak h.1
      rw [if_neg hne]
      by_cases hrest : a + 1 ≤ k ∧ k < a + 1 + n ∧ k < 65536
      · rw [if_pos hrest, if_pos (by omega)]
      · rw [if_neg hrest, if_neg (by omega)]

theorem Le.refl (m : ClassMap) : Le m m :=
  fun k => Class.join_self (classAt m k)

theorem Le.trans {m m' m'' : ClassMap} (h : Le m m') (h' : Le m' m'') : Le m m'' := by
  intro k
  rw [← h' k, ← Class.join_assoc, h k]

theorem le_markRange (m : ClassMap) (a n : Nat) (c : Class) : Le m (markRange m a n c) := by
  intro k
  rw [classAt_markRange]
  split
  · exact Class.join_join_left _ _
  · exact Class.join_self _

theorem Covered.mono {m m' : ClassMap} {a n : Nat} {c : Class} (h : Covered m a n c)
    (hle : Le m m') : Covered m' a n c := by
  intro k h1 h2 h3
  exact Class.join_of_join (hle k) (h k h1 h2 h3)

theorem covered_markRange (m : ClassMap) (a n : Nat) (c : Class) :
    Covered (markRange m a n c) a n c := by
  intro k h1 h2 h3
  rw [classAt_markRange, if_pos ⟨h1, h2, h3⟩, Class.join_assoc, Class.join_self]

theorem markRange_eq_self {m : ClassMap} {a n : Nat} {c : Class} (h : Covered m a n c) :
    markRange m a n c = m := by
  apply ext_classAt
  intro k
  rw [classAt_markRange]
  split
  · next hk => exact h k hk.1 hk.2.1 hk.2.2
  · rfl

end ClassMap

namespace Analyzer

open ClassMap

theorem markData_eq_foldl (m : ClassMap) (s : RegState) (i : Instr) :
    markData m s i = (s.get .index).toList.foldl
      (fun m base => markRange m base.toNat (s.dataLength i) .data) m := by
  unfold markData
  simp only
  split
  · next h =>
    rw [h]
    generalize (s.get .index).toList = bases
    induction bases generalizing m with
    | nil => rfl
    | cons base rest ih => exact ih m
  · rfl

private theorem le_foldl_markRange (n : Nat) (bases : List UInt16) (m : ClassMap) :
    Le m (bases.foldl (fun m base => markRange m base.toNat n .data) m) := by
  induction bases generalizing m with
  | nil => exact Le.refl m
  | cons base rest ih => exact (le_markRange m _ _ _).trans (ih _)

theorem le_markData (m : ClassMap) (s : RegState) (i : Instr) : Le m (markData m s i) := by
  rw [markData_eq_foldl]
  exact le_foldl_markRange _ _ m

theorem covered_markData (m : ClassMap) {s : RegState} (i : Instr) {base : UInt16}
    (h : base ∈ s.get .index) : Covered (markData m s i) base.toNat (s.dataLength i) .data := by
  rw [markData_eq_foldl]
  replace h := WordSet.mem_toList.2 h
  generalize s.dataLength i = n
  generalize (s.get .index).toList = bases at h ⊢
  induction bases generalizing m with
  | nil => simp at h
  | cons b rest ih =>
    rw [List.foldl_cons]
    rcases List.mem_cons.1 h with rfl | h
    · exact (covered_markRange m _ _ _).mono (le_foldl_markRange _ _ _)
    · exact ih _ h

theorem markData_eq_self {m : ClassMap} {s : RegState} {i : Instr}
    (h : ∀ base ∈ s.get .index, Covered m base.toNat (s.dataLength i) .data) :
    markData m s i = m := by
  rw [markData_eq_foldl]
  replace h : ∀ base ∈ (s.get .index).toList, Covered m base.toNat (s.dataLength i) .data :=
    fun base hb => h base (WordSet.mem_toList.1 hb)
  generalize (s.get .index).toList = bases at h ⊢
  induction bases with
  | nil => rfl
  | cons base rest ih =>
    rw [List.foldl_cons, markRange_eq_self (h base (by simp))]
    exact ih fun b hb => h b (by simp [hb])

end Analyzer

namespace RefTable

theorem has_iff {t : RefTable} {target source : Address} :
    t.has target source = true ↔ source ∈ t.sources[target] :=
  Iff.rfl

/-- Every target of a table has been referred to from somewhere. -/
theorem exists_has {t : RefTable} {target : Address} (h : t.contains target = true) :
    ∃ source, t.has target source = true := by
  apply Classical.byContradiction
  intro hnone
  have hempty : t.sources[target] = ∅ :=
    WordSet.ext fun source => by
      simpa [has_iff] using not_exists.1 hnone source
  rw [contains, hempty] at h
  cases h

theorem has_add {t : RefTable} {target source target' source' : Address} :
    (t.add target source).has target' source' = true ↔
      t.has target' source' = true ∨ target' = target ∧ source' = source := by
  simp only [has_iff, add, AddressMap.getElem_set]
  by_cases h : target = target'
  · subst h
    simp
  · simp [h, Ne.symm h]

theorem has_addSome {t : RefTable} {target : Option Address} {source target' source' : Address} :
    (t.addSome target source).has target' source' = true ↔
      t.has target' source' = true ∨ target = some target' ∧ source' = source := by
  cases target with
  | none => simp [addSome]
  | some a =>
    rw [addSome, has_add, Option.some.injEq, eq_comm (a := a)]

theorem ext_has {t t' : RefTable}
    (h : ∀ target source, t.has target source = true ↔ t'.has target source = true) : t = t' := by
  obtain ⟨m⟩ := t
  obtain ⟨m'⟩ := t'
  congr
  apply AddressMap.ext
  intro target
  ext source
  exact h target source

theorem addSome_eq_self {t : RefTable} {target : Option Address} {source : Address}
    (h : ∀ a, target = some a → t.has a source = true) : t.addSome target source = t := by
  apply ext_has
  intro target' source'
  rw [has_addSome]
  constructor
  · intro h'
    rcases h' with h' | ⟨rfl, rfl⟩
    · exact h'
    · exact h _ rfl
  · exact Or.inl

end RefTable

namespace References

/-- Every reference of `r` is one of `r'`. -/
def Le (r r' : References) : Prop :=
  ∀ target source,
    (r.labels.has target source = true → r'.labels.has target source = true) ∧
    (r.subroutines.has target source = true → r'.subroutines.has target source = true) ∧
    (r.natives.has target source = true → r'.natives.has target source = true)

/-- The references of the instruction `i` at `here` are there. -/
structure Recorded (r : References) (here : Address) (i : Instr) : Prop where
  label : ∀ t, i.labelTarget = some t → r.labels.has t here = true
  call : ∀ t, i.callTarget = some t → r.subroutines.has t here = true
  native : ∀ t, i.nativeTarget = some t → r.natives.has t here = true

theorem Le.refl (r : References) : Le r r :=
  fun _ _ => ⟨id, id, id⟩

theorem Le.trans {r r' r'' : References} (h : Le r r') (h' : Le r' r'') : Le r r'' := by
  intro target source
  obtain ⟨hl, hs, hn⟩ := h target source
  obtain ⟨hl', hs', hn'⟩ := h' target source
  exact ⟨fun x => hl' (hl x), fun x => hs' (hs x), fun x => hn' (hn x)⟩

theorem le_record (r : References) (here : Address) (i : Instr) : Le r (r.record here i) := by
  intro target source
  simp only [record, RefTable.has_addSome]
  exact ⟨Or.inl, Or.inl, Or.inl⟩

theorem recorded_record (r : References) (here : Address) (i : Instr) :
    Recorded (r.record here i) here i := by
  constructor
  all_goals
    intro t ht
    exact RefTable.has_addSome.2 (Or.inr ⟨ht, rfl⟩)

theorem Recorded.mono {r r' : References} {here : Address} {i : Instr} (h : Recorded r here i)
    (hle : Le r r') : Recorded r' here i where
  label t ht := (hle t here).1 (h.label t ht)
  call t ht := (hle t here).2.1 (h.call t ht)
  native t ht := (hle t here).2.2 (h.native t ht)

theorem record_eq_self {r : References} {here : Address} {i : Instr} (h : Recorded r here i) :
    r.record here i = r := by
  simp only [record, RefTable.addSome_eq_self h.label, RefTable.addSome_eq_self h.call,
    RefTable.addSome_eq_self h.native]

end References
end OctoLift
