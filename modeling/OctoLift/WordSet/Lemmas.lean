import Mathlib.Order.Lattice
import OctoLift.WordSet

/-!
# Members of computed sets

Sets of words are a join-semilattice under inclusion. Which members the operations on them give:
`cap` saturates, `shift` and `sums` add with wrap-around.
-/

namespace OctoLift.WordSet

theorem nodup_toList (s : WordSet) : s.toList.Nodup :=
  s.pairwise_toList.imp fun h => UInt16.ne_of_lt h

instance : SemilatticeSup WordSet where
  le s t := s ⊆ t
  le_refl _ _ hv := hv
  le_trans _ _ _ h h' _ hv := h' (h hv)
  le_antisymm _ _ h h' := ext fun _ => ⟨@h _, @h' _⟩
  sup s t := s ∪ t
  le_sup_left _ _ _ hv := mem_union.2 (Or.inl hv)
  le_sup_right _ _ _ hv := mem_union.2 (Or.inr hv)
  sup_le _ _ _ h h' _ hv := (mem_union.1 hv).elim (@h _) (@h' _)

instance : IsPartialOrder WordSet (· ⊆ ·) :=
  inferInstanceAs (IsPartialOrder WordSet (· ≤ ·))

@[simp] theorem mem_ofList {vs : List UInt16} {v : UInt16} : v ∈ ofList vs ↔ v ∈ vs := by
  have h : ∀ s : WordSet, v ∈ vs.foldl (fun s v => s ∪ single v) s ↔ v ∈ s ∨ v ∈ vs := by
    induction vs with
    | nil => simp
    | cons w vs ih => intro s; simp [ih, or_assoc]
  rw [ofList, h]
  simp

@[simp] theorem mem_image {f : UInt16 → UInt16} {s : WordSet} {v : UInt16} :
    v ∈ s.image f ↔ ∃ w ∈ s, f w = v := by
  simp [image]

theorem mem_cap {limit : UInt16} {s : WordSet} {v : UInt16} :
    v ∈ s.cap limit ↔ (v ≤ limit ∧ v ∈ s) ∨ (v = limit ∧ ∃ w ∈ s, limit < w) := by
  unfold cap
  split
  · next h =>
    have hle : ∀ w ∈ s, w ≤ limit := fun w hw => by
      have := lt_of_shiftRight_eq_zero h _ hw
      rw [UInt16.le_iff_toNat_le]
      omega
    constructor
    · exact fun hv => Or.inl ⟨hle v hv, hv⟩
    · rintro (⟨_, hv⟩ | ⟨_, w, hw, hlt⟩)
      · exact hv
      · exact absurd (hle w hw) (UInt16.not_le.2 hlt)
  · next h =>
    obtain ⟨i, hi⟩ := Nat.exists_testBit_of_ne_zero h
    rw [Nat.testBit_shiftRight] at hi
    have hb := s.bounded _ hi
    have hlarge : ∃ w ∈ s, limit < w := by
      refine ⟨UInt16.ofNat (limit.toNat + 1 + i), ?_, ?_⟩
      · rw [mem_def, UInt16.toNat_ofNat', Nat.mod_eq_of_lt hb]
        exact hi
      · rw [UInt16.lt_iff_toNat_lt, UInt16.toNat_ofNat', Nat.mod_eq_of_lt hb]
        omega
    simp only [mem_ofBits, Nat.testBit_or, Nat.testBit_and, testBit_lowBits, Nat.one_shiftLeft,
      Nat.testBit_two_pow, Bool.or_eq_true, Bool.and_eq_true, decide_eq_true_eq]
    constructor
    · rintro (⟨hv, hlt⟩ | e)
      · exact Or.inl ⟨UInt16.le_iff_toNat_le.2 (by omega), hv⟩
      · exact Or.inr ⟨(UInt16.toNat_inj.1 e).symm, hlarge⟩
    · rintro (⟨hle, hv⟩ | ⟨rfl, _⟩)
      · rw [UInt16.le_iff_toNat_le] at hle
        exact Or.inl ⟨hv, by omega⟩
      · exact Or.inr rfl

@[simp] theorem mem_shift {k : UInt16} {s : WordSet} {v : UInt16} : v ∈ s.shift k ↔ v - k ∈ s := by
  have hv := v.toNat_lt
  have hk := k.toNat_lt
  rw [shift, mem_ofBits, mem_def]
  simp only [Nat.testBit_or, Nat.testBit_shiftRight, Nat.testBit_shiftLeft, UInt16.toNat_sub,
    Bool.or_eq_true, Bool.and_eq_true, decide_eq_true_eq]
  by_cases h : k.toNat ≤ v.toNat
  · have e : (2 ^ 16 - k.toNat + v.toNat) % 2 ^ 16 = v.toNat - k.toNat := by omega
    rw [e]
    constructor
    · rintro (⟨_, hb⟩ | ⟨_, hb⟩)
      · exact hb
      · have := s.bounded _ hb
        omega
    · exact fun hb => Or.inl ⟨h, hb⟩
  · have e : (2 ^ 16 - k.toNat + v.toNat) % 2 ^ 16 = 65536 + v.toNat - k.toNat := by omega
    rw [e]
    constructor
    · rintro (⟨h', _⟩ | ⟨_, hb⟩)
      · exact absurd h' h
      · exact hb
    · exact fun hb => Or.inr ⟨by omega, hb⟩

@[simp] theorem mem_sums {s t : WordSet} {v : UInt16} :
    v ∈ sums s t ↔ ∃ a ∈ s, ∃ b ∈ t, a + b = v := by
  have h : ∀ (ks : List UInt16) (u : WordSet),
      v ∈ ks.foldl (fun u k => u ∪ s.shift k) u ↔ v ∈ u ∨ ∃ k ∈ ks, v - k ∈ s := by
    intro ks
    induction ks with
    | nil => simp
    | cons k ks ih => intro u; simp [ih, or_assoc]
  simp only [sums, h, not_mem_empty, mem_toList, false_or]
  constructor
  · rintro ⟨k, hk, hv⟩
    exact ⟨v - k, hv, k, hk, UInt16.sub_add_cancel v k⟩
  · rintro ⟨a, ha, b, hb, rfl⟩
    exact ⟨b, hb, by rwa [UInt16.add_sub_cancel]⟩

theorem mem_pairwise {α : Type} {f : UInt8 → UInt8 → α} {same : Bool} {s t : WordSet} {r : α} :
    r ∈ pairwise f same s t ↔
      if same = true then ∃ a ∈ s.toBytes, f a a = r
      else ∃ a ∈ s.toBytes, ∃ b ∈ t.toBytes, f a b = r := by
  unfold pairwise
  split <;> simp

theorem combine_eq_ofBytes (f : UInt8 → UInt8 → UInt8) (same : Bool) (s t : WordSet) :
    combine f same s t = ofBytes (pairwise f same s t) := by
  unfold combine pairwise ofBytes
  cases same with
  | true => simp [List.foldl_map]
  | false => simp [List.foldl_flatMap, List.foldl_map]

end OctoLift.WordSet
