import OctoLift.Analysis.Transfer
import OctoLift.WordSet.Lemmas

/-!
# The order of sets and states

Sets of words are ordered by inclusion, register files register by register. The operations on
sets from which the effect of an instruction is built are monotone in this order, and a merge
reports exactly whether the receiver has grown.
-/

namespace OctoLift

/-- To join only what is new is to join, and tells whether there is anything new. -/
private theorem join_new {α : Type} [SemilatticeSup α] {s t : α} {known : Bool}
    (h : known = true ↔ t ≤ s) :
    (if known then (s, false) else (s ⊔ t, true)) = (s ⊔ t, !known) := by
  cases known with
  | true => rw [if_pos rfl, sup_eq_left.2 (h.1 rfl), Bool.not_true]
  | false => rfl

namespace WordSet

theorem merge_eq (s t : WordSet) : s.merge t = (s ∪ t, !t.isSubset s) :=
  join_new isSubset_iff

/-- A fold whose steps add a value each in certain cases adds it if one of the cases occurs. -/
theorem mem_foldl {α : Type} {step : WordSet → α → WordSet} {v : UInt16} (adds : α → Prop)
    (hstep : ∀ s x, v ∈ step s x ↔ v ∈ s ∨ adds x) (xs : List α) (s : WordSet) :
    v ∈ xs.foldl step s ↔ v ∈ s ∨ ∃ x ∈ xs, adds x := by
  induction xs generalizing s with
  | nil => simp
  | cons x xs ih =>
    rw [List.foldl_cons, ih, hstep]
    simp [or_assoc]

theorem mem_toBytes {s : WordSet} {b : UInt8} : b ∈ s.toBytes ↔ ∃ v ∈ s, v.toUInt8 = b := by
  simp [toBytes]

theorem toUInt8_mem_toBytes {s : WordSet} {b : UInt8} (h : b.toUInt16 ∈ s) : b ∈ s.toBytes :=
  mem_toBytes.2 ⟨b.toUInt16, h, by simp⟩

theorem toBytes_mono {s t : WordSet} (h : s ⊆ t) {b : UInt8} (hb : b ∈ s.toBytes) :
    b ∈ t.toBytes := by
  obtain ⟨v, hv, e⟩ := mem_toBytes.1 hb
  exact mem_toBytes.2 ⟨v, h hv, e⟩

theorem mem_combine {f : UInt8 → UInt8 → UInt8} {same : Bool} {s t : WordSet} {v : UInt16} :
    v ∈ combine f same s t ↔
      ∃ a ∈ s.toBytes, ∃ b, (if same = true then b = a else b ∈ t.toBytes) ∧
        (f a b).toUInt16 = v := by
  rw [combine_eq_ofBytes, mem_ofBytes]
  simp only [mem_pairwise]
  cases same with
  | true =>
    constructor
    · intro h
      obtain ⟨_, ⟨a, ha, rfl⟩, e⟩ := h
      exact ⟨a, ha, a, rfl, e⟩
    · intro h
      obtain ⟨a, ha, _, rfl, e⟩ := h
      exact ⟨_, ⟨_, ha, rfl⟩, e⟩
  | false =>
    constructor
    · intro h
      obtain ⟨_, ⟨a, ha, b, hb, rfl⟩, e⟩ := h
      exact ⟨a, ha, b, hb, e⟩
    · intro h
      obtain ⟨a, ha, b, hb, e⟩ := h
      exact ⟨_, ⟨a, ha, b, hb, rfl⟩, e⟩

theorem combine_mono (f : UInt8 → UInt8 → UInt8) (same : Bool) {s t s' t' : WordSet}
    (hs : s ⊆ s') (ht : t ⊆ t') : combine f same s t ⊆ combine f same s' t' := by
  intro v hv
  obtain ⟨a, ha, b, hb, e⟩ := mem_combine.1 hv
  refine mem_combine.2 ⟨a, toBytes_mono hs ha, b, ?_, e⟩
  by_cases h : same = true
  · rw [if_pos h] at hb ⊢
    exact hb
  · rw [if_neg h] at hb ⊢
    exact toBytes_mono ht hb

theorem ofBytes_map_mono (f : UInt8 → UInt8) {s t : WordSet} (h : s ⊆ t) :
    ofBytes (s.toBytes.map f) ⊆ ofBytes (t.toBytes.map f) := by
  intro v hv
  obtain ⟨b, hb, e⟩ := mem_ofBytes.1 hv
  obtain ⟨c, hc, e'⟩ := List.mem_map.1 hb
  exact mem_ofBytes.2 ⟨b, List.mem_map.2 ⟨c, toBytes_mono h hc, e'⟩, e⟩

theorem image_mono (f : UInt16 → UInt16) {s t : WordSet} (h : s ⊆ t) : s.image f ⊆ t.image f := by
  intro v hv
  obtain ⟨w, hw, e⟩ := mem_image.1 hv
  exact mem_image.2 ⟨w, h hw, e⟩

theorem shift_mono (k : UInt16) {s t : WordSet} (h : s ⊆ t) : s.shift k ⊆ t.shift k := by
  intro v hv
  exact mem_shift.2 (h (mem_shift.1 hv))

theorem sums_mono {s t s' t' : WordSet} (hs : s ⊆ s') (ht : t ⊆ t') :
    sums s t ⊆ sums s' t' := by
  intro v hv
  obtain ⟨a, ha, b, hb, e⟩ := mem_sums.1 hv
  exact mem_sums.2 ⟨a, hs ha, b, ht hb, e⟩

/-- Saturation is the image under the minimum with the limit. -/
theorem mem_cap_iff {limit : UInt16} {s : WordSet} {v : UInt16} :
    v ∈ s.cap limit ↔ ∃ w ∈ s, min w limit = v := by
  have hmin (w : UInt16) : min w limit = if w ≤ limit then w else limit := rfl
  rw [mem_cap]
  constructor
  · intro h
    rcases h with ⟨hle, hv⟩ | ⟨rfl, w, hw, hlt⟩
    · exact ⟨v, hv, by rw [hmin, if_pos hle]⟩
    · exact ⟨w, hw, by rw [hmin, if_neg (UInt16.not_le.2 hlt)]⟩
  · intro h
    obtain ⟨w, hw, e⟩ := h
    rw [hmin] at e
    by_cases hle : w ≤ limit
    · rw [if_pos hle] at e
      exact Or.inl ⟨e ▸ hle, e ▸ hw⟩
    · rw [if_neg hle] at e
      exact Or.inr ⟨e.symm, w, hw, UInt16.not_le.1 hle⟩

theorem cap_mono (limit : UInt16) {s t : WordSet} (h : s ⊆ t) : s.cap limit ⊆ t.cap limit := by
  intro v hv
  obtain ⟨w, hw, e⟩ := mem_cap_iff.1 hv
  exact mem_cap_iff.2 ⟨w, h hw, e⟩

end WordSet

namespace RegState

instance : SemilatticeSup RegState where
  le s t := s ⊆ t
  le_refl s r := le_refl (s.get r)
  le_trans _ _ _ h h' r := Trans.trans (h r) (h' r)
  le_antisymm _ _ h h' := ext fun r => antisymm (h r) (h' r)
  sup s t := s ∪ t
  le_sup_left s t r := by
    rw [get_union]
    exact le_sup_left (a := s.get r)
  le_sup_right s t r := by
    rw [get_union]
    exact le_sup_right (b := t.get r)
  sup_le s t u h h' r := by
    rw [get_union]
    exact sup_le (a := s.get r) (h r) (h' r)

instance : IsPartialOrder RegState (· ⊆ ·) :=
  inferInstanceAs (IsPartialOrder RegState (· ≤ ·))

theorem merge_eq (s t : RegState) : s.merge t = (s ∪ t, !t.isSubset s) :=
  join_new isSubset_iff

theorem get_set (s : RegState) (r q : Register) (values : WordSet) :
    (s.set r values).get q = if r = q then values else s.get q := by
  by_cases h : r = q
  · subst h
    rw [get_set_self, if_pos rfl]
  · rw [get_set_ne h, if_neg h]

theorem set_mono (r : Register) {s t : RegState} {values values' : WordSet} (h : s ⊆ t)
    (hv : values ⊆ values') : s.set r values ⊆ t.set r values' := by
  intro q
  rw [get_set, get_set]
  by_cases hq : r = q
  · rw [if_pos hq, if_pos hq]
    exact hv
  · rw [if_neg hq, if_neg hq]
    exact h q

theorem setV_mono (x : Nibble) {s t : RegState} {values values' : WordSet} (h : s ⊆ t)
    (hv : values ⊆ values') : s.setV x values ⊆ t.setV x values' :=
  set_mono (.v x) h hv

/-- A run of guarded writes leaves in a register what one of the writes to it gives, and all other
registers as they were. The values written must not depend on the registers written before. -/
private theorem get_foldl_set {α : Type} (write : α → Register) (value : RegState → α → WordSet)
    (hv : ∀ s m n values, value (s.set (write m) values) n = value s n)
    (guard : α → Prop) [DecidablePred guard] (l : List α) (s : RegState) (q : Register) :
    (l.foldl (fun s n => if guard n then s.set (write n) (value s n) else s) s).get q = s.get q ∧
        (∀ n ∈ l, guard n → write n ≠ q) ∨
      ∃ n ∈ l, guard n ∧ write n = q ∧
        (l.foldl (fun s n => if guard n then s.set (write n) (value s n) else s) s).get q =
          value s n := by
  induction l generalizing s with
  | nil => simp
  | cons m rest ih =>
    simp only [List.foldl_cons]
    by_cases hm : guard m
    · simp only [if_pos hm]
      rcases ih (s.set (write m) (value s m)) with ⟨hget, hne⟩ | ⟨n, hn, hg, rfl, hget⟩
      · by_cases hq : write m = q
        · refine Or.inr ⟨m, by simp, hm, hq, ?_⟩
          rw [hget, get_set, if_pos hq]
        · refine Or.inl ⟨by rw [hget, get_set, if_neg hq], ?_⟩
          intro n hn hg
          rcases List.mem_cons.1 hn with rfl | hn
          · exact hq
          · exact hne n hn hg
      · exact Or.inr ⟨n, by simp [hn], hg, rfl, by rw [hget, hv]⟩
    · simp only [if_neg hm]
      rcases ih s with ⟨hget, hne⟩ | ⟨n, hn, hg, hq, hget⟩
      · refine Or.inl ⟨hget, ?_⟩
        intro n hn hg
        rcases List.mem_cons.1 hn with rfl | hn
        · exact absurd hg hm
        · exact hne n hn hg
      · exact Or.inr ⟨n, by simp [hn], hg, hq, hget⟩

theorem get_loadBytes (s : RegState) (lo hi : Nat) (q : Register) :
    (s.loadBytes lo hi).get q =
      match q with
      | .v x => if lo ≤ x.val ∧ x.val ≤ hi then anyByte else s.get (.v x)
      | q => s.get q := by
  rcases get_foldl_set .v (fun _ _ => anyByte) (fun _ _ _ _ => rfl)
    (fun x : Nibble => lo ≤ x.val ∧ x.val ≤ hi) (List.finRange 16) s q with
    ⟨hget, hne⟩ | ⟨x, _, hx, rfl, hget⟩
  · cases q with
    | v y =>
      have hy : ¬ (lo ≤ y.val ∧ y.val ≤ hi) := fun hy => hne y (List.mem_finRange y) hy rfl
      simp only [if_neg hy]
      exact hget
    | _ => exact hget
  · simp only [if_pos hx]
    exact hget

theorem get_storeFlags (s : RegState) (x : Nibble) (q : Register) :
    (s.storeFlags x).get q =
      match q with
      | .flag n => if n.val ≤ x.val then s.get (.v (n.castLE (by decide))) else s.get (.flag n)
      | q => s.get q := by
  rcases get_foldl_set .flag (fun s n => s.v (n.castLE (by decide)))
    (fun s m n values => get_set_ne (by simp) s values)
    (fun n : Fin 8 => n.val ≤ x.val) (List.finRange 8) s q with
    ⟨hget, hne⟩ | ⟨n, _, hn, rfl, hget⟩
  · cases q with
    | flag n =>
      have hn : ¬ n.val ≤ x.val := fun hn => hne n (List.mem_finRange n) hn rfl
      simp only [if_neg hn]
      exact hget
    | _ => exact hget
  · simp only [if_pos hn]
    exact hget

theorem get_fetchFlags (s : RegState) (x : Nibble) (q : Register) :
    (s.fetchFlags x).get q =
      match q with
      | .v y =>
        if h : y.val < 8 then if y.val ≤ x.val then s.get (.flag ⟨y.val, h⟩) else s.get (.v y)
        else s.get (.v y)
      | q => s.get q := by
  rcases get_foldl_set (fun n : Fin 8 => .v (n.castLE (by decide)))
    (fun s n => s.get (.flag n)) (fun s m n values => get_set_ne (by simp) s values)
    (fun n : Fin 8 => n.val ≤ x.val) (List.finRange 8) s q with
    ⟨hget, hne⟩ | ⟨n, _, hn, rfl, hget⟩
  · cases q with
    | v y =>
      by_cases hy : y.val < 8
      · have hn : ¬ y.val ≤ x.val := fun hn => hne ⟨y.val, hy⟩ (List.mem_finRange _) hn rfl
        simp only [dif_pos hy, if_neg hn]
        exact hget
      · simp only [dif_neg hy]
        exact hget
    | _ => exact hget
  · have hlt : (n.castLE (by decide : 8 ≤ 16)).val < 8 := n.isLt
    have hle : (n.castLE (by decide : 8 ≤ 16)).val ≤ x.val := hn
    simp only [dif_pos hlt, if_pos hle]
    exact hget

end RegState
end OctoLift
