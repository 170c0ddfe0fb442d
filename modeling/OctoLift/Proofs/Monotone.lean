import OctoLift.Analyzer
import OctoLift.Proofs.Order

/-!
# Larger states flow further

Enlarging the state at an address enlarges what an instruction makes of it, the addresses at which
execution may continue and the return addresses that a chase finds. Every argument that compares
two explorations, or an exploration with a closed map of states, rests on these three facts.
-/

namespace OctoLift

/-- Every address that has a state in `S` has a larger one in `T`. -/
def Below (S T : Address → Option RegState) : Prop :=
  ∀ a s, S a = some s → ∃ t, T a = some t ∧ s ⊆ t

theorem Below.refl (S : Address → Option RegState) : Below S S :=
  fun _ s h => ⟨s, h, le_refl s⟩

theorem Below.trans {S T U : Address → Option RegState} (h : Below S T) (h' : Below T U) :
    Below S U := by
  intro a s hs
  obtain ⟨t, ht, hst⟩ := h a s hs
  obtain ⟨u, hu, htu⟩ := h' a t ht
  exact ⟨u, hu, Trans.trans hst htu⟩

namespace Analyzer

theorem mem_chase {states : Address → Option RegState} {returns : WordSet} {v : UInt16} :
    v ∈ chase states returns ↔
      ∃ r ∈ returns, ∃ s, states (r - 2) = some s ∧ v ∈ s.get .returns := by
  unfold chase
  rw [WordSet.mem_foldl (fun r => ∃ s, states (r - 2) = some s ∧ v ∈ s.get .returns)]
  · simp
  · intro found r
    cases h : states (r - 2) with
    | none => simp
    | some s => simp

theorem chase_mono {S T : Address → Option RegState} (h : Below S T) {returns returns' : WordSet}
    (hr : returns ⊆ returns') : chase S returns ⊆ chase T returns' := by
  intro v hv
  obtain ⟨r, hmem, s, hs, hvs⟩ := mem_chase.1 hv
  obtain ⟨t, ht, hst⟩ := h _ s hs
  exact mem_chase.2 ⟨r, hr hmem, t, ht, hst _ hvs⟩

end Analyzer

namespace RegState

private theorem foldl_set_mono {α : Type} (write : α → Register) (value : RegState → α → WordSet)
    (hv : ∀ s t n, s ⊆ t → value s n ⊆ value t n) (guard : α → Prop) [DecidablePred guard]
    (l : List α) {s t : RegState} (h : s ⊆ t) :
    l.foldl (fun s n => if guard n then s.set (write n) (value s n) else s) s ⊆
      l.foldl (fun s n => if guard n then s.set (write n) (value s n) else s) t := by
  induction l generalizing s t with
  | nil => exact h
  | cons n rest ih =>
    simp only [List.foldl_cons]
    apply ih
    by_cases hn : guard n
    · rw [if_pos hn, if_pos hn]
      exact set_mono _ h (hv s t n h)
    · rw [if_neg hn, if_neg hn]
      exact h

theorem loadBytes_mono (lo hi : Nat) {s t : RegState} (h : s ⊆ t) :
    s.loadBytes lo hi ⊆ t.loadBytes lo hi :=
  foldl_set_mono .v (fun _ _ => anyByte) (fun _ _ _ _ => refl _)
    (fun r => lo ≤ r.val ∧ r.val ≤ hi) _ h

theorem storeFlags_mono (x : Nibble) {s t : RegState} (h : s ⊆ t) :
    s.storeFlags x ⊆ t.storeFlags x :=
  foldl_set_mono .flag (fun s n => s.v (n.castLE (by decide))) (fun _ _ _ h => h _)
    (fun n => n.val ≤ x.val) _ h

theorem fetchFlags_mono (x : Nibble) {s t : RegState} (h : s ⊆ t) :
    s.fetchFlags x ⊆ t.fetchFlags x :=
  foldl_set_mono (fun n : Fin 8 => .v (n.castLE (by decide))) (fun s n => s.get (.flag n))
    (fun _ _ _ h => h _) (fun n => n.val ≤ x.val) _ h

theorem advanceIndex_mono (d : Dialect) (limit : Address) (x : Nibble) {s t : RegState}
    (h : s ⊆ t) : s.advanceIndex d limit x ⊆ t.advanceIndex d limit x := by
  unfold advanceIndex
  split
  · exact h
  · exact set_mono _ h (WordSet.cap_mono limit (WordSet.shift_mono _ (h _)))

theorem applyCarry_mono (d : Dialect) (op : CarryOp) (x y : Nibble) {s t : RegState}
    (h : s ⊆ t) : s.applyCarry d op x y ⊆ t.applyCarry d op x y := by
  have hc (f : UInt8 → UInt8 → UInt8) (same : Bool) (source : Nibble) :
      WordSet.combine f same (s.v x) (s.v source) ⊆ WordSet.combine f same (t.v x) (t.v source) :=
    WordSet.combine_mono f same (h _) (h _)
  unfold applyCarry
  simp only
  split
  · exact setV_mono _ (setV_mono _ h (hc _ _ _)) (hc _ _ _)
  · exact setV_mono _ (setV_mono _ h (hc _ _ _)) (hc _ _ _)

theorem transfer_mono (d : Dialect) (limit here : Address) (i : Instr) {s t : RegState}
    {chase chase' : WordSet → WordSet} (h : s ⊆ t)
    (hc : chase (s.get .returns) ⊆ chase' (t.get .returns)) :
    s.transfer d limit here chase i ⊆ t.transfer d limit here chase' i := by
  cases i with
  | ret => exact set_mono _ h hc
  | call a => exact set_mono _ h (refl _)
  | loadImm x nn => exact setV_mono _ h (refl _)
  | addImm x nn => exact setV_mono _ h (WordSet.ofBytes_map_mono _ (h _))
  | alu op x y => exact setV_mono _ h (WordSet.combine_mono _ _ (h _) (h _))
  | carry op x y => exact applyCarry_mono d op x y h
  | setIndex a => exact set_mono _ h (refl _)
  | longIndex a => exact set_mono _ h (refl _)
  | random x mask => exact setV_mono _ h (refl _)
  | getDelay x => exact setV_mono _ h (refl _)
  | waitKey x => exact setV_mono _ h (refl _)
  | addIndex x => exact set_mono _ h (WordSet.cap_mono _ (WordSet.sums_mono (h _) (h _)))
  | hexFont x => exact set_mono _ h (WordSet.cap_mono _ (WordSet.image_mono _ (h _)))
  | bigHexFont x => exact set_mono _ h (WordSet.cap_mono _ (WordSet.image_mono _ (h _)))
  | save x => exact advanceIndex_mono d limit x h
  | load x => exact advanceIndex_mono d limit x (loadBytes_mono _ _ h)
  | loadRange x y => exact loadBytes_mono _ _ h
  | saveFlags x => exact storeFlags_mono x h
  | loadFlags x => exact fetchFlags_mono x h
  | plane mask => exact set_mono _ h (refl _)
  | sprite x y n => exact setV_mono _ h (refl _)
  | _ => exact h

end RegState

namespace Condition

variable {s t : RegState}

private theorem any_toBytes_mono (test : UInt8 → Bool) {u w : WordSet} (h : u ⊆ w)
    (hu : u.toBytes.any test = true) : w.toBytes.any test = true := by
  obtain ⟨b, hb, ht⟩ := List.any_eq_true.1 hu
  exact List.any_eq_true.2 ⟨b, WordSet.toBytes_mono h hb, ht⟩

theorem somePair_mono (h : s ⊆ t) (x y : Nibble) (test : UInt8 → UInt8 → Bool)
    (hs : somePair s x y test = true) : somePair t x y test = true := by
  unfold somePair at hs ⊢
  by_cases hxy : x = y
  · rw [if_pos hxy] at hs ⊢
    exact any_toBytes_mono _ (h _) hs
  · rw [if_neg hxy] at hs ⊢
    obtain ⟨a, ha, hb⟩ := List.any_eq_true.1 hs
    exact List.any_eq_true.2 ⟨a, WordSet.toBytes_mono (h _) ha, any_toBytes_mono _ (h _) hb⟩

theorem canHold_mono (h : s ⊆ t) (c : Condition) (hs : c.canHold s = true) :
    c.canHold t = true := by
  cases c with
  | eqImm x nn => exact any_toBytes_mono _ (h _) hs
  | neImm x nn => exact any_toBytes_mono _ (h _) hs
  | eqReg x y => exact somePair_mono h x y _ hs
  | neReg x y => exact somePair_mono h x y _ hs
  | keyDown x => rfl
  | keyUp x => rfl

theorem canFail_mono (h : s ⊆ t) (c : Condition) (hs : c.canFail s = true) :
    c.canFail t = true := by
  cases c with
  | eqImm x nn => exact any_toBytes_mono _ (h _) hs
  | neImm x nn => exact any_toBytes_mono _ (h _) hs
  | eqReg x y => exact somePair_mono h x y _ hs
  | neReg x y => exact somePair_mono h x y _ hs
  | keyDown x => rfl
  | keyUp x => rfl

end Condition

namespace Program

theorem successors_mono (p : Program) (here : Address) (i : Instr) {s t : RegState} (h : s ⊆ t)
    {a : Address} (ha : a ∈ p.successors here i s) : a ∈ p.successors here i t := by
  cases i with
  | skip c =>
    rcases mem_successors_skip.1 ha with ⟨hf, e⟩ | ⟨hh, e⟩
    · exact mem_successors_skip.2 (Or.inl ⟨c.canFail_mono h hf, e⟩)
    · exact mem_successors_skip.2 (Or.inr ⟨c.canHold_mono h hh, e⟩)
  | ret => exact mem_successors_ret.2 (h _ (mem_successors_ret.1 ha))
  | jumpOffset b =>
    exact mem_successors_jumpOffset.2 (WordSet.shift_mono b (h _) (mem_successors_jumpOffset.1 ha))
  | _ => exact ha

end Program
end OctoLift
