import OctoLift.Proofs.Images

/-!
# Exact branches

Where execution may continue depends on the values of the `v` registers, on a key and on the return
addresses. Each address that follows an instruction in a state is where the machine goes on for
some choice of these, one value for each register, and the machine goes nowhere else. The other
registers do not matter, so nothing is asked of their sets.
-/

namespace OctoLift

namespace RegState

variable {s : RegState}

theorem HoldsBytes.exists_withinV_pair (h : s.HoldsBytes) {x y : Nibble} {a b : UInt8}
    (ha : a ∈ (s.get (.v x)).toBytes) (hb : b ∈ (s.get (.v y)).toBytes) (hsame : x = y → a = b) :
    ∃ r : Registers, r.WithinV s ∧ r.v x = a ∧ r.v y = b := by
  have hall (z : Nibble) : ∃ c, c ∈ (s.get (.v z)).toBytes := by
    obtain ⟨w, hw⟩ := h.nonempty z
    exact ⟨w.toUInt8, WordSet.mem_toBytes.2 ⟨w, hw, rfl⟩⟩
  obtain ⟨f, hf, hx, hy⟩ := exists_picks_pair hall ha hb hsame
  exact ⟨{ Registers.powerOn with v := f }, fun z => h.toUInt16_mem (hf z), hx, hy⟩

theorem HoldsBytes.exists_withinV (h : s.HoldsBytes) {x : Nibble} {w : UInt16}
    (hw : w ∈ s.get (.v x)) : ∃ r : Registers, r.WithinV s ∧ (r.v x).toUInt16 = w := by
  have hb : w.toUInt8 ∈ (s.get (.v x)).toBytes := WordSet.mem_toBytes.2 ⟨w, hw, rfl⟩
  obtain ⟨r, hr, hx, -⟩ := h.exists_withinV_pair hb hb (fun _ => rfl)
  refine ⟨r, hr, ?_⟩
  rw [hx, UInt16.toUInt16_toUInt8_of_le (h.byte x w hw)]

theorem HoldsBytes.exists_registers (h : s.HoldsBytes) : ∃ r : Registers, r.WithinV s := by
  obtain ⟨w, hw⟩ := h.nonempty offsetRegister
  obtain ⟨r, hr, -⟩ := h.exists_withinV hw
  exact ⟨r, hr⟩

end RegState

namespace Condition

/-- The condition that holds just where this one fails. -/
def negation : Condition → Condition
  | eqImm x nn => neImm x nn
  | neImm x nn => eqImm x nn
  | eqReg x y => neReg x y
  | neReg x y => eqReg x y
  | keyDown x => keyUp x
  | keyUp x => keyDown x

variable {s : RegState}

theorem canHold_negation (c : Condition) : c.negation.canHold s = c.canFail s := by
  cases c <;> rfl

theorem holds_negation (c : Condition) (r : Registers) (input : Input) :
    c.negation.holds r input = !c.holds r input := by
  cases c <;> simp [negation, holds, bne]

theorem somePair_self (x : Nibble) (test : UInt8 → UInt8 → Bool) :
    somePair s x x test = (s.get (.v x)).toBytes.any fun a => test a a :=
  if_pos rfl

theorem exists_of_somePair (h : s.HoldsBytes) {x y : Nibble} (test : UInt8 → UInt8 → Bool)
    (hpair : somePair s x y test = true) :
    ∃ r : Registers, r.WithinV s ∧ test (r.v x) (r.v y) = true := by
  by_cases hxy : x = y
  · subst hxy
    rw [somePair_self] at hpair
    obtain ⟨a, ha, htest⟩ := List.any_eq_true.1 hpair
    obtain ⟨r, hr, hx, -⟩ := h.exists_withinV_pair ha ha (fun _ => rfl)
    exact ⟨r, hr, by rw [hx]; exact htest⟩
  · simp only [somePair, if_neg hxy] at hpair
    obtain ⟨a, ha, hany⟩ := List.any_eq_true.1 hpair
    obtain ⟨b, hb, htest⟩ := List.any_eq_true.1 hany
    obtain ⟨r, hr, hx, hy⟩ := h.exists_withinV_pair ha hb (fun e => absurd e hxy)
    exact ⟨r, hr, by rw [hx, hy]; exact htest⟩

theorem exists_of_any (h : s.HoldsBytes) {x : Nibble} {test : UInt8 → Bool}
    (hany : (s.get (.v x)).toBytes.any test = true) :
    ∃ r : Registers, r.WithinV s ∧ test (r.v x) = true := by
  apply exists_of_somePair h (y := x) fun a _ => test a
  rw [somePair_self]
  exact hany

theorem exists_of_canHold (h : s.HoldsBytes) {c : Condition} (hc : c.canHold s = true) :
    ∃ (r : Registers) (input : Input), r.WithinV s ∧ c.holds r input = true := by
  cases c with
  | eqImm x nn | neImm x nn =>
    obtain ⟨r, hr, htest⟩ := exists_of_any h hc
    exact ⟨r, default, hr, htest⟩
  | eqReg x y | neReg x y =>
    obtain ⟨r, hr, htest⟩ := exists_of_somePair h _ hc
    exact ⟨r, default, hr, htest⟩
  | keyDown x =>
    obtain ⟨r, hr⟩ := h.exists_registers
    exact ⟨r, { (default : Input) with keyDown := true }, hr, rfl⟩
  | keyUp x =>
    obtain ⟨r, hr⟩ := h.exists_registers
    exact ⟨r, { (default : Input) with keyDown := false }, hr, rfl⟩

theorem exists_of_canFail (h : s.HoldsBytes) {c : Condition} (hc : c.canFail s = true) :
    ∃ (r : Registers) (input : Input), r.WithinV s ∧ c.holds r input = false := by
  rw [← canHold_negation] at hc
  obtain ⟨r, input, hr, hholds⟩ := exists_of_canHold h hc
  rw [holds_negation] at hholds
  exact ⟨r, input, hr, by simpa using hholds⟩

end Condition

namespace Program

variable (p : Program) (d : Dialect) (here : Address) (s : RegState)

/-- A skip passes over an instruction of two or four bytes, so its two ways differ. -/
theorem skipTarget_ne : p.skipTarget here ≠ here + 2 := by
  intro h
  have hsize : UInt16.ofNat (p.instr (here + 2)).size = 0 := by
    simpa [skipTarget] using h
  rcases (p.instr (here + 2)).size_eq with hs | hs
  all_goals
    rw [hs] at hsize
    exact absurd hsize (by decide)

theorem nodup_successors (i : Instr) : (p.successors here i s).Nodup := by
  cases i with
  | halt | exit => exact List.nodup_nil
  | ret => exact WordSet.nodup_toList _
  | jumpOffset a => exact WordSet.nodup_toList _
  | skip c =>
    have hne := (p.skipTarget_ne here).symm
    change ((if c.canFail s then [here + 2] else []) ++
      (if c.canHold s then [p.skipTarget here] else [])).Nodup
    split
    · split
      · simp [hne]
      · simp
    · split
      · simp
      · simp
  | _ => exact List.pairwise_singleton _ _

/-- The machine goes on at `t` after the instruction at `here`, for some values of the `v` registers
that the state allows, some input, and a stack on top of which there is, if anything, one of the
return addresses of the state. -/
def GoesOn (t : Address) : Prop :=
  ∃ (m next : Machine) (input : Input), m.pc = here ∧ m.registers.WithinV s ∧
    (∀ back, m.stack.head? = some back → back ∈ s.get .returns) ∧
    m.step p d input = some next ∧ next.pc = t

variable {p here s}

theorem goesOn_of_step {t : Address} {r : Registers} (input : Input) {next : Machine}
    (hr : r.WithinV s) (hnext : Machine.step p d input ⟨here, r, []⟩ = some next)
    (ht : next.pc = t) : p.GoesOn d here s t :=
  ⟨⟨here, r, []⟩, next, input, rfl, hr, by simp, hnext, ht⟩

theorem goesOn_of_mem_successors (h : s.HoldsBytes) {t : Address}
    (ht : t ∈ p.successors here (p.instr here) s) : p.GoesOn d here s t := by
  obtain ⟨r, hr⟩ := h.exists_registers
  cases hi : p.instr here with
  | halt | exit =>
    rw [hi] at ht
    cases ht
  | ret =>
    rw [hi, mem_successors_ret] at ht
    refine ⟨⟨here, r, [t]⟩, ⟨t, r, []⟩, default, rfl, hr, ?_, by simp only [Machine.step, hi]; rfl,
      rfl⟩
    intro back hback
    cases hback
    exact ht
  | skip c =>
    rw [hi, mem_successors_skip] at ht
    rcases ht with ⟨hc, rfl⟩ | ⟨hc, rfl⟩
    · obtain ⟨r, input, hr, hholds⟩ := Condition.exists_of_canFail h hc
      apply goesOn_of_step d input hr (by simp only [Machine.step, hi]; rfl)
      simp [hholds]
    · obtain ⟨r, input, hr, hholds⟩ := Condition.exists_of_canHold h hc
      apply goesOn_of_step d input hr (by simp only [Machine.step, hi]; rfl)
      simp [hholds, skipTarget]
  | jumpOffset a =>
    rw [hi, mem_successors_jumpOffset, WordSet.mem_shift] at ht
    obtain ⟨r, hr, hv⟩ := h.exists_withinV ht
    apply goesOn_of_step d default hr (by simp only [Machine.step, hi]; rfl)
    rw [hv, UInt16.add_comm, UInt16.sub_add_cancel]
  | _ =>
    rw [hi] at ht
    apply goesOn_of_step d default hr (by simp only [Machine.step, hi]; rfl)
    exact (List.mem_singleton.1 ht).symm

/-- The successors of an instruction are exact: no address is missing, none is invented, and none
is given twice. -/
theorem successors_exact (p : Program) (d : Dialect) (here : Address) {s : RegState}
    (h : s.HoldsBytes) :
    (∀ t, t ∈ p.successors here (p.instr here) s ↔ p.GoesOn d here s t) ∧
      (p.successors here (p.instr here) s).Nodup := by
  constructor
  · intro t
    constructor
    · exact goesOn_of_mem_successors d h
    · intro hgoes
      obtain ⟨m, next, input, rfl, hv, hback, hnext, rfl⟩ := hgoes
      exact Machine.pc_step_of_withinV hv hback hnext
  · exact p.nodup_successors here s _

/-- A register is compared with itself, and four bytes are skipped. -/
def selfCompare : Program where
  rom := #[0x50, 0x00, 0xF0, 0x00, 0x12, 0x34]
  fits := by decide

theorem successors_exact_at_self_compare :
    (RegState.powerOn.setV 0 (.ofList [1, 2])).HoldsBytes ∧
      selfCompare.GoesOn {} 0x200 (RegState.powerOn.setV 0 (.ofList [1, 2])) 0x206 ∧
      ¬ selfCompare.GoesOn {} 0x200 (RegState.powerOn.setV 0 (.ofList [1, 2])) 0x202 := by
  have h : (RegState.powerOn.setV 0 (.ofList [1, 2])).HoldsBytes :=
    (RegState.inRange_powerOn.set ⟨1, by decide⟩
      (fun _ => by simp [WordSet.mem_ofList])).holdsBytes
  obtain ⟨hexact, -⟩ := successors_exact selfCompare {} 0x200 h
  refine ⟨h, (hexact 0x206).1 (by decide +kernel), ?_⟩
  intro hnext
  exact absurd ((hexact 0x202).2 hnext) (by decide +kernel)

end Program
end OctoLift
