import OctoLift.Proofs.Closed
import OctoLift.Proofs.Machine

/-!
# Closed maps cover every run

In a closed map of states the machine finds, at every step of every run, its program counter and
the values of its registers. The stack has no bound while a state holds one set of return
addresses; what ties them together is that each return address on the stack belongs to the set in
the state at the call that stands two bytes before the one above it.
-/

namespace OctoLift

theorem RegState.get_powerOn {q : Register} (hr : q ≠ .returns) (hp : q ≠ .plane) :
    powerOn.get q = .single 0 := by
  rw [powerOn, get_set_ne (Ne.symm hp), get_set_ne (Ne.symm hr)]
  simp [get]

namespace Registers

/-- Every register has one of the values that the state allows. -/
def Within (r : Registers) (s : RegState) : Prop :=
  ∀ q w, r.value q = some w → w ∈ s.get q

variable {r : Registers} {s : RegState}

theorem within_powerOn : powerOn.Within .powerOn := by
  intro q w hw
  cases q with
  | returns => cases hw
  | plane =>
    cases hw
    rw [RegState.powerOn, RegState.get_set_self]
    exact WordSet.mem_single.2 rfl
  | _ =>
    cases hw
    rw [RegState.get_powerOn (by simp) (by simp)]
    exact WordSet.mem_single.2 rfl

theorem Within.mono (h : r.Within s) {t : RegState} (hst : s ⊆ t) : r.Within t :=
  fun q w hw => hst q (h q w hw)

theorem Within.v (h : r.Within s) (x : Nibble) : (r.v x).toUInt16 ∈ s.get (.v x) :=
  h (.v x) _ rfl

/-- Every `v` register has one of the values that the state allows. -/
def WithinV (r : Registers) (s : RegState) : Prop :=
  ∀ x, (r.v x).toUInt16 ∈ s.get (.v x)

theorem Within.withinV (h : r.Within s) : r.WithinV s :=
  h.v

theorem WithinV.byte (h : r.WithinV s) (x : Nibble) : r.v x ∈ (s.get (.v x)).toBytes :=
  WordSet.toUInt8_mem_toBytes (h x)

theorem Within.byte (h : r.Within s) (x : Nibble) : r.v x ∈ (s.get (.v x)).toBytes :=
  h.withinV.byte x

theorem Within.index (h : r.Within s) : r.index ∈ s.get .index :=
  h .index _ rfl

theorem Within.set (h : r.Within s) {r' : Registers} {q : Register} {values : WordSet}
    (hq : ∀ w, r'.value q = some w → w ∈ values) (hother : ∀ p, p ≠ q → r'.value p = r.value p) :
    r'.Within (s.set q values) := by
  intro p w hw
  rw [RegState.get_set]
  by_cases hp : q = p
  · subst hp
    rw [if_pos rfl]
    exact hq w hw
  · rw [if_neg hp]
    rw [hother p (Ne.symm hp)] at hw
    exact h p w hw

theorem Within.setReturns (h : r.Within s) (values : WordSet) :
    r.Within (s.set .returns values) :=
  h.set (fun _ hw => absurd hw (by simp [value])) (fun _ _ => rfl)

theorem value_setIndex_ne (r : Registers) {q : Register} (hq : q ≠ .index) (limit i : Address) :
    (r.setIndex limit i).value q = r.value q := by
  cases q with
  | index => exact absurd rfl hq
  | _ => rfl

theorem Within.setV (h : r.Within s) (x : Nibble) {b : UInt8} {values : WordSet}
    (hb : b.toUInt16 ∈ values) : (r.setV x b).Within (s.setV x values) := by
  refine h.set ?_ (fun p hp => value_setV_ne r hp b)
  intro w hw
  rw [value_setV_self, Option.some.injEq] at hw
  rw [← hw]
  exact hb

theorem Within.setIndex (h : r.Within s) {i : Address} {values : WordSet} (limit : Address)
    (hi : i ∈ values) : (r.setIndex limit i).Within (s.set .index (values.cap limit)) := by
  refine h.set ?_ (fun p hp => value_setIndex_ne r hp limit i)
  intro w hw
  simp only [value, Registers.setIndex, Option.some.injEq] at hw
  exact WordSet.mem_cap_iff.2 ⟨i, hi, hw⟩

theorem Within.advanceIndex (h : r.Within s) (d : Dialect) (limit : Address) (x : Nibble) :
    (r.advanceIndex d limit x).Within (s.advanceIndex d limit x) := by
  unfold Registers.advanceIndex RegState.advanceIndex
  by_cases hk : d.keepsIndex = true
  · rw [if_pos hk, if_pos hk]
    exact h
  · rw [if_neg hk, if_neg hk]
    apply h.setIndex
    rw [WordSet.mem_shift, UInt16.add_sub_cancel]
    exact h.index

theorem mem_anyByte (b : UInt8) : b.toUInt16 ∈ anyByte := by
  have hb := b.toNat_lt
  rw [anyByte, WordSet.mem_upTo, UInt16.le_iff_toNat_le, UInt8.toNat_toUInt16]
  change b.toNat ≤ 255
  omega

theorem Within.loadBytes (h : r.Within s) (input : Input) (lo hi : Nat) :
    (r.loadBytes input lo hi).Within (s.loadBytes lo hi) := by
  intro q w hw
  rw [RegState.get_loadBytes]
  cases q with
  | v y =>
    simp only [value, Registers.loadBytes, Option.some.injEq] at hw ⊢
    subst hw
    by_cases hy : lo ≤ y.val ∧ y.val ≤ hi
    · rw [if_pos hy, if_pos hy]
      exact mem_anyByte _
    · rw [if_neg hy, if_neg hy]
      exact h.v y
  | _ => exact h _ w hw

theorem Within.storeFlags (h : r.Within s) (x : Nibble) :
    (r.storeFlags x).Within (s.storeFlags x) := by
  intro q w hw
  rw [RegState.get_storeFlags]
  cases q with
  | flag n =>
    simp only [value, Registers.storeFlags, Option.some.injEq] at hw ⊢
    subst hw
    by_cases hn : n.val ≤ x.val
    · rw [if_pos hn, if_pos hn]
      exact h.v _
    · rw [if_neg hn, if_neg hn]
      exact h (.flag n) _ rfl
  | _ => exact h _ w hw

theorem Within.fetchFlags (h : r.Within s) (x : Nibble) :
    (r.fetchFlags x).Within (s.fetchFlags x) := by
  intro q w hw
  rw [RegState.get_fetchFlags]
  cases q with
  | v y =>
    simp only [value, Registers.fetchFlags, Option.some.injEq] at hw ⊢
    subst hw
    by_cases hy : y.val < 8
    · rw [dif_pos hy, dif_pos hy]
      by_cases hyx : y.val ≤ x.val
      · rw [if_pos hyx, if_pos hyx]
        exact h (.flag ⟨y.val, hy⟩) _ rfl
      · rw [if_neg hyx, if_neg hyx]
        exact h.v y
    · rw [dif_neg hy, dif_neg hy]
      exact h.v y
  | _ => exact h _ w hw

/-- Two registers combine to a value that their sets combine to, also when they are the same. -/
theorem Within.combine (h : r.Within s) (f : UInt8 → UInt8 → UInt8) (x y : Nibble) :
    (f (r.v x) (r.v y)).toUInt16 ∈ WordSet.combine f (x == y) (s.v x) (s.v y) := by
  refine WordSet.mem_combine.2 ⟨r.v x, h.byte x, r.v y, ?_, rfl⟩
  by_cases hxy : x = y
  · rw [if_pos (beq_iff_eq.2 hxy), hxy]
  · rw [if_neg (fun hc => hxy (beq_iff_eq.1 hc))]
    exact h.byte y

theorem Within.applyCarry (h : r.Within s) (d : Dialect) (op : CarryOp) (x y : Nibble) :
    (r.applyCarry d op x y).Within (s.applyCarry d op x y) := by
  have hsource : (if (op.isShift && d.shiftsInPlace) = true then r.v x else r.v y) =
      r.v (if (op.isShift && d.shiftsInPlace) = true then x else y) := by
    split <;> rfl
  unfold Registers.applyCarry RegState.applyCarry
  simp only [hsource]
  generalize (if (op.isShift && d.shiftsInPlace) = true then x else y) = source
  by_cases hf : d.flagFirst = true
  · rw [if_pos hf, if_pos hf]
    exact (h.setV _ (h.combine op.flag x source)).setV _ (h.combine op.value x source)
  · rw [if_neg hf, if_neg hf]
    exact (h.setV _ (h.combine op.value x source)).setV _ (h.combine op.flag x source)

theorem mem_masked (noise mask : UInt8) : (noise &&& mask).toUInt16 ∈ WordSet.masked mask := by
  refine WordSet.mem_ofBytes.2 ⟨noise &&& mask, List.mem_map.2 ⟨noise.toNat, ?_, ?_⟩, rfl⟩
  · exact List.mem_range.2 noise.toNat_lt
  · rw [UInt8.ofNat_toNat]

theorem toUInt16_ofNat_nibble (n : Nibble) :
    (UInt8.ofNat n.val).toUInt16 = UInt16.ofNat n.val := by
  have := n.isLt
  rw [← UInt16.toNat_inj, UInt8.toNat_toUInt16, UInt8.toNat_ofNat', UInt16.toNat_ofNat']
  omega

/-- An instruction takes registers within a state to registers within the state after it. -/
theorem Within.execute (h : r.Within s) (d : Dialect) (limit here : Address)
    (chase : WordSet → WordSet) (input : Input) (i : Instr) :
    (r.execute d limit input i).Within (s.transfer d limit here chase i) := by
  have hsame {a b : UInt16} (e : a = b) : a ∈ WordSet.single b := WordSet.mem_single.2 e
  cases i with
  | ret => exact h.setReturns _
  | call a => exact h.setReturns _
  | loadImm x nn => exact h.setV x (hsame rfl)
  | addImm x nn =>
    refine h.setV x (WordSet.mem_ofBytes.2 ⟨r.v x + nn, ?_, rfl⟩)
    exact List.mem_map_of_mem (h.byte x)
  | alu op x y => exact h.setV x (h.combine op.eval x y)
  | carry op x y => exact h.applyCarry d op x y
  | setIndex a | longIndex a =>
    refine h.set ?_ ?_
    · intro w hw
      exact hsame (Option.some.inj hw).symm
    · intro p hp
      cases p with
      | index => exact absurd rfl hp
      | _ => rfl
  | random x mask => exact h.setV x (mem_masked input.noise mask)
  | getDelay x => exact h.setV x (mem_anyByte _)
  | waitKey x =>
    refine h.setV x (WordSet.mem_upTo.2 ?_)
    rw [UInt16.le_iff_toNat_le, UInt8.toNat_toUInt16, UInt8.toNat_ofNat']
    exact Nat.le_trans (Nat.mod_le _ _) (Nat.le_of_lt_succ input.key.isLt)
  | addIndex x =>
    exact h.setIndex limit (WordSet.mem_sums.2 ⟨r.index, h.index, (r.v x).toUInt16, h.v x, rfl⟩)
  | hexFont x =>
    exact h.setIndex limit (WordSet.mem_image.2 ⟨(r.v x).toUInt16, h.v x, rfl⟩)
  | bigHexFont x =>
    exact h.setIndex limit (WordSet.mem_image.2 ⟨(r.v x).toUInt16, h.v x, rfl⟩)
  | save x => exact h.advanceIndex d limit x
  | load x => exact (h.loadBytes input _ _).advanceIndex d limit x
  | loadRange x y => exact h.loadBytes input _ _
  | saveFlags x => exact h.storeFlags x
  | loadFlags x => exact h.fetchFlags x
  | plane mask =>
    refine h.set ?_ ?_
    · intro w hw
      exact hsame ((Option.some.inj hw).symm.trans (toUInt16_ofNat_nibble mask))
    · intro p hp
      cases p with
      | plane => exact absurd rfl hp
      | _ => rfl
  | sprite x y n =>
    refine h.setV flagRegister (WordSet.mem_upTo.2 ?_)
    cases input.hit <;> decide
  | _ => exact h

end Registers

namespace Condition

variable {r : Registers} {s : RegState}

private theorem somePair_of_withinV (h : r.WithinV s) (x y : Nibble) {test : UInt8 → UInt8 → Bool}
    (ht : test (r.v x) (r.v y) = true) : somePair s x y test = true := by
  unfold somePair
  by_cases hxy : x = y
  · subst hxy
    rw [if_pos rfl]
    exact List.any_eq_true.2 ⟨r.v x, h.byte x, ht⟩
  · rw [if_neg hxy]
    refine List.any_eq_true.2 ⟨r.v x, h.byte x, ?_⟩
    exact List.any_eq_true.2 ⟨r.v y, h.byte y, ht⟩

theorem canHold_of_holds (h : r.WithinV s) {input : Input} {c : Condition}
    (hc : c.holds r input = true) : c.canHold s = true := by
  cases c with
  | eqImm x nn | neImm x nn => exact List.any_eq_true.2 ⟨r.v x, h.byte x, hc⟩
  | eqReg x y | neReg x y => exact somePair_of_withinV h x y hc
  | keyDown x | keyUp x => rfl

theorem canFail_of_not_holds (h : r.WithinV s) {input : Input} {c : Condition}
    (hc : c.holds r input = false) : c.canFail s = true := by
  cases c with
  | eqImm x nn =>
    refine List.any_eq_true.2 ⟨r.v x, h.byte x, ?_⟩
    simpa [holds] using hc
  | neImm x nn =>
    refine List.any_eq_true.2 ⟨r.v x, h.byte x, ?_⟩
    simpa [holds] using hc
  | eqReg x y =>
    refine somePair_of_withinV h x y ?_
    simpa [holds] using hc
  | neReg x y =>
    refine somePair_of_withinV h x y ?_
    simpa [holds] using hc
  | keyDown x | keyUp x => rfl

end Condition

namespace RegState

/-- Only calls and returns change the return addresses. -/
theorem get_returns_transfer (d : Dialect) (limit here : Address) (chase : WordSet → WordSet)
    {i : Instr} (s : RegState) (hret : i ≠ .ret) (hcall : ∀ a, i ≠ .call a) :
    (s.transfer d limit here chase i).get .returns = s.get .returns := by
  have hadvance (t : RegState) (x : Nibble) :
      (t.advanceIndex d limit x).get .returns = t.get .returns := by
    unfold advanceIndex
    split
    · rfl
    · exact get_set_ne (by decide) _ _
  cases i with
  | ret => exact absurd rfl hret
  | call a => exact absurd rfl (hcall a)
  | carry op x y =>
    simp only [transfer, applyCarry, setV]
    split <;> rw [get_set, if_neg (by simp), get_set, if_neg (by simp)]
  | save x => exact hadvance s x
  | load x =>
    simp only [transfer]
    rw [hadvance, get_loadBytes]
  | loadRange x y => exact get_loadBytes s _ _ .returns
  | saveFlags x => exact get_storeFlags s x .returns
  | loadFlags x => exact get_fetchFlags s x .returns
  | _ => first
    | rfl
    | exact get_set_ne (by simp) _ _

end RegState

/-- The return addresses on a stack, seen from a state with the addresses `returns`: the first is
one of them, and the others are so seen from the call that stands before the first. -/
def Linked (S : Address → Option RegState) : WordSet → List Address → Prop
  | _, [] => True
  | returns, back :: rest =>
    back ∈ returns ∧ ∃ s, S (back - 2) = some s ∧ Linked S (s.get .returns) rest

theorem Linked.mono {S : Address → Option RegState} {returns returns' : WordSet}
    {stack : List Address} (h : Linked S returns stack) (hr : returns ⊆ returns') :
    Linked S returns' stack := by
  cases stack with
  | nil => exact trivial
  | cons back rest => exact ⟨hr h.1, h.2⟩

theorem Linked.head {S : Address → Option RegState} {returns : WordSet} {stack : List Address}
    (h : Linked S returns stack) : ∀ back, stack.head? = some back → back ∈ returns := by
  intro back hback
  cases stack with
  | nil => cases hback
  | cons top rest =>
    cases hback
    exact h.1

/-- What a `return` chases to holds what lies below the first address of the stack. -/
theorem Linked.pop {S : Address → Option RegState} {returns : WordSet} {back : Address}
    {rest : List Address} (h : Linked S returns (back :: rest)) :
    Linked S (Analyzer.chase S returns) rest := by
  obtain ⟨hback, s, hs, hrest⟩ := h
  cases rest with
  | nil => exact trivial
  | cons below rest =>
    exact ⟨Analyzer.mem_chase.2 ⟨back, hback, s, hs, hrest.1⟩, hrest.2⟩

namespace Machine

/-- The machine stands at an address of the map, within the state there. -/
structure Covered (S : Address → Option RegState) (m : Machine) (s : RegState) : Prop where
  at_pc : S m.pc = some s
  registers : m.registers.Within s
  stack : Linked S (s.get .returns) m.stack

variable {p : Program} {d : Dialect} {S : Address → Option RegState} {input : Input}
  {m m' : Machine} {s : RegState}

/-- What a step does to the registers and the stack. -/
theorem step_cases (h : m.step p d input = some m') :
    m'.registers = m.registers.execute d p.pointerLimit input (p.instr m.pc) ∧
      (p.instr m.pc = .ret ∧ m.stack = m'.pc :: m'.stack ∨
        (∃ a, p.instr m.pc = .call a ∧ m'.stack = (m.pc + 2) :: m.stack) ∨
        p.instr m.pc ≠ .ret ∧ (∀ a, p.instr m.pc ≠ .call a) ∧ m'.stack = m.stack) := by
  cases hi : p.instr m.pc with
  | halt | exit => simp [step, hi] at h
  | ret =>
    cases hs : m.stack with
    | nil => simp [step, hi, hs] at h
    | cons back rest =>
      simp only [step, hi, hs, Option.some.injEq] at h
      subst h
      exact ⟨rfl, Or.inl ⟨rfl, rfl⟩⟩
  | call a =>
    simp only [step, hi, Option.some.injEq] at h
    subst h
    exact ⟨rfl, Or.inr (Or.inl ⟨a, rfl, rfl⟩)⟩
  | _ =>
    simp only [step, hi, Option.some.injEq] at h
    subst h
    exact ⟨rfl, Or.inr (Or.inr ⟨by simp, by simp, rfl⟩)⟩

/-- The machine continues where the state lets it, whatever the other registers hold. -/
theorem pc_step_of_withinV (hv : m.registers.WithinV s)
    (hback : ∀ back, m.stack.head? = some back → back ∈ s.get .returns)
    (h : m.step p d input = some m') : m'.pc ∈ p.successors m.pc (p.instr m.pc) s := by
  cases hi : p.instr m.pc with
  | halt | exit => simp [step, hi] at h
  | ret =>
    obtain ⟨_, ⟨_, hs⟩ | ⟨a, hc, _⟩ | ⟨hne, _⟩⟩ := step_cases h
    · rw [hs] at hback
      exact Program.mem_successors_ret.2 (hback m'.pc rfl)
    · rw [hi] at hc
      cases hc
    · exact absurd hi hne
  | skip c =>
    simp only [step, hi, Option.some.injEq] at h
    subst h
    rw [Program.mem_successors_skip]
    cases hc : c.holds m.registers input with
    | false => exact Or.inl ⟨Condition.canFail_of_not_holds hv hc, rfl⟩
    | true => exact Or.inr ⟨Condition.canHold_of_holds hv hc, rfl⟩
  | jumpOffset a =>
    simp only [step, hi, Option.some.injEq] at h
    subst h
    refine Program.mem_successors_jumpOffset.2 (WordSet.mem_shift.2 ?_)
    rw [UInt16.add_comm, UInt16.add_sub_cancel]
    exact hv offsetRegister
  | _ =>
    simp only [step, hi, Option.some.injEq] at h
    subst h
    exact List.mem_singleton_self _

theorem Covered.pc_step (hm : m.Covered S s) (h : m.step p d input = some m') :
    m'.pc ∈ p.successors m.pc (p.instr m.pc) s :=
  pc_step_of_withinV hm.registers.withinV hm.stack.head h

/-- The stack stays linked: a call puts an address on it that leads back to the call, a return
uncovers what the addresses of its call sites lead to. -/
theorem Covered.stack_step (hm : m.Covered S s) (h : m.step p d input = some m') :
    Linked S ((s.transfer d p.pointerLimit m.pc (Analyzer.chase S) (p.instr m.pc)).get .returns)
      m'.stack := by
  have hlink := hm.stack
  obtain ⟨_, ⟨hi, hs⟩ | ⟨a, hi, hs⟩ | ⟨hret, hcall, hs⟩⟩ := step_cases h
  · rw [hs] at hlink
    rw [hi, RegState.transfer, RegState.get_set_self]
    exact hlink.pop
  · rw [hi, hs, RegState.transfer, RegState.get_set_self]
    refine ⟨WordSet.mem_single.2 rfl, s, ?_, hlink⟩
    rw [UInt16.add_sub_cancel]
    exact hm.at_pc
  · rw [RegState.get_returns_transfer _ _ _ _ _ hret hcall, hs]
    exact hlink

theorem Covered.step (hm : m.Covered S s) (hS : Closed p d S) (h : m.step p d input = some m') :
    ∃ t, m'.Covered S t := by
  obtain ⟨u, hu, hout⟩ := hS.flow m.pc s hm.at_pc m'.pc (hm.pc_step h)
  refine ⟨u, hu, ?_, (hm.stack_step h).mono (hout .returns)⟩
  rw [(step_cases h).1]
  exact (hm.registers.execute d p.pointerLimit m.pc _ input _).mono hout

theorem Covered.run (hS : Closed p d S) {inputs : List Input} (hm : m.Covered S s)
    (h : m.run p d inputs = some m') : ∃ t, m'.Covered S t := by
  induction inputs generalizing m s with
  | nil =>
    cases h
    exact ⟨s, hm⟩
  | cons input inputs ih =>
    obtain ⟨next, hnext, hrest⟩ := Option.bind_eq_some_iff.1 h
    obtain ⟨t, ht⟩ := hm.step hS hnext
    exact ih ht hrest

theorem covered_powerOn (hS : Closed p d S) : ∃ t, powerOn.Covered S t := by
  obtain ⟨t, ht, hsub⟩ := hS.entry
  exact ⟨t, ht, Registers.within_powerOn.mono hsub, trivial⟩

/-- A closed map covers every run from power-on. Wherever the machine stands, the map has a state
whose sets hold the values of the registers and the return address on top of the stack; those
below are linked to it by the states at their calls; and the next step, if there is one, leads
where the state lets the program continue. -/
theorem run_covered_of_closed (hS : Closed p d S) {inputs : List Input}
    (h : powerOn.run p d inputs = some m) :
    ∃ t, S m.pc = some t ∧ (∀ r w, m.registers.value r = some w → w ∈ t.get r) ∧
      (∀ back, m.stack.head? = some back → back ∈ t.get .returns) ∧
      Linked S (t.get .returns) m.stack ∧
      ∀ input next, m.step p d input = some next →
        next.pc ∈ p.successors m.pc (p.instr m.pc) t := by
  obtain ⟨s₀, hs₀⟩ := covered_powerOn hS
  obtain ⟨t, ht⟩ := hs₀.run hS h
  exact ⟨t, ht.at_pc, ht.registers, ht.stack.head, ht.stack, fun _ _ hnext => ht.pc_step hnext⟩

theorem run_covered_in_single_call :
    Closed Analyzer.singleCall {} Analyzer.singleCallStates ∧
      powerOn.run Analyzer.singleCall {} [default] = some ⟨0x204, .powerOn, [0x202]⟩ ∧
      step Analyzer.singleCall {} default ⟨0x204, .powerOn, [0x202]⟩ =
        some ⟨0x202, .powerOn, []⟩ ∧
      ∃ t, Analyzer.singleCallStates 0x204 = some t ∧
        (∀ r w, Registers.powerOn.value r = some w → w ∈ t.get r) ∧
        0x202 ∈ t.get .returns ∧
        0x202 ∈ Analyzer.singleCall.successors 0x204 (Analyzer.singleCall.instr 0x204) t := by
  have hS := Analyzer.closed_singleCall
  have hrun : powerOn.run Analyzer.singleCall {} [default] =
      some ⟨0x204, .powerOn, [0x202]⟩ := rfl
  have hstep : step Analyzer.singleCall {} default ⟨0x204, .powerOn, [0x202]⟩ =
      some ⟨0x202, .powerOn, []⟩ := rfl
  obtain ⟨t, ht, hvalues, htop, _, hnext⟩ := run_covered_of_closed hS hrun
  exact ⟨hS, hrun, hstep, t, ht, hvalues, htop 0x202 rfl, hnext _ _ hstep⟩

end Machine
end OctoLift
