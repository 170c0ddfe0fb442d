import Mathlib.Tactic.Choose
import OctoLift.Proofs.Soundness

/-!
# Exact images

A state leaves the values of the registers to be picked independently of each other. The state
after an instruction holds, register by register, exactly the values that the machine can have
there when it executes the instruction with registers so picked: none is missing, and none is
invented. The second half needs every register to have a value, since a value that one register
takes is attained only if there is something to pick for all the others.
-/

namespace OctoLift

theorem UInt16.toUInt16_toUInt8_of_le {w : UInt16} (hw : w ≤ 0xFF) :
    w.toUInt8.toUInt16 = w := by
  rw [UInt16.le_iff_toNat_le] at hw
  apply UInt16.toNat_inj.1
  simp only [UInt8.toNat_toUInt16, UInt16.toNat_toUInt8]
  exact Nat.mod_eq_of_lt (Nat.lt_succ_of_le hw)

def Registers.ofValues (f : Register → UInt16) : Registers where
  v x := (f (.v x)).toUInt8
  flag n := (f (.flag n)).toUInt8
  plane := (f .plane).toUInt8
  index := f .index

theorem Registers.value_ofValues {f : Register → UInt16} {q : Register} (hq : q ≠ .returns)
    (hbyte : q ≠ .index → f q ≤ 0xFF) : (ofValues f).value q = some (f q) := by
  cases q with
  | returns => exact absurd rfl hq
  | index => rfl
  | v x => exact congrArg some (UInt16.toUInt16_toUInt8_of_le (hbyte (by simp)))
  | flag n => exact congrArg some (UInt16.toUInt16_toUInt8_of_le (hbyte (by simp)))
  | plane => exact congrArg some (UInt16.toUInt16_toUInt8_of_le (hbyte (by simp)))

namespace RegState

/-- Every `v` register has a value, and only bytes. -/
structure HoldsBytes (s : RegState) : Prop where
  nonempty : ∀ x, ∃ w, w ∈ s.get (.v x)
  byte : ∀ x, ∀ w ∈ s.get (.v x), w ≤ 0xFF

/-- Every register has a value, and all but `i` hold bytes. -/
structure InRange (s : RegState) : Prop where
  nonempty : ∀ q, q ≠ .returns → ∃ w, w ∈ s.get q
  byte : ∀ q, q ≠ .returns → q ≠ .index → ∀ w ∈ s.get q, w ≤ 0xFF

variable {s t : RegState}

theorem HoldsBytes.toUInt16_mem (h : s.HoldsBytes) {x : Nibble} {b : UInt8}
    (hb : b ∈ (s.get (.v x)).toBytes) : b.toUInt16 ∈ s.get (.v x) := by
  obtain ⟨w, hw, rfl⟩ := WordSet.mem_toBytes.1 hb
  rwa [UInt16.toUInt16_toUInt8_of_le (h.byte x w hw)]

theorem InRange.holdsBytes (h : s.InRange) : s.HoldsBytes :=
  ⟨fun x => h.nonempty (.v x) (by simp), fun x => h.byte (.v x) (by simp) (by simp)⟩

theorem InRange.set (h : s.InRange) {q : Register} {values : WordSet}
    (hnonempty : ∃ w, w ∈ values) (hbyte : q ≠ .index → ∀ w ∈ values, w ≤ 0xFF) :
    (s.set q values).InRange := by
  constructor
  · intro p hp
    rw [get_set]
    split
    · exact hnonempty
    · exact h.nonempty p hp
  · intro p hp hi
    rw [get_set]
    split
    · next e =>
      subst e
      exact hbyte hi
    · exact h.byte p hp hi

theorem inRange_powerOn : powerOn.InRange := by
  have hget {q : Register} (hq : q ≠ .returns) : ∃ w, powerOn.get q = .single w ∧ w ≤ 0xFF := by
    by_cases hp : q = .plane
    · subst hp
      exact ⟨1, get_set_self _ _ _, by decide⟩
    · exact ⟨0, get_powerOn hq hp, by decide⟩
  constructor
  · intro q hq
    obtain ⟨w, hw, -⟩ := hget hq
    exact ⟨w, by rw [hw, WordSet.mem_single]⟩
  · intro q hq _ v hv
    obtain ⟨w, hw, hle⟩ := hget hq
    rw [hw, WordSet.mem_single] at hv
    rwa [hv]

/-- Where every place has something to pick, two picks can be had together. -/
theorem exists_picks_pair {ι α : Type} [DecidableEq ι] {S : ι → α → Prop}
    (hall : ∀ i, ∃ a, S i a) {i j : ι} {a b : α} (ha : S i a) (hb : S j b)
    (hsame : i = j → a = b) : ∃ f : ι → α, (∀ k, S k (f k)) ∧ f i = a ∧ f j = b := by
  choose pick hpick using hall
  refine ⟨fun k => if k = i then a else if k = j then b else pick k, ?_, if_pos rfl, ?_⟩
  · intro k
    by_cases hi : k = i
    · subst hi
      simpa using ha
    · by_cases hj : k = j
      · subst hj
        simpa [hi] using hb
      · simpa [hi, hj] using hpick k
  · by_cases hji : j = i
    · simp [hji, hsame hji.symm]
    · simp [hji]

/-- Values of two registers can be had together, whatever they are. -/
theorem InRange.exists_within_pair (h : s.InRange) {p q : Register} {u w : UInt16}
    (hp : p ≠ .returns) (hq : q ≠ .returns) (hu : u ∈ s.get p) (hw : w ∈ s.get q)
    (hsame : p = q → u = w) :
    ∃ r : Registers, r.Within s ∧ r.value p = some u ∧ r.value q = some w := by
  have hall (o : Register) : ∃ v, o ≠ .returns → v ∈ s.get o := by
    by_cases ho : o = .returns
    · exact ⟨0, fun hne => absurd ho hne⟩
    · obtain ⟨v, hv⟩ := h.nonempty o ho
      exact ⟨v, fun _ => hv⟩
  obtain ⟨f, hf, hfp, hfq⟩ := exists_picks_pair hall (fun _ => hu) (fun _ => hw) hsame
  have hvalue (o : Register) (ho : o ≠ .returns) : (Registers.ofValues f).value o = some (f o) :=
    Registers.value_ofValues ho fun hi => h.byte o ho hi _ (hf o ho)
  refine ⟨.ofValues f, ?_, by rw [hvalue p hp, hfp], by rw [hvalue q hq, hfq]⟩
  intro o v hv
  have ho : o ≠ .returns := by
    rintro rfl
    cases hv
  rw [hvalue o ho, Option.some.injEq] at hv
  rw [← hv]
  exact hf o ho

theorem InRange.exists_within (h : s.InRange) {q : Register} (hq : q ≠ .returns) {w : UInt16}
    (hw : w ∈ s.get q) : ∃ r : Registers, r.Within s ∧ r.value q = some w := by
  obtain ⟨r, hr, hv, -⟩ := h.exists_within_pair hq hq hw hw (fun _ => rfl)
  exact ⟨r, hr, hv⟩

theorem InRange.exists_registers (h : s.InRange) : ∃ r : Registers, r.Within s := by
  obtain ⟨w, hw⟩ := h.nonempty .index (by simp)
  obtain ⟨r, hr, -⟩ := h.exists_within (by simp) hw
  exact ⟨r, hr⟩

theorem InRange.exists_combine (h : s.InRange) (f : UInt8 → UInt8 → UInt8) (x y : Nibble)
    {w : UInt16} (hw : w ∈ WordSet.combine f (x == y) (s.v x) (s.v y)) :
    ∃ r : Registers, r.Within s ∧ (f (r.v x) (r.v y)).toUInt16 = w := by
  obtain ⟨a, ha, b, hb, rfl⟩ := WordSet.mem_combine.1 hw
  have hpair : b.toUInt16 ∈ s.get (.v y) ∧ (x = y → a = b) := by
    by_cases hxy : x = y
    · rw [if_pos (beq_iff_eq.2 hxy)] at hb
      subst hb
      subst hxy
      exact ⟨h.holdsBytes.toUInt16_mem ha, fun _ => rfl⟩
    · rw [if_neg (fun hc => hxy (beq_iff_eq.1 hc))] at hb
      exact ⟨h.holdsBytes.toUInt16_mem hb, fun e => absurd e hxy⟩
  obtain ⟨hb, hsame⟩ := hpair
  obtain ⟨r, hr, hx, hy⟩ := h.exists_within_pair (p := .v x) (q := .v y) (by simp) (by simp)
    (h.holdsBytes.toUInt16_mem ha) hb (fun e => by rw [hsame (by simpa using e)])
  simp only [Registers.value, Option.some.injEq, UInt8.toUInt16_inj] at hx hy
  exact ⟨r, hr, by rw [hx, hy]⟩

/-- Every value that `t` has for a register, the register has after `run` has been executed with
some registers within `s`. -/
def Attained (s : RegState) (run : Input → Registers → Registers) (t : RegState) : Prop :=
  ∀ q w, q ≠ .returns → w ∈ t.get q →
    ∃ (r : Registers) (input : Input), r.Within s ∧ (run input r).value q = some w

section Attained

variable {run : Input → Registers → Registers}

theorem InRange.exists_moved (h : s.InRange) {p q : Register} (hp : p ≠ .returns)
    (hmove : ∀ input r, (run input r).value q = r.value p) {w : UInt16} (hw : w ∈ s.get p) :
    ∃ (r : Registers) (input : Input), r.Within s ∧ (run input r).value q = some w := by
  obtain ⟨r, hr, hv⟩ := h.exists_within hp hw
  exact ⟨r, default, hr, by rw [hmove, hv]⟩

theorem InRange.attained (h : s.InRange) : Attained s (fun _ r => r) s :=
  fun _ _ hq hw => h.exists_moved hq (fun _ _ => rfl) hw

theorem Attained.set (h : Attained s run t) {run' : Input → Registers → Registers} {q : Register}
    {values : WordSet}
    (hvalues : ∀ w ∈ values, ∃ (r : Registers) (input : Input),
      r.Within s ∧ (run' input r).value q = some w)
    (hother : ∀ p, p ≠ q → ∀ input r, (run' input r).value p = (run input r).value p) :
    Attained s run' (t.set q values) := by
  intro p w hp hw
  rw [get_set] at hw
  by_cases hpq : q = p
  · subst hpq
    rw [if_pos rfl] at hw
    exact hvalues w hw
  · rw [if_neg hpq] at hw
    obtain ⟨r, input, hr, hv⟩ := h p w hp hw
    exact ⟨r, input, hr, by rw [hother p (Ne.symm hpq), hv]⟩

theorem Attained.setReturns (h : Attained s run t) (values : WordSet) :
    Attained s run (t.set .returns values) := by
  intro q w hq hw
  rw [get_set_ne (Ne.symm hq)] at hw
  exact h q w hq hw

theorem Attained.setV (h : Attained s run t) (x : Nibble) {b : Input → Registers → UInt8}
    {values : WordSet}
    (hb : ∀ w ∈ values, ∃ (r : Registers) (input : Input),
      r.Within s ∧ (b input r).toUInt16 = w) :
    Attained s (fun input r => (run input r).setV x (b input r)) (t.setV x values) := by
  refine h.set ?_ (fun p hp input r => Registers.value_setV_ne _ hp _)
  intro w hw
  obtain ⟨r, input, hr, hv⟩ := hb w hw
  exact ⟨r, input, hr, by rw [Registers.value_setV_self, hv]⟩

theorem Attained.setIndex (h : Attained s run t) (limit : Address)
    {i : Input → Registers → Address} {values : WordSet}
    (hi : ∀ w ∈ values, ∃ (r : Registers) (input : Input), r.Within s ∧ i input r = w) :
    Attained s (fun input r => (run input r).setIndex limit (i input r))
      (t.set .index (values.cap limit)) := by
  refine h.set ?_ (fun p hp input r => Registers.value_setIndex_ne _ hp _ _)
  intro w hw
  obtain ⟨v, hv, rfl⟩ := WordSet.mem_cap_iff.1 hw
  obtain ⟨r, input, hr, rfl⟩ := hi v hv
  exact ⟨r, input, hr, rfl⟩

theorem Attained.advanceIndex (h : Attained s run t) (d : Dialect) (limit : Address) (x : Nibble)
    (hindex : ∀ w ∈ t.get .index, ∃ (r : Registers) (input : Input),
      r.Within s ∧ (run input r).index = w) :
    Attained s (fun input r => (run input r).advanceIndex d limit x)
      (t.advanceIndex d limit x) := by
  unfold Registers.advanceIndex RegState.advanceIndex
  by_cases hk : d.keepsIndex = true
  · simp only [if_pos hk]
    exact h
  · simp only [if_neg hk]
    apply h.setIndex
    intro w hw
    obtain ⟨r, input, hr, hi⟩ := hindex _ (WordSet.mem_shift.1 hw)
    exact ⟨r, input, hr, by rw [hi, UInt16.sub_add_cancel]⟩

theorem InRange.attained_loadBytes (h : s.InRange) (lo hi : Nat) :
    Attained s (fun input r => r.loadBytes input lo hi) (s.loadBytes lo hi) := by
  intro q w hq hw
  rw [get_loadBytes] at hw
  cases q with
  | v y =>
    simp only at hw
    by_cases hy : lo ≤ y.val ∧ y.val ≤ hi
    · rw [if_pos hy] at hw
      obtain ⟨r, hr⟩ := h.exists_registers
      refine ⟨r, { (default : Input) with memory := fun _ => w.toUInt8 }, hr, ?_⟩
      simp only [Registers.value, Registers.loadBytes, if_pos hy]
      rw [UInt16.toUInt16_toUInt8_of_le (WordSet.mem_upTo.1 hw)]
    · rw [if_neg hy] at hw
      refine h.exists_moved hq (fun input r => ?_) hw
      simp only [Registers.value, Registers.loadBytes, if_neg hy]
  | _ => exact h.attained _ w hq hw

theorem InRange.attained_storeFlags (h : s.InRange) (x : Nibble) :
    Attained s (fun _ r => r.storeFlags x) (s.storeFlags x) := by
  intro q w hq hw
  rw [get_storeFlags] at hw
  cases q with
  | flag n =>
    simp only at hw
    by_cases hn : n.val ≤ x.val
    · rw [if_pos hn] at hw
      refine h.exists_moved (p := .v ⟨n.val, by omega⟩) (by simp) (fun _ r => ?_) hw
      simp only [Registers.value, Registers.storeFlags, if_pos hn]
    · rw [if_neg hn] at hw
      refine h.exists_moved hq (fun _ r => ?_) hw
      simp only [Registers.value, Registers.storeFlags, if_neg hn]
  | _ => exact h.attained _ w hq hw

theorem InRange.attained_fetchFlags (h : s.InRange) (x : Nibble) :
    Attained s (fun _ r => r.fetchFlags x) (s.fetchFlags x) := by
  intro q w hq hw
  rw [get_fetchFlags] at hw
  cases q with
  | v y =>
    simp only at hw
    by_cases hlt : y.val < 8
    · rw [dif_pos hlt] at hw
      by_cases hyx : y.val ≤ x.val
      · rw [if_pos hyx] at hw
        refine h.exists_moved (p := .flag _) (by simp) (fun _ r => ?_) hw
        simp only [Registers.value, Registers.fetchFlags, dif_pos hlt, if_pos hyx]
      · rw [if_neg hyx] at hw
        refine h.exists_moved hq (fun _ r => ?_) hw
        simp only [Registers.value, Registers.fetchFlags, dif_pos hlt, if_neg hyx]
    · rw [dif_neg hlt] at hw
      refine h.exists_moved hq (fun _ r => ?_) hw
      simp only [Registers.value, Registers.fetchFlags, dif_neg hlt]
  | _ => exact h.attained _ w hq hw

theorem InRange.attained_applyCarry (h : s.InRange) (d : Dialect) (op : CarryOp) (x y : Nibble) :
    Attained s (fun _ r => r.applyCarry d op x y) (s.applyCarry d op x y) := by
  have hsource (r : Registers) :
      (if (op.isShift && d.shiftsInPlace) = true then r.v x else r.v y) =
        r.v (if (op.isShift && d.shiftsInPlace) = true then x else y) := by
    split <;> rfl
  unfold Registers.applyCarry RegState.applyCarry
  simp only [hsource]
  generalize (if (op.isShift && d.shiftsInPlace) = true then x else y) = source
  have hcombine (f : UInt8 → UInt8 → UInt8) (w : UInt16)
      (hw : w ∈ WordSet.combine f (x == source) (s.v x) (s.v source)) :
      ∃ (r : Registers) (_ : Input), r.Within s ∧ (f (r.v x) (r.v source)).toUInt16 = w := by
    obtain ⟨r, hr, hv⟩ := h.exists_combine f x source hw
    exact ⟨r, default, hr, hv⟩
  by_cases hf : d.flagFirst = true
  · simp only [if_pos hf]
    exact (h.attained.setV _ (hcombine op.flag)).setV _ (hcombine op.value)
  · simp only [if_neg hf]
    exact (h.attained.setV _ (hcombine op.value)).setV _ (hcombine op.flag)

end Attained

/-- Nothing is invented: every value in the state after an instruction is attained. -/
theorem InRange.attained_transfer (h : s.InRange) (d : Dialect) (limit here : Address)
    (chase : WordSet → WordSet) (i : Instr) :
    Attained s (fun input r => r.execute d limit input i) (s.transfer d limit here chase i) := by
  obtain ⟨r₀, hr₀⟩ := h.exists_registers
  have hself := h.attained
  cases i with
  | ret => exact hself.setReturns _
  | call a => exact hself.setReturns _
  | loadImm x nn =>
    refine hself.setV x ?_
    intro w hw
    exact ⟨r₀, default, hr₀, (WordSet.mem_single.1 hw).symm⟩
  | addImm x nn =>
    refine hself.setV x ?_
    intro w hw
    obtain ⟨b, hb, rfl⟩ := WordSet.mem_ofBytes.1 hw
    obtain ⟨a, ha, rfl⟩ := List.mem_map.1 hb
    obtain ⟨r, hr, hv⟩ := h.exists_within (by simp) (h.holdsBytes.toUInt16_mem ha)
    simp only [Registers.value, Option.some.injEq, UInt8.toUInt16_inj] at hv
    exact ⟨r, default, hr, by rw [hv]⟩
  | alu op x y =>
    refine hself.setV x ?_
    intro w hw
    obtain ⟨r, hr, hv⟩ := h.exists_combine op.eval x y hw
    exact ⟨r, default, hr, hv⟩
  | carry op x y => exact h.attained_applyCarry d op x y
  | setIndex a | longIndex a =>
    refine hself.set ?_ ?_
    · intro w hw
      exact ⟨r₀, default, hr₀, congrArg some (WordSet.mem_single.1 hw).symm⟩
    · intro p hp input r
      cases p with
      | index => exact absurd rfl hp
      | _ => rfl
  | random x mask =>
    refine hself.setV x ?_
    intro w hw
    obtain ⟨b, hb, rfl⟩ := WordSet.mem_ofBytes.1 hw
    obtain ⟨z, -, rfl⟩ := List.mem_map.1 hb
    exact ⟨r₀, { (default : Input) with noise := UInt8.ofNat z }, hr₀, rfl⟩
  | getDelay x =>
    refine hself.setV x ?_
    intro w hw
    exact ⟨r₀, { (default : Input) with timer := w.toUInt8 }, hr₀,
      UInt16.toUInt16_toUInt8_of_le (WordSet.mem_upTo.1 hw)⟩
  | waitKey x =>
    refine hself.setV x ?_
    intro w hw
    have hle : w.toNat ≤ 15 := UInt16.le_iff_toNat_le.1 (WordSet.mem_upTo.1 hw)
    refine ⟨r₀, { (default : Input) with key := ⟨w.toNat, by omega⟩ }, hr₀, ?_⟩
    exact (Registers.toUInt16_ofNat_nibble _).trans UInt16.ofNat_toNat
  | addIndex x =>
    refine hself.setIndex limit ?_
    intro w hw
    obtain ⟨a, ha, b, hb, rfl⟩ := WordSet.mem_sums.1 hw
    obtain ⟨r, hr, hindex, hx⟩ := h.exists_within_pair (p := .index) (q := .v x) (by simp)
      (by simp) ha hb (fun e => by simp at e)
    simp only [Registers.value, Option.some.injEq] at hindex hx
    exact ⟨r, default, hr, by rw [hindex, hx]⟩
  | hexFont x | bigHexFont x =>
    refine hself.setIndex limit ?_
    intro w hw
    obtain ⟨b, hb, rfl⟩ := WordSet.mem_image.1 hw
    obtain ⟨r, hr, hx⟩ := h.exists_within (by simp) hb
    simp only [Registers.value, Option.some.injEq] at hx
    exact ⟨r, default, hr, by rw [hx]⟩
  | save x =>
    refine hself.advanceIndex d limit x ?_
    intro w hw
    obtain ⟨r, hr, hi⟩ := h.exists_within (by simp) hw
    exact ⟨r, default, hr, Option.some.inj hi⟩
  | load x =>
    refine (h.attained_loadBytes _ _).advanceIndex d limit x ?_
    intro w hw
    rw [get_loadBytes] at hw
    obtain ⟨r, hr, hi⟩ := h.exists_within (by simp) hw
    exact ⟨r, default, hr, Option.some.inj hi⟩
  | loadRange x y => exact h.attained_loadBytes _ _
  | saveFlags x => exact h.attained_storeFlags x
  | loadFlags x => exact h.attained_fetchFlags x
  | plane mask =>
    refine hself.set ?_ ?_
    · intro w hw
      refine ⟨r₀, default, hr₀, congrArg some ?_⟩
      rw [WordSet.mem_single.1 hw]
      exact Registers.toUInt16_ofNat_nibble mask
    · intro p hp input r
      cases p with
      | plane => exact absurd rfl hp
      | _ => rfl
  | sprite x y n =>
    refine hself.setV flagRegister ?_
    intro w hw
    refine ⟨r₀, { (default : Input) with hit := decide (w = 1) }, hr₀, ?_⟩
    have hle : w.toNat ≤ 1 := UInt16.le_iff_toNat_le.1 (WordSet.mem_upTo.1 hw)
    by_cases h1 : w = 1
    · simp [h1]
    · have h0 : w = 0 := by
        rw [← UInt16.toNat_inj] at h1 ⊢
        simp only [UInt16.reduceToNat] at h1 ⊢
        omega
      simp [h0]
  | _ => exact hself

theorem InRange.mem_get_transfer_iff (h : s.InRange) (d : Dialect) (limit here : Address)
    (chase : WordSet → WordSet) (i : Instr) {q : Register} (hq : q ≠ .returns) {w : UInt16} :
    w ∈ (s.transfer d limit here chase i).get q ↔
      ∃ (r : Registers) (input : Input), r.Within s ∧
        (r.execute d limit input i).value q = some w := by
  constructor
  · exact h.attained_transfer d limit here chase i q w hq
  · intro hexec
    obtain ⟨r, input, hr, hv⟩ := hexec
    exact hr.execute d limit here chase input i q w hv

/-- The state after an instruction is exact: a register may hold just the values that it has once
the instruction has been executed with some registers picked independently of each other, and only
calls and returns change the return addresses. -/
theorem transfer_exact (d : Dialect) (limit here : Address) (chase : WordSet → WordSet) (i : Instr)
    (h : s.InRange) :
    (∀ q, q ≠ .returns → ∀ w,
      w ∈ (s.transfer d limit here chase i).get q ↔
        ∃ (r : Registers) (input : Input), r.Within s ∧
          (r.execute d limit input i).value q = some w) ∧
      (i ≠ .ret → (∀ a, i ≠ .call a) →
        (s.transfer d limit here chase i).get .returns = s.get .returns) := by
  constructor
  · intro q hq w
    exact h.mem_get_transfer_iff d limit here chase i hq
  · intro hret hcall
    exact get_returns_transfer d limit here chase s hret hcall

/-- A register that may hold 1 or 2 is zero once it has been combined with itself by `^=`. Nothing
else comes out, although 1 and 2 as values of two registers would combine to 3. -/
theorem transfer_exact_on_one_register :
    (powerOn.setV 0 (.ofList [1, 2])).InRange ∧
      (∃ (r : Registers) (input : Input), r.Within (powerOn.setV 0 (.ofList [1, 2])) ∧
        (r.execute {} 0xFFF input (.alu .xor 0 0)).value (.v 0) = some 0) ∧
      ¬ (∃ (r : Registers) (input : Input), r.Within (powerOn.setV 0 (.ofList [1, 2])) ∧
        (r.execute {} 0xFFF input (.alu .xor 0 0)).value (.v 0) = some 3) ∧
      ((powerOn.setV 0 (.ofList [1, 2])).transfer {} 0xFFF 0x200 id (.alu .xor 0 0)).get
        .returns = ∅ := by
  have hbyte : ∀ w ∈ WordSet.ofList [1, 2], w ≤ 0xFF := by
    simp [WordSet.mem_ofList]
  have h : (powerOn.setV 0 (.ofList [1, 2])).InRange :=
    inRange_powerOn.set ⟨1, by decide⟩ (fun _ => hbyte)
  obtain ⟨hvalues, hreturns⟩ := transfer_exact {} 0xFFF 0x200 id (.alu .xor 0 0) h
  refine ⟨h, (hvalues (.v 0) (by decide) 0).1 (by decide), ?_, ?_⟩
  · exact fun hthree => absurd ((hvalues (.v 0) (by decide) 3).2 hthree) (by decide)
  · rw [hreturns (by decide) (by simp)]
    decide

end RegState
end OctoLift
