import OctoLift.Proofs.Images

/-!
# Where the values come from

Since the state after an instruction is the exact image of the one before, what an instruction does
to single values decides what can stand in the sets: a byte register takes bytes, the plane masks
are literals, and `i` saturates unless a literal is loaded into it. The return addresses are not
values of the machine's registers. They come from calls, and that they all do needs every other
reached state, since a `return` takes them from the states at call sites.
-/

namespace OctoLift

namespace Registers

variable (r : Registers) (d : Dialect) (limit : Address) (input : Input) (i : Instr)

theorem value_le {r : Registers} {q : Register} {w : UInt16} (hw : r.value q = some w)
    (hq : q ≠ .index) : w ≤ 0xFF := by
  have hbyte (b : UInt8) : b.toUInt16 ≤ 0xFF := by
    rw [UInt16.le_iff_toNat_le, UInt8.toNat_toUInt16]
    exact Nat.le_of_lt_succ b.toNat_lt
  cases q with
  | index => exact absurd rfl hq
  | returns => cases hw
  | _ =>
    rw [← Option.some.inj hw]
    exact hbyte _

theorem exists_value {q : Register} (hq : q ≠ .returns) : ∃ w, r.value q = some w := by
  cases q with
  | returns => exact absurd rfl hq
  | _ => exact ⟨_, rfl⟩

theorem setIndex_le (j : Address) : (r.setIndex limit j).index ≤ limit := by
  change (if j ≤ limit then j else limit) ≤ limit
  split
  · assumption
  · exact UInt16.le_refl limit

theorem advanceIndex_index (x : Nibble) :
    (r.advanceIndex d limit x).index = r.index ∨ (r.advanceIndex d limit x).index ≤ limit := by
  unfold advanceIndex
  split
  · exact .inl rfl
  · exact .inr (setIndex_le r limit _)

/-- Computed values of `i` saturate; what lies beyond the limit was there before or is loaded as a
literal. -/
theorem execute_index :
    (r.execute d limit input i).index = r.index ∨ (r.execute d limit input i).index ≤ limit ∨
      i = .setIndex (r.execute d limit input i).index ∨
      i = .longIndex (r.execute d limit input i).index := by
  cases i with
  | setIndex a => exact .inr (.inr (.inl rfl))
  | longIndex a => exact .inr (.inr (.inr rfl))
  | addIndex x | hexFont x | bigHexFont x => exact .inr (.inl (setIndex_le r limit _))
  | save x =>
    rcases advanceIndex_index r d limit x with h | h
    · exact .inl h
    · exact .inr (.inl h)
  | load x =>
    rcases advanceIndex_index (r.loadBytes input 0 x.val) d limit x with h | h
    · exact .inl h
    · exact .inr (.inl h)
  | carry op x y =>
    left
    simp only [execute, applyCarry]
    split <;> rfl
  | _ => exact .inl rfl

theorem execute_plane :
    (r.execute d limit input i).plane = r.plane ∨
      (r.execute d limit input i).plane.toUInt16 ≤ 0xF := by
  cases i with
  | plane mask =>
    right
    have hlt := mask.isLt
    change (UInt8.ofNat mask.val).toUInt16 ≤ 0xF
    rw [toUInt16_ofNat_nibble, UInt16.le_iff_toNat_le, UInt16.toNat_ofNat',
      Nat.mod_eq_of_lt (by omega)]
    exact Nat.le_of_lt_succ hlt
  | carry op x y =>
    left
    simp only [execute, applyCarry]
    split <;> rfl
  | save x | load x =>
    left
    simp only [execute, advanceIndex]
    split <;> rfl
  | _ => exact .inl rfl

end Registers

namespace RegState

variable {s t : RegState}

theorem forall_mem_union {q : Register} {P : UInt16 → Prop} (hs : ∀ w ∈ s.get q, P w)
    (ht : ∀ w ∈ t.get q, P w) : ∀ w ∈ (s ∪ t).get q, P w := by
  intro w hw
  rw [get_union] at hw
  exact (WordSet.mem_union.1 hw).elim (hs w) (ht w)

theorem InRange.union (hs : s.InRange) (ht : t.InRange) : (s ∪ t).InRange := by
  constructor
  · intro q hq
    obtain ⟨w, hw⟩ := hs.nonempty q hq
    exact ⟨w, le_sup_left (a := s) (b := t) q hw⟩
  · intro q hq hi
    exact forall_mem_union (hs.byte q hq hi) (ht.byte q hq hi)

theorem InRange.transfer (h : s.InRange) (d : Dialect) (limit here : Address)
    (chase : WordSet → WordSet) (i : Instr) : (s.transfer d limit here chase i).InRange := by
  constructor
  · intro q hq
    obtain ⟨r, hr⟩ := h.exists_registers
    obtain ⟨w, hw⟩ := (r.execute d limit default i).exists_value hq
    exact ⟨w, hr.execute d limit here chase default i q w hw⟩
  · intro q hq hi w hw
    obtain ⟨r, input, _, hv⟩ := h.attained_transfer d limit here chase i q w hq hw
    exact Registers.value_le hv hi

end RegState

namespace Analyzer

def Calls (a : Analyzer) (c : Address) : Prop :=
  (∃ s, a.reaching[c] = some s) ∧ ∃ target, a.program.instr c = .call target

/-- Some reached instruction loads the literal `w` into `i`. -/
def Loads (a : Analyzer) (w : Address) : Prop :=
  ∃ here s, a.reaching[here] = some s ∧
    (a.program.instr here = .setIndex w ∨ a.program.instr here = .longIndex w)

/-- All values in the state `s` are accounted for by what `a` has reached. -/
structure Justified (a : Analyzer) (s : RegState) : Prop where
  inRange : s.InRange
  plane : ∀ w ∈ s.get .plane, w ≤ 0xF
  index : ∀ w ∈ s.get .index, w ≤ a.program.pointerLimit ∨ a.Loads w
  returns : ∀ r ∈ s.get .returns, a.Calls (r - 2)

section Justified

variable {a b : Analyzer} {s t : RegState}

theorem Grows.calls (hg : a.Grows b) {c : Address} (h : a.Calls c) : b.Calls c := by
  obtain ⟨⟨s, hs⟩, hi⟩ := h
  obtain ⟨u, hu, _⟩ := hg.reaching c s hs
  rw [← hg.program] at hi
  exact ⟨⟨u, hu⟩, hi⟩

theorem Grows.loads (hg : a.Grows b) {w : Address} (h : a.Loads w) : b.Loads w := by
  obtain ⟨here, s, hs, hi⟩ := h
  obtain ⟨u, hu, _⟩ := hg.reaching here s hs
  rw [← hg.program] at hi
  exact ⟨here, u, hu, hi⟩

theorem Justified.mono (h : a.Justified s) (hg : a.Grows b) : b.Justified s := by
  refine ⟨h.inRange, h.plane, ?_, fun r hr => hg.calls (h.returns r hr)⟩
  intro w hw
  rw [hg.program]
  exact (h.index w hw).imp id hg.loads

theorem Justified.union (hs : a.Justified s) (ht : a.Justified t) : a.Justified (s ∪ t) :=
  ⟨hs.inRange.union ht.inRange, RegState.forall_mem_union hs.plane ht.plane,
    RegState.forall_mem_union hs.index ht.index, RegState.forall_mem_union hs.returns ht.returns⟩

theorem justified_powerOn (a : Analyzer) : a.Justified .powerOn := by
  refine ⟨RegState.inRange_powerOn, ?_, ?_, ?_⟩
  · intro w hw
    rw [RegState.powerOn, RegState.get_set_self, WordSet.mem_single] at hw
    rw [hw]
    decide
  · intro w hw
    rw [RegState.get_powerOn (by simp) (by simp), WordSet.mem_single] at hw
    rw [hw]
    exact .inl (UInt16.zero_le)
  · intro r hr
    rw [RegState.powerOn, RegState.get_set_ne (by simp), RegState.get_set_self] at hr
    exact absurd hr (WordSet.not_mem_empty r)

end Justified

/-- Where a return address behind an instruction comes from: a `return` finds it at a call site, a
`call` makes it, and everything else passes it on. -/
theorem mem_returns_outNow {a : Analyzer} {here : Address} {s : RegState} {r : UInt16}
    (hr : r ∈ (a.outNow here s).get .returns) :
    (a.program.instr here = .ret ∧
      ∃ back ∈ s.get .returns, ∃ u, a.reaching[back - 2] = some u ∧ r ∈ u.get .returns) ∨
    (∃ target, a.program.instr here = .call target ∧ r = here + 2) ∨
    (a.program.instr here ≠ .ret ∧ r ∈ s.get .returns) := by
  by_cases hret : a.program.instr here = .ret
  · rw [outNow_of_ret hret, RegState.get_set_self, chaseNow, mem_chase] at hr
    exact .inl ⟨hret, hr⟩
  by_cases hcall : ∃ target, a.program.instr here = .call target
  · obtain ⟨target, hi⟩ := hcall
    simp only [outNow, after, hi, RegState.transfer, RegState.get_set_self,
      WordSet.mem_single] at hr
    exact .inr (.inl ⟨target, hi, hr⟩)
  · rw [outNow, after,
      RegState.get_returns_transfer _ _ _ _ _ hret (fun target hi => hcall ⟨target, hi⟩)] at hr
    exact .inr (.inr ⟨hret, hr⟩)

section Pop

variable {a : Analyzer} {here : Address} {s : RegState}
  (hall : ∀ (t : Address) (u : RegState), a.reaching[t] = some u → a.Justified u)
  (hs : a.reaching[here] = some s)

include hall hs

/-- A `return` takes its addresses from the states at call sites, which are justified as well. -/
theorem calls_of_mem_outNow {r : UInt16} (hr : r ∈ (a.outNow here s).get .returns) :
    a.Calls (r - 2) := by
  rcases mem_returns_outNow hr with ⟨-, back, _, u, hu, hmem⟩ | ⟨target, hi, rfl⟩ | ⟨-, hmem⟩
  · exact (hall _ u hu).returns r hmem
  · rw [UInt16.add_sub_cancel]
    exact ⟨⟨s, hs⟩, target, hi⟩
  · exact (hall here s hs).returns r hmem

theorem justified_outNow : a.Justified (a.outNow here s) := by
  have h := hall here s hs
  refine ⟨h.inRange.transfer _ _ _ _ _, ?_, ?_, fun r hr => calls_of_mem_outNow hall hs hr⟩
  · intro w hw
    obtain ⟨r, input, hr, hv⟩ := h.inRange.attained_transfer _ _ _ _ _ .plane w (by simp) hw
    replace hv := Option.some.inj hv
    have hcases := r.execute_plane a.dialect a.program.pointerLimit input (a.program.instr here)
    rcases hcases with hkept | hle
    · rw [hkept] at hv
      exact h.plane w (hv ▸ hr .plane _ rfl)
    · exact hv ▸ hle
  · intro w hw
    obtain ⟨r, input, hr, hv⟩ := h.inRange.attained_transfer _ _ _ _ _ .index w (by simp) hw
    replace hv := Option.some.inj hv
    have hcases := r.execute_index a.dialect a.program.pointerLimit input (a.program.instr here)
    rw [hv] at hcases
    rcases hcases with hkept | hle | hload
    · exact h.index w (hkept ▸ hr.index)
    · exact .inl hle
    · exact .inr ⟨here, s, hs, hload⟩

end Pop

theorem Reachable.justified {rom : Array UInt8} {d : Dialect} {a : Analyzer}
    (h : Reachable rom d a) :
    ∀ (t : Address) (s : RegState), a.reaching[t] = some s → a.Justified s := by
  apply h.induction_on
  · intro p _ t s hs
    rw [(reaching_start hs).2]
    exact justified_powerOn _
  · intro b here rest _ hall t u hu
    have hg := grows_pop b here rest
    rcases reaching_pop_cases hu with hold | ⟨s, hs, -, rfl⟩
    · exact (hall t u hold).mono hg
    · have hout := justified_outNow hall hs
      cases hold : b.reaching[t] with
      | none => exact hout.mono hg
      | some old => exact ((hall t old hold).union hout).mono hg

/-- What stands in a reached state, at any time: every set ascends; every register has a value,
which is a byte unless it is one of `i`, and has four bits if it is a mask of planes; `i` lies
beyond the limit of computed values only where a reached instruction loads it with a literal; and
execution returns only behind reached calls, whose states are therefore always there to be
chased. -/
theorem values_of_reached {rom : Array UInt8} {d : Dialect} {a : Analyzer}
    (h : Reachable rom d a) {t : Address} {s : RegState} (hs : a.reaching[t] = some s) :
    (∀ q, (s.get q).toList.Pairwise (· < ·)) ∧
      (∀ q, q ≠ .returns → ∃ w, w ∈ s.get q) ∧
      (∀ q, q ≠ .returns → q ≠ .index → ∀ w ∈ s.get q, w ≤ 0xFF) ∧
      (∀ w ∈ s.get .plane, w ≤ 15) ∧
      (∀ w ∈ s.get .index, w ≤ a.program.pointerLimit ∨ a.Loads w) ∧
      (∀ r ∈ s.get .returns, ∃ c, r = c + 2 ∧ a.Calls c) ∧
      (∀ r ∈ s.get .returns, ∃ u, a.reaching[r - 2] = some u) ∧
      (a.program.instr t = .ret → ∀ next ∈ a.nextAt t s, ∃ c, next = c + 2 ∧ a.Calls c) := by
  have hj := h.justified t s hs
  have hbehind (r : UInt16) (hr : r ∈ s.get .returns) : ∃ c, r = c + 2 ∧ a.Calls c :=
    ⟨r - 2, (UInt16.sub_add_cancel r 2).symm, hj.returns r hr⟩
  refine ⟨fun q => (s.get q).pairwise_toList, hj.inRange.nonempty, hj.inRange.byte, hj.plane,
    hj.index, hbehind, fun r hr => (hj.returns r hr).1, ?_⟩
  intro hi next hnext
  exact hbehind next ((mem_nextAt_of_ret hi).1 hnext)

theorem values_of_reached_in_single_call :
    Reachable singleCall.rom {} ((start singleCall {}).step 2) ∧
      ∃ s, ((start singleCall {}).step 2).reaching[(0x204 : Address)] = some s ∧
        0x202 ∈ s.get .returns ∧ (∃ w, w ∈ s.get .index) ∧
        ∃ c, (0x202 : Address) = c + 2 ∧ ((start singleCall {}).step 2).Calls c := by
  have hr := reachable_singleCall 2
  have hstate : ((start singleCall {}).step 2).reaching[(0x204 : Address)] =
      some (RegState.powerOn.set .returns (.single 0x202)) := by
    decide +kernel
  have hback : 0x202 ∈ (RegState.powerOn.set .returns (.single 0x202)).get .returns := by
    rw [RegState.get_set_self, WordSet.mem_single]
  obtain ⟨_, hnonempty, _, _, _, hcalls, _⟩ := values_of_reached hr hstate
  exact ⟨hr, _, hstate, hback, hnonempty .index (by simp), hcalls 0x202 hback⟩

end Analyzer
end OctoLift
