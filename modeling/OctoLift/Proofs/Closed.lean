import OctoLift.Proofs.Worklist

/-!
# Closed maps of states

A map of states is closed when it holds the power-on state at the entry point and whatever flows
out of one of its addresses is held where it flows to. Explorations stay inside every closed map,
so they invent neither addresses nor values.
-/

namespace OctoLift

/-- A partial map of states that execution does not leave. -/
structure Closed (p : Program) (d : Dialect) (S : Address → Option RegState) : Prop where
  entry : ∃ s, S entryPoint = some s ∧ .powerOn ⊆ s
  flow : ∀ a s, S a = some s → ∀ t ∈ p.successors a (p.instr a) s,
    ∃ u, S t = some u ∧ s.transfer d p.pointerLimit a (Analyzer.chase S) (p.instr a) ⊆ u

namespace Analyzer

/-- All that an exploration knows lies in `S`. -/
structure Inside (S : Address → Option RegState) (a : Analyzer) : Prop where
  reaching : Below (fun t => a.reaching[t]) S
  chased : ∀ (here : Address) (c : WordSet), a.chased[here] = some c →
    a.program.instr here = .ret ∧ ∃ u, S here = some u ∧ c ⊆ chase S (u.get .returns)

section Inside

variable {p : Program} {d : Dialect} {S : Address → Option RegState} {a : Analyzer}

theorem inside_start (hS : Closed p d S) : Inside S (start p d) := by
  constructor
  · intro t s hs
    obtain ⟨rfl, rfl⟩ := reaching_start hs
    exact hS.entry
  · intro here c hc
    simp [start] at hc

theorem Inside.chaseNow_subset (h : Inside S a) {s u : RegState} (hsu : s ⊆ u) :
    a.chaseNow (s.get .returns) ⊆ chase S (u.get .returns) :=
  chase_mono h.reaching (hsu .returns)

/-- A state below that of the closed map gives a state below what flows in the map. -/
theorem Inside.outNow_subset (h : Inside S a) (hd : a.dialect = d) (here : Address)
    {s u : RegState} (hsu : s ⊆ u) :
    a.outNow here s ⊆
      u.transfer d a.program.pointerLimit here (chase S) (a.program.instr here) := by
  rw [outNow, after, hd]
  exact RegState.transfer_mono d _ here _ hsu (h.chaseNow_subset hsu)

theorem Inside.pop (h : Inside S a) (hS : Closed a.program d S) (hd : a.dialect = d)
    (here : Address) (rest : List Address) : Inside S (a.pop here rest) := by
  cases hs : a.reaching[here] with
  | none =>
    rw [pop_of_not_reached hs]
    exact ⟨h.reaching, h.chased⟩
  | some s =>
    obtain ⟨u, hu, hsu⟩ := h.reaching here s hs
    constructor
    · intro t w hw
      replace hw : (a.pop here rest).reaching[t] = some w := hw
      rw [reaching_pop hs] at hw
      by_cases ht : t ∈ a.nextAt here s
      · rw [if_pos ht] at hw
        cases hw
        have hnext := a.program.successors_mono here _ hsu ht
        obtain ⟨v, hv, hout⟩ := hS.flow here u hu t hnext
        refine ⟨v, hv, absorb_subset ?_ ?_⟩
        · exact Trans.trans (h.outNow_subset hd here hsu) hout
        · intro old hold
          obtain ⟨v', hv', hsub⟩ := h.reaching t old hold
          rw [hv] at hv'
          cases hv'
          exact hsub
      · rw [if_neg ht] at hw
        exact h.reaching t w hw
    · intro b c hc
      rw [program_pop]
      by_cases hbh : b = here
      · subst hbh
        rw [chased_pop hs] at hc
        by_cases hi : a.program.instr b = .ret
        · rw [if_pos hi, AddressMap.getElem_set_self] at hc
          cases hc
          refine ⟨hi, u, hu, ?_⟩
          have hout := h.outNow_subset hd b hsu .returns
          simp only [hi, RegState.transfer, RegState.get_set_self] at hout
          exact hout
        · rw [if_neg hi] at hc
          exact h.chased b c hc
      · rw [chased_pop_ne hs rest hbh] at hc
        exact h.chased b c hc

theorem Reachable.inside {rom : Array UInt8} (h : Reachable rom d a)
    (hS : Closed a.program d S) : Inside S a := by
  have hload := h.loaded.1
  generalize a.program = p at hload hS
  have hrun : a.program = p ∧ a.dialect = d ∧ Inside S a := by
    apply h.induction_on
    · intro q hq
      rw [hload] at hq
      cases hq
      exact ⟨rfl, rfl, inside_start hS⟩
    · intro b here rest _ hb
      obtain ⟨rfl, hd, hin⟩ := hb
      exact ⟨program_pop b here rest, (dialect_pop b here rest).trans hd, hin.pop hS hd here rest⟩
  exact hrun.2.2

end Inside

/-- Nothing is invented: whatever the budgets, each reached address belongs to every closed map
and its state lies below the one there, register by register; and each `return` has given no
address that it does not give in the closed map. -/
theorem reaching_subset_of_closed {rom : Array UInt8} {d : Dialect} {a : Analyzer}
    (h : Reachable rom d a) {S : Address → Option RegState} (hS : Closed a.program d S) :
    (∀ (here : Address) (s : RegState), a.reaching[here] = some s →
      ∃ u, S here = some u ∧ ∀ r, s.get r ⊆ u.get r) ∧
    ∀ (here : Address) (c : WordSet), a.chased[here] = some c →
      a.program.instr here = .ret ∧ ∃ u, S here = some u ∧ c ⊆ chase S (u.get .returns) := by
  have hin := h.inside hS
  exact ⟨hin.reaching, hin.chased⟩

/-- The states of `singleCall`: inside the subroutine there is one address to return to. -/
def singleCallStates (t : Address) : Option RegState :=
  if t = 0x204 then some (RegState.powerOn.set .returns (.single 0x202))
  else if t = 0x200 ∨ t = 0x202 then some .powerOn
  else none

theorem closed_singleCall : Closed singleCall {} singleCallStates := by
  constructor
  · exact ⟨.powerOn, rfl, refl _⟩
  · intro here s hs t ht
    unfold singleCallStates at hs
    by_cases hsub : here = 0x204
    · subst hsub
      rw [if_pos rfl, Option.some.injEq] at hs
      subst hs
      have hi : singleCall.instr 0x204 = .ret := by decide
      rw [hi, Program.mem_successors_ret, RegState.get_set_self, WordSet.mem_single] at ht
      subst ht
      refine ⟨.powerOn, rfl, ?_⟩
      decide +kernel
    · rw [if_neg hsub] at hs
      by_cases hmain : here = 0x200 ∨ here = 0x202
      · rw [if_pos hmain, Option.some.injEq] at hs
        subst hs
        rcases hmain with rfl | rfl
        · have hi : singleCall.instr 0x200 = .call 0x204 := by decide
          rw [hi] at ht
          obtain rfl : t = 0x204 := List.mem_singleton.1 ht
          exact ⟨_, rfl, by decide +kernel⟩
        · have hi : singleCall.instr 0x202 = .exit := by decide
          rw [hi] at ht
          exact absurd ht List.not_mem_nil
      · rw [if_neg hmain] at hs
        cases hs

theorem reaching_subset_in_single_call :
    Reachable singleCall.rom {} ((start singleCall {}).step 3) ∧
      Closed ((start singleCall {}).step 3).program {} singleCallStates ∧
      ∃ c s, ((start singleCall {}).step 3).chased[(0x204 : Address)] = some c ∧
        ((start singleCall {}).step 3).reaching[(0x202 : Address)] = some s ∧
        c ⊆ chase singleCallStates (.single 0x202) ∧ ∀ r, s.get r ⊆ RegState.powerOn.get r := by
  have hr := reachable_singleCall 3
  have hp : ((start singleCall {}).step 3).program = singleCall :=
    (Except.ok.inj (hr.loaded.1.symm.trans (rfl : Program.load singleCall.rom = .ok singleCall)))
  have hS : Closed ((start singleCall {}).step 3).program {} singleCallStates := by
    rw [hp]
    exact closed_singleCall
  have hknown :
      (((start singleCall {}).step 3).chased[(0x204 : Address)]).isSome = true ∧
        (((start singleCall {}).step 3).reaching[(0x202 : Address)]).isSome = true := by
    decide +kernel
  obtain ⟨c, hc⟩ := Option.isSome_iff_exists.1 hknown.1
  obtain ⟨s, hs⟩ := Option.isSome_iff_exists.1 hknown.2
  obtain ⟨hreaching, hchased⟩ := reaching_subset_of_closed hr hS
  refine ⟨hr, hS, c, s, hc, hs, ?_, ?_⟩
  · obtain ⟨_, u, hu, hsub⟩ := hchased 0x204 c hc
    have he : u = RegState.powerOn.set .returns (.single 0x202) := (Option.some.inj hu).symm
    rwa [he, RegState.get_set_self] at hsub
  · obtain ⟨u, hu, hsub⟩ := hreaching 0x202 s hs
    have he : u = RegState.powerOn := (Option.some.inj hu).symm
    rwa [he] at hsub

end Analyzer
end OctoLift
