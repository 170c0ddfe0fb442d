import OctoLift.Proofs.Paths
import OctoLift.Proofs.Values

/-!
# Where a return leads

A `return` goes on behind the calls whose subroutines may have led to it, and nowhere else. Its own
return addresses it finds at call sites elsewhere, which may be reached in other ways. So the
path that accounts for such an address is put together from two: the one that led to the inner call,
and the one that led from its subroutine to the `return`.
-/

namespace OctoLift.Analyzer

/-- The return address `r` lies behind a call whose subroutine leads to `t`, by the states of
`a`. -/
def ReturnsFrom (a : Analyzer) (r t : Address) : Prop :=
  ∃ f, a.program.instr (r - 2) = .call f ∧ Relation.ReflTransGen a.Leads f t

section Edges

variable {a b : Analyzer} {r t x y : Address}

theorem Grows.returnsFrom (hg : a.Grows b) (h : a.ReturnsFrom r t) : b.ReturnsFrom r t := by
  obtain ⟨f, hf, hpath⟩ := h
  rw [← hg.program] at hf
  exact ⟨f, hf, Relation.ReflTransGen.mono (fun _ _ hxy => hg.leads hxy) _ _ hpath⟩

theorem ReturnsFrom.tail (h : a.ReturnsFrom r x) (hxy : a.Leads x y) : a.ReturnsFrom r y := by
  obtain ⟨f, hf, hpath⟩ := h
  exact ⟨f, hf, hpath.tail hxy⟩

theorem ReturnsFrom.trans_call {back : Address} {u : RegState} (h : a.ReturnsFrom r (back - 2))
    (hu : a.reaching[back - 2] = some u) (hback : a.ReturnsFrom back t) : a.ReturnsFrom r t := by
  obtain ⟨f, hf, hpath⟩ := h
  obtain ⟨g, hg, hinner⟩ := hback
  have hcall : a.Leads (back - 2) g := by
    refine ⟨u, hu, ?_⟩
    rw [nextAt, hg]
    exact List.mem_singleton.2 rfl
  exact ⟨f, hf, (hpath.tail hcall).trans hinner⟩

end Edges

section Visits

variable {a : Analyzer}

/-- One visit: the return addresses behind an instruction are accounted for wherever it leads, if
those in all reached states are. -/
theorem returnsFrom_of_mem_outNow
    (hall : ∀ (t : Address) (u : RegState), a.reaching[t] = some u →
      ∀ r ∈ u.get .returns, a.ReturnsFrom r t)
    {here t : Address} {s : RegState} (hs : a.reaching[here] = some s) (ht : t ∈ a.nextAt here s)
    {r : Address} (hr : r ∈ (a.outNow here s).get .returns) : a.ReturnsFrom r t := by
  have hedge : a.Leads here t := ⟨s, hs, ht⟩
  rcases mem_returns_outNow hr with ⟨-, back, hback, u, hu, hmem⟩ | ⟨f, hi, rfl⟩ | ⟨-, hmem⟩
  · have hinner : a.ReturnsFrom back t := (hall here s hs back hback).tail hedge
    exact (hall _ u hu r hmem).trans_call hu hinner
  · -- the call itself leads to its subroutine, from where the path is still empty
    rw [nextAt, hi] at ht
    have htf : t = f := List.mem_singleton.1 ht
    refine ⟨f, ?_, htf ▸ .refl⟩
    rw [UInt16.add_sub_cancel, hi]
  · exact (hall here s hs r hmem).tail hedge

theorem Reachable.returnsFrom {rom : Array UInt8} {d : Dialect} (h : Reachable rom d a) :
    ∀ (t : Address) (s : RegState), a.reaching[t] = some s →
      ∀ r ∈ s.get .returns, a.ReturnsFrom r t := by
  apply h.induction_on
  · intro p _ t s hs r hr
    rw [(reaching_start hs).2, RegState.powerOn, RegState.get_set_ne (by simp),
      RegState.get_set_self] at hr
    exact absurd hr (WordSet.not_mem_empty r)
  · intro b here rest _ hall t u hu
    have hg := grows_pop b here rest
    rcases reaching_pop_cases hu with hold | ⟨s, hs, ht, rfl⟩
    · exact fun r hr => hg.returnsFrom (hall t u hold r hr)
    · have hout (r : UInt16) (hr : r ∈ (b.outNow here s).get .returns) : b.ReturnsFrom r t :=
        returnsFrom_of_mem_outNow hall hs ht hr
      cases hold : b.reaching[t] with
      | none => exact fun r hr => hg.returnsFrom (hout r hr)
      | some old =>
        have hboth := RegState.forall_mem_union (hall t old hold) hout
        exact fun r hr => hg.returnsFrom (hboth r hr)

end Visits

/-- No return address is spurious, at any time. Each one in a reached state lies behind a call
whose subroutine leads to the reached address; in particular each address to which a `return` goes
on lies behind a call whose subroutine leads to this `return`. -/
theorem returns_of_reached {rom : Array UInt8} {d : Dialect} {a : Analyzer}
    (h : Reachable rom d a) {t : Address} {s : RegState} (hs : a.reaching[t] = some s) :
    (∀ r ∈ s.get .returns, ∃ f, a.program.instr (r - 2) = .call f ∧
      Relation.ReflTransGen a.Leads f t) ∧
    (a.program.instr t = .ret → ∀ r ∈ a.nextAt t s, ∃ f, a.program.instr (r - 2) = .call f ∧
      Relation.ReflTransGen a.Leads f t) := by
  have hall := h.returnsFrom t s hs
  exact ⟨hall, fun hi r hr => hall r ((mem_nextAt_of_ret hi).1 hr)⟩

/-- The `return` at `0x208` of `nestedCalls` goes back behind the call at `0x200`; the way there
leads through the subroutine at `0x20A` and its `return`. -/
theorem returns_of_reached_in_nested_calls :
    Reachable nestedCalls.rom {} nestedCallsAtRest ∧
      ∃ s, nestedCallsAtRest.reaching[(0x208 : Address)] = some s ∧ 0x202 ∈ s.get .returns ∧
        ∃ f, nestedCallsAtRest.program.instr (0x202 - 2) = .call f ∧
          Relation.ReflTransGen nestedCallsAtRest.Leads f 0x208 := by
  have hr : Reachable nestedCalls.rom {} nestedCallsAtRest := .step 7 (.start rfl)
  have hat : nestedCallsAtRest.returnsAt 0x208 = some (.single 0x202) := by
    decide +kernel
  obtain ⟨s, hs, hret⟩ := Option.map_eq_some_iff.1 hat
  have hback : 0x202 ∈ s.get .returns := by
    rw [hret, WordSet.mem_single]
  obtain ⟨hcalls, -⟩ := returns_of_reached hr hs
  exact ⟨hr, s, hs, hback, hcalls 0x202 hback⟩

end OctoLift.Analyzer
