import OctoLift.Proofs.Exactness
import OctoLift.Proofs.Potential

/-!
# Knowledge only grows

However long an exploration goes on, it takes nothing back: classes only rise, states only gain
values and references stay on record. The addresses that a `return` has given are another matter.
Each visit writes them anew, from the states at call sites, and that nothing is lost then is due to
these states: at no time has a `return` given more than it would give at that time.
-/

namespace OctoLift.Analyzer

section Chased

variable {a : Analyzer}

theorem Behind.chased_pop (h : a.Behind) (here : Address) (rest : List Address) (t : Address)
    {c : WordSet} (hc : a.chased[t] = some c) :
    ∃ c', (a.pop here rest).chased[t] = some c' ∧ c ⊆ c' := by
  cases hs : a.reaching[here] with
  | none =>
    rw [pop_of_not_reached hs]
    exact ⟨c, hc, refl c⟩
  | some s =>
    by_cases ht : t = here
    · subst ht
      obtain ⟨hi, u, hu, hsub⟩ := h t c hc
      rw [hs, Option.some.injEq] at hu
      subst hu
      rw [Analyzer.chased_pop hs, if_pos hi, AddressMap.getElem_set_self, outNow_of_ret hi,
        RegState.get_set_self]
      exact ⟨_, rfl, hsub⟩
    · rw [chased_pop_ne hs rest ht]
      exact ⟨c, hc, refl c⟩

theorem Reachable.chased_step {rom : Array UInt8} {d : Dialect} (h : Reachable rom d a) (n : Nat)
    {t : Address} {c : WordSet} (hc : a.chased[t] = some c) :
    ∃ c', (a.step n).chased[t] = some c' ∧ c ⊆ c' := by
  have hrun : Reachable rom d (a.step n) ∧ ∃ c', (a.step n).chased[t] = some c' ∧ c ⊆ c' := by
    apply step_induction (P := fun b => Reachable rom d b ∧ ∃ c', b.chased[t] = some c' ∧ c ⊆ c')
    · intro b here rest hf hb
      obtain ⟨hr, c', hc', hsub⟩ := hb
      obtain ⟨c'', hc'', hsub'⟩ := hr.paid.behind.chased_pop here rest t hc'
      exact ⟨hr.pop hf, c'', hc'', Trans.trans hsub hsub'⟩
    · exact ⟨h, c, hc, refl c⟩
  exact hrun.2

end Chased

/-- Nothing is taken back, however many visits follow: the class of each byte joins the old one,
reached addresses stay reached in states that hold the old ones register by register, all
references stay on record, and each `return` is on record with at least the addresses that it was
on record with. -/
theorem knowledge_kept {rom : Array UInt8} {d : Dialect} {a : Analyzer} (h : Reachable rom d a)
    (n : Nat) :
    (∀ b : Address, (a.classes[b]).join ((a.step n).classes[b]) = (a.step n).classes[b]) ∧
      (∀ (t : Address) (s : RegState), a.reaching[t] = some s →
        ∃ u, (a.step n).reaching[t] = some u ∧ ∀ r, s.get r ⊆ u.get r) ∧
      (∀ target source : Address,
        (a.references.labels.has target source = true →
          (a.step n).references.labels.has target source = true) ∧
        (a.references.subroutines.has target source = true →
          (a.step n).references.subroutines.has target source = true) ∧
        (a.references.natives.has target source = true →
          (a.step n).references.natives.has target source = true)) ∧
      ∀ (t : Address) (c : WordSet), a.chased[t] = some c →
        ∃ c', (a.step n).chased[t] = some c' ∧ c ⊆ c' := by
  have hg := grows_step n a
  refine ⟨?_, hg.reaching, hg.references, fun t c hc => h.chased_step n hc⟩
  intro b
  rw [ClassMap.getElem_eq_classAt, ClassMap.getElem_eq_classAt]
  exact hg.classes b.toNat

/-- The subroutine at `0x206` is called twice. The one at `0x20A` is called there only, but returns
on behalf of both. -/
def sharedReturn : Program where
  rom := #[0x22, 0x06, 0x22, 0x06, 0x00, 0xFD, 0x22, 0x0A, 0x00, 0xEE, 0x00, 0xEE]
  fits := by decide

/-- The `return` at `0x20A` is visited twice; the second visit replaces what the first has put on
record by more. -/
theorem knowledge_kept_in_shared_return :
    Reachable sharedReturn.rom {} ((start sharedReturn {}).step 3) ∧
      ((start sharedReturn {}).step 3).chased[(0x20A : Address)] = some (.single 0x202) ∧
      ((start sharedReturn {}).step 7).chased[(0x20A : Address)] =
        some (.ofList [0x202, 0x204]) ∧
      ∃ c, (((start sharedReturn {}).step 3).step 4).chased[(0x20A : Address)] = some c ∧
        .single 0x202 ⊆ c := by
  have hr : Reachable sharedReturn.rom {} ((start sharedReturn {}).step 3) := .step 3 (.start rfl)
  have hfirst : ((start sharedReturn {}).step 3).chased[(0x20A : Address)] =
      some (.single 0x202) := by
    decide +kernel
  have hsecond : ((start sharedReturn {}).step 7).chased[(0x20A : Address)] =
      some (.ofList [0x202, 0x204]) := by
    decide +kernel
  obtain ⟨-, -, -, hchased⟩ := knowledge_kept hr 4
  exact ⟨hr, hfirst, hsecond, hchased 0x20A _ hfirst⟩

end OctoLift.Analyzer
