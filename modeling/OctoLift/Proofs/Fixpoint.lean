import OctoLift.Proofs.Closed

/-!
# Explorations that have come to rest

Once nothing waits, everything that flows is held where it flows to, with one exception. A `return`
reads the states at call sites elsewhere, and it is looked at again only when something flows into
it. When a call site grows without a growing state on the way from the subroutine to its `return`,
the `return` withholds the new return addresses. The exploration has reached a fixpoint, and can
be resumed anywhere without effect, exactly if no `return` withholds anything.
-/

namespace OctoLift.Analyzer

/-- All that flows out of a reached address now is held where it flows to. -/
def Fixpoint (a : Analyzer) : Prop :=
  ∀ (here : Address) (s : RegState), a.reaching[here] = some s →
    ∀ t ∈ a.nextAt here s, ∃ u, a.reaching[t] = some u ∧ a.outNow here s ⊆ u

/-- A `return` that would now give other addresses than at its last visit, among them one that is
missing in the state at an address it returns to. -/
def Withholds (a : Analyzer) (here : Address) : Prop :=
  a.isStale here = true ∧
    ∃ s t u, a.reaching[here] = some s ∧ t ∈ s.get .returns ∧ a.reaching[t] = some u ∧
      ¬ a.chaseNow (s.get .returns) ⊆ u.get .returns

def wake (a : Analyzer) (again : List Address) : Analyzer :=
  again.foldl enqueue a

/-- Whichever reached addresses are put back and however long they are explored again, no state,
class or reference changes. -/
def Stable (a : Analyzer) : Prop :=
  ∀ again : List Address, (∀ t ∈ again, ∃ s, a.reaching[t] = some s) → ∀ budget : Nat,
    ((a.wake again).step budget).reaching = a.reaching ∧
      ((a.wake again).step budget).classes = a.classes ∧
      ((a.wake again).step budget).references = a.references

section Returns

variable {a : Analyzer} {here : Address} {s : RegState}

theorem isStale_iff (hs : a.reaching[here] = some s) :
    a.isStale here = true ↔
      a.program.instr here = .ret ∧ a.chased[here] ≠ some (a.chaseNow (s.get .returns)) := by
  simp [isStale, hs]

theorem lastOut_of_ne_ret (hi : a.program.instr here ≠ .ret) :
    a.lastOut here s = a.outNow here s :=
  RegState.transfer_of_ne_ret hi _ _ _ _ _ s

/-- The last visit of a `return` and the next one differ in the return addresses at most. -/
theorem get_lastOut {r : Register} (hr : a.program.instr here = .ret → r ≠ .returns) :
    (a.lastOut here s).get r = (a.outNow here s).get r := by
  by_cases hi : a.program.instr here = .ret
  · have hne := Ne.symm (hr hi)
    rw [outNow_of_ret hi]
    simp only [lastOut, hi, RegState.transfer]
    rw [RegState.get_set_ne hne, RegState.get_set_ne hne]
  · rw [lastOut_of_ne_ret hi]

end Returns

section AtRest

variable {a : Analyzer}

theorem Worklist.visited_at_rest (h : Worklist a) (hd : a.isDone = true) {here : Address}
    {s : RegState} (hs : a.reaching[here] = some s) : a.Visited here s := by
  have hf : a.fringe = [] := by simpa [isDone] using hd
  exact h.visited here s hs (by simp [hf])

theorem Worklist.flow_apart_from_returns (h : Worklist a) (hd : a.isDone = true) {here : Address}
    {s : RegState} (hs : a.reaching[here] = some s) {t : Address} (ht : t ∈ a.nextAt here s) :
    ∃ u, a.reaching[t] = some u ∧
      ∀ r, (a.program.instr here = .ret → r ≠ .returns) → (a.outNow here s).get r ⊆ u.get r := by
  obtain ⟨u, hu, hsub⟩ := (h.visited_at_rest hd hs).flowed t ht
  refine ⟨u, hu, ?_⟩
  intro r hr
  rw [← get_lastOut hr]
  exact hsub r

theorem Worklist.fixpoint_iff (h : Worklist a) (hd : a.isDone = true) :
    a.Fixpoint ↔ ∀ here, ¬ a.Withholds here := by
  constructor
  · intro hfix here hw
    obtain ⟨hstale, s, t, u, hs, ht, hu, hnot⟩ := hw
    have hi := ((isStale_iff hs).1 hstale).1
    obtain ⟨w, hwt, hsub⟩ := hfix here s hs t ((mem_nextAt_of_ret hi).2 ht)
    rw [hu] at hwt
    cases hwt
    apply hnot
    have hret := hsub .returns
    rwa [outNow_of_ret hi, RegState.get_set_self] at hret
  · intro hnone here s hs t ht
    obtain ⟨u, hu, hother⟩ := h.flow_apart_from_returns hd hs ht
    refine ⟨u, hu, ?_⟩
    intro r
    by_cases hr : a.program.instr here = .ret → r ≠ .returns
    · exact hother r hr
    · -- what remains is the set of return addresses of a `return`
      obtain ⟨hi, hr⟩ := Classical.not_imp.1 hr
      replace hr := Classical.not_not.1 hr
      subst hr
      rw [outNow_of_ret hi, RegState.get_set_self]
      by_cases hstale : a.isStale here = true
      · apply Classical.byContradiction
        intro hnot
        exact hnone here ⟨hstale, s, t, u, hs, (mem_nextAt_of_ret hi).1 ht, hu, hnot⟩
      · have hc : a.chased[here] = some (a.chaseNow (s.get .returns)) := by
          apply Classical.byContradiction
          intro hne
          exact hstale ((isStale_iff hs).2 ⟨hi, hne⟩)
        obtain ⟨w, hw, hsub⟩ := (h.visited_at_rest hd hs).flowed t ht
        rw [hu] at hw
        cases hw
        have hret := hsub .returns
        rw [lastOut, hc, hi] at hret
        simpa [RegState.transfer] using hret

end AtRest

section Closed

variable {rom : Array UInt8} {d : Dialect} {a : Analyzer}

theorem Reachable.entry (h : Reachable rom d a) :
    ∃ s, a.reaching[entryPoint] = some s ∧ .powerOn ⊆ s := by
  apply h.induction_on
  · intro p _
    exact ⟨.powerOn, AddressMap.getElem_set_self _ _ _, refl _⟩
  · intro b here rest _ hb
    obtain ⟨s, hs, hsub⟩ := hb
    obtain ⟨u, hu, hsu⟩ := (grows_pop b here rest).reaching entryPoint s hs
    exact ⟨u, hu, Trans.trans hsub hsu⟩

/-- The states of an exploration are a closed map exactly at a fixpoint; they are the least one
then. -/
theorem Reachable.closed_iff (h : Reachable rom d a) :
    Closed a.program d (fun t => a.reaching[t]) ↔ a.Fixpoint := by
  have hd : a.dialect = d := h.loaded.2
  subst hd
  constructor
  · intro hclosed here s hs t ht
    exact hclosed.flow here s hs t ht
  · intro hfix
    exact ⟨h.entry, hfix⟩

end Closed

section Resumed

variable {a b : Analyzer}

/-- `b` has the knowledge of `a`, and only addresses reached in `a` wait. -/
structure Resumes (a b : Analyzer) : Prop where
  program : b.program = a.program
  dialect : b.dialect = a.dialect
  reaching : b.reaching = a.reaching
  classes : b.classes = a.classes
  references : b.references = a.references
  fringe : ∀ t ∈ b.fringe, ∃ s, a.reaching[t] = some s

theorem Resumes.nextAt_eq (h : Resumes a b) (here : Address) (s : RegState) :
    b.nextAt here s = a.nextAt here s := by
  rw [nextAt, h.program, nextAt]

theorem Resumes.outNow_eq (h : Resumes a b) (here : Address) (s : RegState) :
    b.outNow here s = a.outNow here s := by
  have hchase : b.chaseNow = a.chaseNow := by
    funext returns
    rw [chaseNow, h.reaching, chaseNow]
  rw [outNow, after, h.program, h.dialect, hchase, outNow, after]

theorem resumes_wake (a : Analyzer) (hf : a.fringe = []) {again : List Address}
    (hagain : ∀ t ∈ again, ∃ s, a.reaching[t] = some s) : Resumes a (a.wake again) := by
  have hrun : ∀ (l : List Address) (b : Analyzer), (∀ t ∈ l, ∃ s, a.reaching[t] = some s) →
      Resumes a b → Resumes a (l.foldl enqueue b) := by
    intro l
    induction l with
    | nil => exact fun _ _ hb => hb
    | cons t rest ih =>
      intro b hl hb
      apply ih _ (fun x hx => hl x (by simp [hx]))
      obtain ⟨f, q, e⟩ := enqueue_frame b t
      have hmem : ∀ x ∈ (b.enqueue t).fringe, ∃ s, a.reaching[x] = some s := by
        intro x hx
        rcases mem_fringe_enqueue hx with hx | rfl
        · exact hb.fringe x hx
        · exact hl x (by simp)
      rw [e] at hmem ⊢
      exact ⟨hb.program, hb.dialect, hb.reaching, hb.classes, hb.references, hmem⟩
  exact hrun again a hagain ⟨rfl, rfl, rfl, rfl, rfl, by simp [hf]⟩

theorem Resumes.pop (hfix : a.Fixpoint)
    (hvisited : ∀ (here : Address) (s : RegState), a.reaching[here] = some s → a.Visited here s)
    (h : Resumes a b) {here : Address} {rest : List Address} (hf : b.fringe = here :: rest) :
    Resumes a (b.pop here rest) := by
  obtain ⟨s, hs⟩ := h.fringe here (by simp [hf])
  have hsb : b.reaching[here] = some s := by rw [h.reaching, hs]
  have hv := hvisited here s hs
  refine ⟨(program_pop b here rest).trans h.program, (dialect_pop b here rest).trans h.dialect,
    ?_, ?_, ?_, ?_⟩
  · apply AddressMap.ext
    intro t
    rw [reaching_pop hsb, h.nextAt_eq, h.outNow_eq, h.reaching]
    by_cases ht : t ∈ a.nextAt here s
    · obtain ⟨u, hu, hsub⟩ := hfix here s hs t ht
      rw [if_pos ht, hu, absorb_of_subset hsub]
    · rw [if_neg ht]
  · rw [classes_pop hsb, h.classes, h.program, ClassMap.markRange_eq_self hv.code,
      markData_eq_self hv.data]
  · rw [references_pop hsb, h.references, h.program, References.record_eq_self hv.references]
  · intro t ht
    rcases mem_fringe_pop hsb ht with ht | ht
    · exact h.fringe t (by simp [hf, ht])
    · rw [h.nextAt_eq] at ht
      obtain ⟨u, hu, _⟩ := hfix here s hs t ht
      exact ⟨u, hu⟩

theorem Worklist.stable_iff (h : Worklist a) (hd : a.isDone = true) :
    a.Stable ↔ a.Fixpoint := by
  have hf : a.fringe = [] := by simpa [isDone] using hd
  constructor
  · intro hstable here s hs t ht
    -- one visit of `here` alone shows what flows out of it
    have hone := (hstable [here] (by simp [hs]) 1).1
    have hq : ¬ a.queued[here] = true := by
      rw [h.queued_iff, hf]
      simp
    have hwake : a.wake [here] =
        { a with fringe := [here], queued := a.queued.set here true } := by
      simp [wake, enqueue, hq, hf]
    rw [hwake] at hone
    simp only [step] at hone
    have hpop := reaching_pop
      (a := { a with fringe := [here], queued := a.queued.set here true }) hs [] t
    rw [hone] at hpop
    replace ht : t ∈ nextAt
        { a with fringe := [here], queued := a.queued.set here true } here s := ht
    rw [if_pos ht] at hpop
    exact ⟨_, hpop, subset_absorb _ _⟩
  · intro hfix again hagain budget
    have hrun : Resumes a ((a.wake again).step budget) := by
      apply step_induction _ budget (resumes_wake a hf hagain)
      intro b here rest hfb hb
      exact hb.pop hfix (fun _ _ hs => h.visited_at_rest hd hs) hfb
    exact ⟨hrun.reaching, hrun.classes, hrun.references⟩

end Resumed

/-- At rest everything but the addresses a `return` gives is closed under execution; the
exploration is a fixpoint exactly if no `return` withholds an address, and exactly then resuming
it anywhere is without effect. -/
theorem fixpoint_iff_no_return_withholds {rom : Array UInt8} {d : Dialect} {a : Analyzer}
    (h : Reachable rom d a) (hd : a.isDone = true) :
    (∀ (here : Address) (s : RegState), a.reaching[here] = some s → ∀ t ∈ a.nextAt here s,
      ∃ u, a.reaching[t] = some u ∧
        ∀ r, (a.program.instr here = .ret → r ≠ .returns) → (a.outNow here s).get r ⊆ u.get r) ∧
      (a.Fixpoint ↔ ∀ here, ¬ a.Withholds here) ∧ (a.Stable ↔ a.Fixpoint) := by
  have hw := h.worklist
  exact ⟨fun _ _ hs _ ht => hw.flow_apart_from_returns hd hs ht, hw.fixpoint_iff hd,
    hw.stable_iff hd⟩

section NestedCalls

/-- The subroutine at `0x206` is called twice and calls the one at `0x20A`, which does something
before it returns. -/
def nestedCalls : Program where
  rom := #[0x22, 0x06, 0x22, 0x06, 0x00, 0xFD, 0x22, 0x0A, 0x00, 0xEE, 0x00, 0xE0, 0x00, 0xEE]
  fits := by decide

def nestedCallsAtRest : Analyzer :=
  (start nestedCalls {}).step 7

def returnsAt (a : Analyzer) (t : Address) : Option WordSet :=
  a.reaching[t].map (·.get .returns)

private theorem reachable_nestedCallsAtRest : Reachable nestedCalls.rom {} nestedCallsAtRest :=
  .step 7 (.start rfl)

private theorem returnsAt_nestedCallsAtRest :
    nestedCallsAtRest.isDone = true ∧
      nestedCallsAtRest.program.instr 0x20C = .ret ∧
      nestedCallsAtRest.returnsAt 0x20C = some (.single 0x208) ∧
      nestedCallsAtRest.returnsAt 0x208 = some (.single 0x202) ∧
      nestedCallsAtRest.returnsAt 0x206 = some (.ofList [0x202, 0x204]) := by
  decide +kernel

/-- The inner `return` leads to `0x208`, and now that the call at `0x206` has been reached from
both places, from there to `0x204`. The state at `0x208` knows of `0x202` only. -/
private theorem not_fixpoint_nestedCallsAtRest : ¬ nestedCallsAtRest.Fixpoint := by
  intro hfix
  obtain ⟨_, hi, hinner, houter, hcall⟩ := returnsAt_nestedCallsAtRest
  obtain ⟨s, hs, hsr⟩ := Option.map_eq_some_iff.1 hinner
  obtain ⟨u, hu, hur⟩ := Option.map_eq_some_iff.1 houter
  obtain ⟨c, hc, hcr⟩ := Option.map_eq_some_iff.1 hcall
  have hback : 0x208 ∈ s.get .returns := by
    rw [hsr, WordSet.mem_single]
  obtain ⟨w, hw, hsub⟩ := hfix 0x20C s hs 0x208 ((mem_nextAt_of_ret hi).2 hback)
  rw [hu] at hw
  cases hw
  have hchase : 0x204 ∈ nestedCallsAtRest.chaseNow (s.get .returns) := by
    refine mem_chase.2 ⟨0x208, hback, c, hc, ?_⟩
    rw [hcr]
    simp
  have hret := hsub .returns
  rw [outNow_of_ret hi, RegState.get_set_self, hur] at hret
  have habsurd := WordSet.mem_single.1 (hret hchase)
  revert habsurd
  decide

theorem no_fixpoint_of_nested_calls :
    Reachable nestedCalls.rom {} nestedCallsAtRest ∧ nestedCallsAtRest.isDone = true ∧
      ¬ nestedCallsAtRest.Fixpoint :=
  ⟨reachable_nestedCallsAtRest, returnsAt_nestedCallsAtRest.1, not_fixpoint_nestedCallsAtRest⟩

theorem return_withholds_in_nested_calls :
    Reachable nestedCalls.rom {} nestedCallsAtRest ∧ nestedCallsAtRest.isDone = true ∧
      (∃ here, nestedCallsAtRest.Withholds here) ∧ ¬ nestedCallsAtRest.Stable := by
  have hr := reachable_nestedCallsAtRest
  have hd := returnsAt_nestedCallsAtRest.1
  obtain ⟨_, hfix, hstable⟩ := fixpoint_iff_no_return_withholds hr hd
  have hnot := not_fixpoint_nestedCallsAtRest
  refine ⟨hr, hd, ?_, ?_⟩
  · apply Classical.byContradiction
    intro hnone
    exact hnot (hfix.2 (not_exists.1 hnone))
  · exact fun hs => hnot (hstable.1 hs)

end NestedCalls

end OctoLift.Analyzer
