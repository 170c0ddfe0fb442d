import OctoLift.Proofs.Visit

/-!
# Explorations at rest between visits

An exploration can be suspended after any number of visits. At every such point each reached
address either waits or has been visited in the very state it has now, so that nothing is lost
when the exploration is taken up again.
-/

namespace OctoLift

theorem RegState.transfer_of_ne_ret {i : Instr} (hi : i ≠ .ret) (d : Dialect)
    (limit here : Address) (chase chase' : WordSet → WordSet) (s : RegState) :
    s.transfer d limit here chase i = s.transfer d limit here chase' i := by
  cases i with
  | ret => exact absurd rfl hi
  | _ => rfl

namespace Analyzer

/-- The explorations of a ROM that any sequence of budgets leads to. -/
inductive Reachable (rom : Array UInt8) (d : Dialect) : Analyzer → Prop
  | start {a : Analyzer} (h : ofRom rom d = .ok a) : Reachable rom d a
  | step {a : Analyzer} (budget : Nat) (h : Reachable rom d a) : Reachable rom d (a.step budget)

section Runs

variable {rom : Array UInt8} {d : Dialect} {P : Analyzer → Prop}

theorem step_induction (hpop : ∀ a here rest, a.fringe = here :: rest → P a → P (a.pop here rest))
    (budget : Nat) {a : Analyzer} (h : P a) : P (a.step budget) := by
  induction budget generalizing a with
  | zero => exact h
  | succ n ih =>
    rw [step]
    cases hf : a.fringe with
    | nil => exact h
    | cons here rest => exact ih (hpop a here rest hf h)

/-- What holds of a fresh exploration and survives every visit holds of all explorations. -/
theorem Reachable.induction_on {a : Analyzer} (h : Reachable rom d a)
    (hstart : ∀ p, Program.load rom = .ok p → P (Analyzer.start p d))
    (hpop : ∀ a here rest, a.fringe = here :: rest → P a → P (a.pop here rest)) : P a := by
  induction h with
  | start h =>
    unfold ofRom at h
    cases hp : Program.load rom with
    | error e =>
      rw [hp] at h
      cases h
    | ok p =>
      rw [hp] at h
      cases h
      exact hstart p hp
  | step budget _ ih => exact step_induction hpop budget ih

theorem Reachable.pop {a : Analyzer} (h : Reachable rom d a) {here : Address}
    {rest : List Address} (hf : a.fringe = here :: rest) : Reachable rom d (a.pop here rest) := by
  have hstep : a.step 1 = a.pop here rest := by
    simp only [Analyzer.step, hf]
  rw [← hstep]
  exact h.step 1

theorem Reachable.loaded {a : Analyzer}
    (h : Reachable rom d a) : Program.load rom = .ok a.program ∧ a.dialect = d := by
  apply h.induction_on
  · intro p hp
    exact ⟨hp, rfl⟩
  · intro b here rest _ hb
    rw [program_pop, dialect_pop]
    exact hb

end Runs

theorem Reachable.program_eq {p : Program} {d : Dialect} {a : Analyzer} (h : Reachable p.rom d a) :
    a.program = p := by
  have hload : Program.load p.rom = .ok p := dif_pos p.fits
  exact Except.ok.inj (h.loaded.1.symm.trans hload)

/-- `b` knows at least what `a` knows of the same program. -/
structure Grows (a b : Analyzer) : Prop where
  program : b.program = a.program
  dialect : b.dialect = a.dialect
  reaching : Below (fun t => a.reaching[t]) (fun t => b.reaching[t])
  classes : ClassMap.Le a.classes b.classes
  references : References.Le a.references b.references

theorem Grows.refl (a : Analyzer) : a.Grows a :=
  ⟨rfl, rfl, Below.refl _, ClassMap.Le.refl _, References.Le.refl _⟩

theorem Grows.trans {a b c : Analyzer} (h : a.Grows b) (h' : b.Grows c) : a.Grows c :=
  ⟨h'.program.trans h.program, h'.dialect.trans h.dialect, h.reaching.trans h'.reaching,
    h.classes.trans h'.classes, h.references.trans h'.references⟩

theorem grows_pop (a : Analyzer) (here : Address) (rest : List Address) :
    a.Grows (a.pop here rest) := by
  cases hs : a.reaching[here] with
  | none =>
    rw [pop_of_not_reached hs]
    exact ⟨rfl, rfl, Below.refl _, ClassMap.Le.refl _, References.Le.refl _⟩
  | some s =>
    refine ⟨program_pop a here rest, dialect_pop a here rest, ?_, ?_, ?_⟩
    · intro t u hu
      replace hu : a.reaching[t] = some u := hu
      show ∃ w, (a.pop here rest).reaching[t] = some w ∧ u ⊆ w
      rw [reaching_pop hs]
      by_cases ht : t ∈ a.nextAt here s
      · rw [if_pos ht, hu]
        exact ⟨_, rfl, le_sup_left (a := u)⟩
      · rw [if_neg ht]
        exact ⟨u, hu, refl u⟩
    · rw [classes_pop hs]
      exact (ClassMap.le_markRange _ _ _ _).trans (le_markData _ _ _)
    · rw [references_pop hs]
      exact References.le_record _ _ _

theorem grows_step (n : Nat) (a : Analyzer) : a.Grows (a.step n) := by
  apply step_induction (P := fun b => a.Grows b)
  · intro b here rest _ hb
    exact hb.trans (grows_pop b here rest)
  · exact Grows.refl a

/-- The state that the last visit of `here` gave, if the state there was `s`: a `return` gave the
addresses on record. -/
def lastOut (a : Analyzer) (here : Address) (s : RegState) : RegState :=
  s.transfer a.dialect a.program.pointerLimit here (fun _ => a.chased[here].getD ∅)
    (a.program.instr here)

/-- `here` has been visited in the state `s`, and all that the visit gave is still there. -/
structure Visited (a : Analyzer) (here : Address) (s : RegState) : Prop where
  code : ClassMap.Covered a.classes here.toNat (a.program.instr here).size .code
  data : ∀ base ∈ s.get .index,
    ClassMap.Covered a.classes base.toNat (s.dataLength (a.program.instr here)) .data
  references : a.references.Recorded here (a.program.instr here)
  chased : a.program.instr here = .ret → ∃ returns, a.chased[here] = some returns
  flowed : ∀ t ∈ a.nextAt here s, ∃ u, a.reaching[t] = some u ∧ a.lastOut here s ⊆ u

theorem Visited.mono {a b : Analyzer} {here : Address} {s : RegState} (h : a.Visited here s)
    (hg : a.Grows b) (hc : b.chased[here] = a.chased[here]) : b.Visited here s := by
  have hout : b.lastOut here s = a.lastOut here s := by
    rw [lastOut, lastOut, hg.program, hg.dialect, hc]
  constructor
  · rw [hg.program]
    exact h.code.mono hg.classes
  · rw [hg.program]
    intro base hb
    exact (h.data base hb).mono hg.classes
  · rw [hg.program]
    exact h.references.mono hg.references
  · rw [hg.program, hc]
    exact h.chased
  · rw [nextAt, hg.program, hout]
    intro t ht
    obtain ⟨u, hu, hsub⟩ := h.flowed t ht
    obtain ⟨w, hw, huw⟩ := hg.reaching t u hu
    exact ⟨w, hw, Trans.trans hsub huw⟩

section Pop

variable {a : Analyzer} {here : Address} {s : RegState}

theorem lastOut_pop (h : a.reaching[here] = some s) (rest : List Address) :
    (a.pop here rest).lastOut here s = a.outNow here s := by
  rw [lastOut, program_pop, dialect_pop, chased_pop h]
  by_cases hi : a.program.instr here = .ret
  · rw [if_pos hi, AddressMap.getElem_set_self]
    simp only [outNow, after, hi, RegState.transfer, RegState.get_set_self, Option.getD_some]
  · exact RegState.transfer_of_ne_ret hi _ _ _ _ _ s

/-- The visit itself establishes what it means to have been visited, unless the state has grown
under it. -/
theorem visited_pop (h : a.reaching[here] = some s) (rest : List Address) :
    (a.pop here rest).Visited here s := by
  constructor
  · rw [classes_pop h, program_pop]
    exact (ClassMap.covered_markRange _ _ _ _).mono (le_markData _ _ _)
  · rw [classes_pop h, program_pop]
    intro base hb
    exact covered_markData _ _ hb
  · rw [references_pop h, program_pop]
    exact References.recorded_record _ _ _
  · rw [program_pop, chased_pop h]
    intro hi
    rw [if_pos hi, AddressMap.getElem_set_self]
    exact ⟨_, rfl⟩
  · have hnext : (a.pop here rest).nextAt here s = a.nextAt here s := by
      rw [nextAt, program_pop, nextAt]
    rw [hnext, lastOut_pop h]
    intro t ht
    rw [reaching_pop h, if_pos ht]
    exact ⟨_, rfl, subset_absorb _ _⟩

theorem chased_pop_ne (h : a.reaching[here] = some s) (rest : List Address) {b : Address}
    (hb : b ≠ here) : (a.pop here rest).chased[b] = a.chased[b] := by
  rw [chased_pop h]
  split
  · rw [AddressMap.getElem_set_ne (Ne.symm hb)]
  · rfl

end Pop

/-- The invariant of the work list. -/
structure Worklist (a : Analyzer) : Prop extends Orderly a where
  reached : ∀ t ∈ a.fringe, ∃ s, a.reaching[t] = some s
  visited : ∀ here s, a.reaching[here] = some s → here ∉ a.fringe → a.Visited here s

theorem reaching_start {p : Program} {d : Dialect} {t : Address} {s : RegState}
    (hs : (start p d).reaching[t] = some s) : t = entryPoint ∧ s = .powerOn := by
  simp only [start, AddressMap.getElem_set] at hs
  by_cases ht : entryPoint = t
  · rw [if_pos ht, Option.some.injEq] at hs
    exact ⟨ht.symm, hs.symm⟩
  · simp [ht] at hs

theorem worklist_start (p : Program) (d : Dialect) : Worklist (start p d) := by
  constructor
  · constructor
    · simp [start]
    · intro t
      simp only [start, AddressMap.getElem_set, List.mem_singleton]
      by_cases ht : entryPoint = t
      · simp [ht]
      · simp [ht, Ne.symm ht]
  · intro t ht
    have he : t = entryPoint := by simpa [start] using ht
    exact ⟨.powerOn, by simp [start, he]⟩
  · intro here s hs hn
    have he := (reaching_start hs).1
    exact absurd (by simp [start, he]) hn

/-- One visit keeps the invariant. An address that does not wait afterwards is either the visited
one, whose state has then not grown, or it did not wait before and keeps its state. -/
theorem Worklist.pop {a : Analyzer} (h : Worklist a) {here : Address} {rest : List Address}
    (hf : a.fringe = here :: rest) : Worklist (a.pop here rest) := by
  obtain ⟨s, hs⟩ := h.reached here (by simp [hf])
  have hord := h.toOrderly.pop hf
  have hgrows := grows_pop a here rest
  refine ⟨hord, ?_, ?_⟩
  · intro t ht
    rcases mem_fringe_pop hs ht with ht | ht
    · obtain ⟨u, hu⟩ := h.reached t (by simp [hf, ht])
      obtain ⟨w, hw, _⟩ := hgrows.reaching t u hu
      exact ⟨w, hw⟩
    · exact ⟨_, by rw [reaching_pop hs, if_pos ht]⟩
  · intro b u hu hb
    have hq : ¬ (a.pop here rest).queued[b] = true := fun hq => hb ((hord.queued_iff b).1 hq)
    obtain ⟨hold, hsame⟩ := not_queued_pop hs hq
    rw [hsame] at hu
    by_cases hbh : b = here
    · subst hbh
      rw [hs] at hu
      cases hu
      exact visited_pop hs rest
    · have hnb : b ∉ a.fringe := by
        intro hm
        rcases hold with hold | hold
        · exact hbh hold
        · exact hold ((h.queued_iff b).2 hm)
      exact (h.visited b u hu hnb).mono hgrows (chased_pop_ne hs rest hbh)

theorem Reachable.worklist {rom : Array UInt8} {d : Dialect} {a : Analyzer}
    (h : Reachable rom d a) : Worklist a :=
  h.induction_on (fun p _ => worklist_start p d) (fun _ _ _ hf hw => hw.pop hf)

/-- At every suspension point the stack holds each waiting address once, waiting addresses are
reached, and every reached address that does not wait has been visited in its present state. -/
theorem visited_of_not_waiting {rom : Array UInt8} {d : Dialect} {a : Analyzer}
    (h : Reachable rom d a) :
    a.fringe.Nodup ∧ (∀ t : Address, a.queued[t] = true ↔ t ∈ a.fringe) ∧
      (∀ t ∈ a.fringe, ∃ s, a.reaching[t] = some s) ∧
      ∀ (here : Address) (s : RegState), a.reaching[here] = some s → here ∉ a.fringe →
        a.Visited here s := by
  have hw := h.worklist
  exact ⟨hw.nodup, hw.queued_iff, hw.reached, hw.visited⟩

/-- A call to `0x204`, which returns to `0x202`, where the program ends. -/
def singleCall : Program where
  rom := #[0x22, 0x04, 0x00, 0xFD, 0x00, 0xEE]
  fits := by decide

theorem reachable_singleCall (budget : Nat) :
    Reachable singleCall.rom {} ((start singleCall {}).step budget) :=
  .step budget (.start rfl)

theorem return_of_single_call_visited :
    Reachable singleCall.rom {} ((start singleCall {}).step 2) ∧
      ((start singleCall {}).step 2).fringe = [0x202] ∧
      ∃ s, ((start singleCall {}).step 2).reaching[(0x204 : Address)] = some s ∧
        ((start singleCall {}).step 2).Visited 0x204 s := by
  have hstep : ((start singleCall {}).step 2).fringe = [0x202] ∧
      (((start singleCall {}).step 2).reaching[(0x204 : Address)]).isSome = true := by
    decide +kernel
  obtain ⟨hf, hsome⟩ := hstep
  obtain ⟨s, hs⟩ := Option.isSome_iff_exists.1 hsome
  have hr := reachable_singleCall 2
  obtain ⟨_, _, _, hvisited⟩ := visited_of_not_waiting hr
  refine ⟨hr, hf, s, hs, hvisited 0x204 s hs ?_⟩
  rw [hf]
  decide

end Analyzer
end OctoLift
