import Mathlib.Logic.Relation
import OctoLift.Proofs.Fixpoint
import OctoLift.Proofs.Termination

/-!
# Paths to the reached addresses

An address is found through the states of the moment, which may still grow. What follows an address
in some state follows it in every larger one as well, so the ways that led to the reached addresses
stay open; and once the exploration has come to rest, no way leads out of what it has reached.
-/

namespace OctoLift.Analyzer

/-- Execution may continue at `y` after `x`, by the states of `a`. -/
def Leads (a : Analyzer) (x y : Address) : Prop :=
  ∃ s, a.reaching[x] = some s ∧ y ∈ a.nextAt x s

/-- The states of `a` let execution come from the entry point to an address. -/
def HasPath (a : Analyzer) (t : Address) : Prop :=
  Relation.ReflTransGen a.Leads entryPoint t

section Growth

variable {a b : Analyzer}

theorem Grows.leads (hg : a.Grows b) {x y : Address} (h : a.Leads x y) : b.Leads x y := by
  obtain ⟨s, hs, hy⟩ := h
  obtain ⟨u, hu, hsub⟩ := hg.reaching x s hs
  refine ⟨u, hu, ?_⟩
  rw [nextAt, hg.program]
  exact a.program.successors_mono x _ hsub hy

theorem Grows.hasPath (hg : a.Grows b) {t : Address} (h : a.HasPath t) : b.HasPath t :=
  Relation.ReflTransGen.mono (fun _ _ hxy => hg.leads hxy) _ _ h

end Growth

section Reached

variable {rom : Array UInt8} {d : Dialect} {a : Analyzer}

/-- An address that a visit finds lies one edge behind the visited one, on whose path nothing gets
lost by the visit. -/
theorem Reachable.hasPath (h : Reachable rom d a) :
    ∀ (t : Address) (s : RegState), a.reaching[t] = some s → a.HasPath t := by
  apply h.induction_on
  · intro p _ t s hs
    obtain ⟨rfl, -⟩ := reaching_start hs
    exact .refl
  · intro b here rest _ hb t u hu
    have hg := grows_pop b here rest
    rcases reaching_pop_cases hu with hold | ⟨s, hs, ht, -⟩
    · exact hg.hasPath (hb t u hold)
    · exact (hg.hasPath (hb here s hs)).tail (hg.leads ⟨s, hs, ht⟩)

theorem Worklist.reached_of_leads (h : Worklist a) (hd : a.isDone = true) {x y : Address}
    (hxy : a.Leads x y) : ∃ u, a.reaching[y] = some u := by
  obtain ⟨s, hs, hy⟩ := hxy
  obtain ⟨u, hu, _⟩ := (h.visited_at_rest hd hs).flowed y hy
  exact ⟨u, hu⟩

theorem Reachable.reached_iff_hasPath (h : Reachable rom d a) (hd : a.isDone = true)
    (t : Address) : (∃ s, a.reaching[t] = some s) ↔ a.HasPath t := by
  constructor
  · intro hreached
    obtain ⟨s, hs⟩ := hreached
    exact h.hasPath t s hs
  · intro hpath
    induction hpath with
    | refl =>
      obtain ⟨s, hs, _⟩ := h.entry
      exact ⟨s, hs⟩
    | tail _ hxy _ => exact h.worklist.reached_of_leads hd hxy

theorem mem_successors_found {x y : Address} : y ∈ a.found.successors x ↔ a.Leads x y := by
  simp only [Analysis.successors, found, Leads]
  cases a.reaching[x] with
  | none => simp
  | some s => simp [nextAt]

end Reached

/-- In a finished analysis, the reached addresses are those to which a path of successors leads from
the entry point. -/
theorem reached_iff_path {rom : Array UInt8} (hfits : rom.size ≤ maxRomSize) (d : Dialect) :
    ∃ found, Analysis.ofRom rom d = .ok found ∧ ∀ t : Address,
      (∃ s, found.reaching[t] = some s) ↔
        Relation.ReflTransGen (fun x y => y ∈ found.successors x) entryPoint t := by
  obtain ⟨a, ha, hd, hfound⟩ := Analysis.exists_ofRom hfits d
  refine ⟨a.found, hfound, ?_⟩
  intro t
  have hedge : (fun x y => y ∈ a.found.successors x) = a.Leads := by
    funext x y
    exact propext mem_successors_found
  rw [hedge]
  exact ha.reached_iff_hasPath hd t

/-- The skip at `0x202` is always taken, so the instruction at `0x204` is never executed. -/
def certainSkip : Program where
  rom := #[0x60, 0x05, 0x30, 0x05, 0x00, 0xE0, 0x00, 0xFD]
  fits := by decide

theorem path_past_certain_skip :
    certainSkip.rom.size ≤ maxRomSize ∧
      ∃ found, Analysis.ofRom certainSkip.rom {} = .ok found ∧
        Relation.ReflTransGen (fun x y => y ∈ found.successors x) entryPoint 0x206 ∧
        ¬ Relation.ReflTransGen (fun x y => y ∈ found.successors x) entryPoint 0x204 := by
  have hrest : ((start certainSkip {}).step 3).isDone = true ∧
      (((start certainSkip {}).step 3).reaching[(0x206 : Address)]).isSome = true ∧
      ((start certainSkip {}).step 3).reaching[(0x204 : Address)] = none := by
    decide +kernel
  obtain ⟨hd, hpast, hskipped⟩ := hrest
  have hanalysis := Analysis.ofRom_of_isDone certainSkip.fits {} hd
  obtain ⟨found, hfound, hpath⟩ := reached_iff_path certainSkip.fits {}
  generalize (start certainSkip {}).step 3 = a at hpast hskipped hanalysis
  have he : found = a.found := Except.ok.inj (hfound.symm.trans hanalysis)
  subst he
  refine ⟨certainSkip.fits, _, hfound, (hpath 0x206).1 (Option.isSome_iff_exists.1 hpast), ?_⟩
  intro h
  obtain ⟨s, hs⟩ := (hpath 0x204).2 h
  exact absurd (hskipped.symm.trans hs) (by simp)

end OctoLift.Analyzer
