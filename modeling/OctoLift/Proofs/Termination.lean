import OctoLift.Pipeline
import OctoLift.Proofs.Potential

/-!
# Explorations come to rest

Whatever the ROM, the stack is empty after finitely many visits. So the loop that runs one batch
after another comes to an end, both for an exploration and for a pipeline with any batch size,
and it ends in the state that `run` gives.
-/

namespace OctoLift

/-- The loop that runs batches, at least one, until one of them reports that all is done: started
in the first state it ends in the second. -/
inductive Drains {α : Type} (batch : α → α) (done : α → Bool) : α → α → Prop
  | last {x : α} (h : done (batch x) = true) : Drains batch done x (batch x)
  | more {x y : α} (h : done (batch x) = false) (rest : Drains batch done (batch x) y) :
    Drains batch done x y

namespace Analyzer

section Steps

variable {a : Analyzer}

theorem step_of_isDone (h : a.isDone = true) (n : Nat) : a.step n = a := by
  have hf : a.fringe = [] := by simpa [isDone] using h
  cases n with
  | zero => rfl
  | succ n => rw [step, hf]

theorem step_add (a : Analyzer) (m n : Nat) : a.step (m + n) = (a.step m).step n := by
  induction m generalizing a with
  | zero => rw [Nat.zero_add]; rfl
  | succ m ih =>
    rw [Nat.succ_add, step, step]
    cases hf : a.fringe with
    | nil => exact (step_of_isDone (by simp [isDone, hf]) n).symm
    | cons here rest => exact ih (a.pop here rest)

/-- However many visits bring an exploration to rest, it comes to rest in the same state. -/
theorem step_eq_of_isDone {m n : Nat} (hm : (a.step m).isDone = true)
    (hn : (a.step n).isDone = true) : a.step m = a.step n := by
  rw [← step_of_isDone hm n, ← step_of_isDone hn m, ← step_add, ← step_add, Nat.add_comm]

theorem steps_pop (a : Analyzer) (here : Address) (rest : List Address) :
    (a.pop here rest).steps = a.steps + 1 := by
  cases hs : a.reaching[here] with
  | none => rw [pop_of_not_reached hs]
  | some s =>
    rw [pop_of_reached hs]
    obtain ⟨r, f, q, e⟩ := foldl_flow_frame (a.outNow here s) (a.nextAt here s) _
    rw [e]

theorem steps_step_of_not_isDone {n : Nat} (h : (a.step n).isDone = false) :
    (a.step n).steps = a.steps + n := by
  induction n generalizing a with
  | zero => rfl
  | succ n ih =>
    rw [step] at h ⊢
    cases hf : a.fringe with
    | nil =>
      rw [hf] at h
      simp [isDone, hf] at h
    | cons here rest =>
      rw [hf] at h
      rw [ih h, steps_pop]
      omega

end Steps

variable {rom : Array UInt8} {d : Dialect} {a : Analyzer}

theorem Reachable.step_isDone (h : Reachable rom d a) {n : Nat} (hn : visitBound ≤ n) :
    (a.step n).isDone = true := by
  apply Classical.byContradiction
  intro hdone
  have hsteps := steps_step_of_not_isDone (Bool.eq_false_iff.2 hdone)
  have hlt := (h.step n).steps_lt
  omega

theorem Reachable.run_isDone (h : Reachable rom d a) : a.run.isDone = true :=
  h.step_isDone (Nat.le_refl _)

theorem Reachable.run_step (h : Reachable rom d a) (n : Nat) : (a.step n).run = a.run := by
  rw [run, run, ← step_add]
  exact step_eq_of_isDone (h.step_isDone (by omega)) (h.step_isDone (Nat.le_refl _))

theorem Reachable.drains (h : Reachable rom d a) {b : Nat} (hb : 0 < b) :
    Drains (Analyzer.step b) isDone a a.run := by
  -- the visits that are left go down with every batch that does not come to rest
  induction hleft : visitBound - a.steps using Nat.strongRecOn generalizing a with
  | ind left ih =>
    cases hdone : (a.step b).isDone with
    | true =>
      have hlast : a.run = a.step b := step_eq_of_isDone h.run_isDone hdone
      rw [hlast]
      exact .last hdone
    | false =>
      have hsteps := steps_step_of_not_isDone hdone
      have hlt := (h.step b).steps_lt
      rw [← h.run_step b]
      exact .more hdone (ih _ (by omega) (h.step b) rfl)

end Analyzer

/-- What an exploration has found, with names for the targets. -/
def Analyzer.found (a : Analyzer) : Analysis where
  program := a.program
  dialect := a.dialect
  reaching := a.reaching
  classes := a.classes
  references := a.references
  symbols := .ofReferences a.references

theorem Analyzer.found_symbols (a : Analyzer) :
    a.found.symbols = .ofReferences a.found.references :=
  rfl

section Fits

variable {rom : Array UInt8} (hfits : rom.size ≤ maxRomSize) (d : Dialect)

include hfits

theorem Analyzer.ofRom_of_fits : Analyzer.ofRom rom d = .ok (.start ⟨rom, hfits⟩ d) := by
  have hload : Program.load rom = .ok ⟨rom, hfits⟩ := dif_pos hfits
  rw [Analyzer.ofRom, hload]
  rfl

theorem Analysis.ofRom_of_isDone {n : Nat}
    (h : ((Analyzer.start ⟨rom, hfits⟩ d).step n).isDone = true) :
    Analysis.ofRom rom d = .ok ((Analyzer.start ⟨rom, hfits⟩ d).step n).found := by
  have ha := Analyzer.ofRom_of_fits hfits d
  have hrest := (Analyzer.Reachable.start ha).run_isDone
  have hrun : (Analyzer.start ⟨rom, hfits⟩ d).run = (Analyzer.start ⟨rom, hfits⟩ d).step n :=
    Analyzer.step_eq_of_isDone hrest h
  simp only [Analysis.ofRom, ha, bind, Except.bind]
  rw [hrun, Analyzer.finish, if_pos h]
  rfl

theorem Analysis.exists_ofRom :
    ∃ a, Analyzer.Reachable rom d a ∧ a.isDone = true ∧ Analysis.ofRom rom d = .ok a.found := by
  have hstart := Analyzer.Reachable.start (Analyzer.ofRom_of_fits hfits d)
  exact ⟨_, hstart.step _, hstart.run_isDone, Analysis.ofRom_of_isDone hfits d hstart.run_isDone⟩

end Fits

theorem Analysis.program_of_ofRom {p : Program} {d : Dialect} {found : Analysis}
    (h : Analysis.ofRom p.rom d = .ok found) : found.program = p := by
  obtain ⟨a, ha, -, hfound⟩ := exists_ofRom p.fits d
  rw [h, Except.ok.injEq] at hfound
  rw [hfound]
  exact ha.program_eq

namespace Pipeline

inductive Operation where
  | withLayout (layout : Layout)
  | withBatch (n : Nat)
  | runBatch
  | run
  | finalize
  | source (length : Nat)

/-- The pipeline after an operation; one that fails leaves it as it was. -/
def perform (p : Pipeline) : Operation → Pipeline
  | .withLayout layout => p.withLayout layout
  | .withBatch n => p.withBatch n
  | .runBatch => p.runBatch
  | .run => p.run
  | .finalize =>
    match p.finalize with
    | .ok q => q
    | .error _ => p
  | .source _ => p

section Underway

variable {rom : Array UInt8} {d : Dialect} {p : Pipeline}

/-- What a pipeline explores, as long as it explores, is an exploration of the ROM. -/
def Underway (rom : Array UInt8) (d : Dialect) (p : Pipeline) : Prop :=
  ∀ a, p.phase = .exploring a → Analyzer.Reachable rom d a

theorem underway_of_ofRom (h : ofRom rom d = .ok p) : Underway rom d p := by
  unfold ofRom at h
  cases ha : Analyzer.ofRom rom d with
  | error e =>
    rw [ha] at h
    cases h
  | ok a =>
    rw [ha] at h
    cases h
    intro b hb
    cases hb
    exact .start ha

theorem Underway.runBatch (h : Underway rom d p) : Underway rom d p.runBatch := by
  obtain ⟨phase, layout, batch, hb⟩ := p
  cases phase with
  | exploring a =>
    intro b he
    cases he
    exact .step batch (h a rfl)
  | finalized a => exact h

theorem Underway.runBatches (h : Underway rom d p) (n : Nat) :
    Underway rom d (p.runBatches n) := by
  induction n generalizing p with
  | zero => exact h
  | succ n ih =>
    rw [Pipeline.runBatches]
    split
    · exact h.runBatch
    · exact ih h.runBatch

theorem Underway.perform (h : Underway rom d p) (op : Operation) :
    Underway rom d (p.perform op) := by
  cases op with
  | withLayout layout => exact h
  | withBatch n => exact h
  | runBatch => exact h.runBatch
  | run => exact h.runBatches _
  | source length => exact h
  | finalize =>
    intro a ha
    cases hp : p.phase with
    | finalized b =>
      simp only [Pipeline.perform, finalize, hp] at ha
      cases ha
    | exploring b =>
      simp only [Pipeline.perform, finalize, hp] at ha
      cases hf : b.finish with
      | error e =>
        simp only [hf, Except.map] at ha
        exact h a ha
      | ok done =>
        simp only [hf, Except.map] at ha
        cases ha

theorem Underway.foldl_perform (h : Underway rom d p) (ops : List Operation) :
    Underway rom d (ops.foldl Pipeline.perform p) := by
  induction ops generalizing p with
  | nil => exact h
  | cons op rest ih => exact ih (h.perform op)

theorem runBatches_of_exploring {a : Analyzer} (h : Analyzer.Reachable rom d a) (layout : Layout)
    {b : Nat} (hb : 0 < b) {n : Nat} (hn : Analyzer.visitBound ≤ a.steps + n) :
    runBatches n ⟨.exploring a, layout, b, hb⟩ = ⟨.exploring a.run, layout, b, hb⟩ := by
  induction n generalizing a with
  | zero =>
    have := h.steps_lt
    omega
  | succ n ih =>
    rw [runBatches]
    cases hdone : (a.step b).isDone with
    | true =>
      have hlast : a.run = a.step b := Analyzer.step_eq_of_isDone h.run_isDone hdone
      rw [hlast]
      exact if_pos hdone
    | false =>
      have hsteps := Analyzer.steps_step_of_not_isDone hdone
      have hmore := ih (h.step b) (by omega)
      rw [h.run_step b] at hmore
      rw [← hmore]
      exact if_neg (by simp [isDone, runBatch, hdone])

theorem drains_of_exploring {a b : Analyzer} {layout : Layout} {n : Nat} (hn : 0 < n)
    (h : Drains (Analyzer.step n) Analyzer.isDone a b) :
    Drains runBatch isDone ⟨.exploring a, layout, n, hn⟩ ⟨.exploring b, layout, n, hn⟩ := by
  induction h with
  | last hdone => exact .last hdone
  | more hdone _ ih => exact .more hdone ih

theorem Underway.drains (h : Underway rom d p) :
    Drains Pipeline.runBatch Pipeline.isDone p p.run := by
  obtain ⟨phase, layout, batch, hb⟩ := p
  cases phase with
  | exploring a =>
    have hr := h a rfl
    rw [run, runBatches_of_exploring hr layout hb (by omega)]
    exact drains_of_exploring hb (hr.drains hb)
  | finalized a =>
    have hrun : run ⟨.finalized a, layout, batch, hb⟩ = ⟨.finalized a, layout, batch, hb⟩ := rfl
    rw [hrun]
    exact .last rfl

end Underway

/-- Every ROM that fits is explored to rest by finitely many visits, and so the loops that run
batches come to an end: from any exploration of it, and from whatever a pipeline has been made
into, with the batch size that was set last. -/
theorem loops_end {rom : Array UInt8} (hfits : rom.size ≤ maxRomSize) (d : Dialect) :
    (∃ a, Analyzer.ofRom rom d = .ok a ∧ ∃ n, (a.step n).fringe = []) ∧
      (∀ a, Analyzer.Reachable rom d a →
        Drains (Analyzer.step Analyzer.batchSize) Analyzer.isDone a a.run) ∧
      ∃ p, ofRom rom d = .ok p ∧ ∀ ops : List Operation,
        Drains runBatch isDone (ops.foldl perform p) (ops.foldl perform p).run := by
  have ha := Analyzer.ofRom_of_fits hfits d
  have hrest := (Analyzer.Reachable.start ha).run_isDone
  refine ⟨⟨_, ha, Analyzer.visitBound, List.isEmpty_iff.1 hrest⟩, ?_, ?_⟩
  · intro a h
    exact h.drains (by decide)
  · have hp : ofRom rom d = .ok ⟨.exploring (.start ⟨rom, hfits⟩ d), {}, Analyzer.batchSize,
        by decide⟩ := by
      rw [ofRom, ha]
      rfl
    refine ⟨_, hp, fun ops => ?_⟩
    exact Underway.drains ((underway_of_ofRom hp).foldl_perform ops)

/-- A pipeline whose batches were made as small as possible, and that was asked for its result too
early, still comes to rest. -/
theorem loops_end_in_single_call :
    Analyzer.singleCall.rom.size ≤ maxRomSize ∧
      Analyzer.Reachable Analyzer.singleCall.rom {}
        ((Analyzer.start Analyzer.singleCall {}).step 2) ∧
      Drains (Analyzer.step Analyzer.batchSize) Analyzer.isDone
        ((Analyzer.start Analyzer.singleCall {}).step 2)
        ((Analyzer.start Analyzer.singleCall {}).step 2).run ∧
      ∃ p, ofRom Analyzer.singleCall.rom {} = .ok p ∧
        Drains runBatch isDone ([.withBatch 0, .runBatch, .finalize].foldl perform p)
          ([.withBatch 0, .runBatch, .finalize].foldl perform p).run := by
  have hr := Analyzer.reachable_singleCall 2
  obtain ⟨_, hexplorations, p, hp, hpipelines⟩ := loops_end Analyzer.singleCall.fits {}
  exact ⟨Analyzer.singleCall.fits, hr, hexplorations _ hr, p, hp, hpipelines _⟩

end Pipeline
end OctoLift
