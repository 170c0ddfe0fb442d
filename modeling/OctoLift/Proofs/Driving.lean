import OctoLift.Proofs.Termination

/-!
# Ways to drive a pipeline

However a pipeline is driven, what it explores is the one exploration of its ROM, stopped after
some number of visits. It can only be finalized when this exploration has come to rest, and from
then on it holds the analysis of the ROM, whatever was asked of it before or is asked of it later.
-/

namespace OctoLift.Pipeline

section Driven

variable {rom : Array UInt8} {d : Dialect} {a : Analyzer} {p : Pipeline}

/-- The pipeline is somewhere on the way of the exploration `a`, or has its analysis. -/
def Follows (a : Analyzer) (p : Pipeline) : Prop :=
  (∃ n, p.phase = .exploring (a.step n)) ∨ p.phase = .finalized a.run.found

theorem finalize_of_exploring {b : Analyzer} (hp : p.phase = .exploring b)
    (hd : b.isDone = true) : p.finalize = .ok { p with phase := .finalized b.found } := by
  simp only [finalize, hp, Analyzer.finish, if_pos hd]
  rfl

theorem isDone_of_finalize {q : Pipeline} (h : p.finalize = .ok q) :
    ∃ b, p.phase = .exploring b ∧ b.isDone = true := by
  cases hp : p.phase with
  | finalized found => simp [finalize, hp] at h
  | exploring b =>
    refine ⟨b, rfl, ?_⟩
    cases hd : b.isDone with
    | true => rfl
    | false => simp [finalize, hp, Analyzer.finish, hd, Except.map] at h

theorem Follows.runBatch (h : Follows a p) : Follows a p.runBatch := by
  obtain ⟨phase, layout, batch, hb⟩ := p
  cases phase with
  | finalized found => exact h
  | exploring b =>
    rcases h with ⟨n, hn⟩ | hn
    · cases hn
      exact Or.inl ⟨n + batch, by rw [Analyzer.step_add]; rfl⟩
    · cases hn

theorem Follows.runBatches (h : Follows a p) (n : Nat) : Follows a (p.runBatches n) := by
  induction n generalizing p with
  | zero => exact h
  | succ n ih =>
    rw [Pipeline.runBatches]
    split
    · exact h.runBatch
    · exact ih h.runBatch

/-- Where the exploration rests, all numbers of visits that lead there have led to the same. -/
theorem Follows.found_of_isDone (ha : Analyzer.Reachable rom d a) (h : Follows a p) {b : Analyzer}
    (hp : p.phase = .exploring b) (hd : b.isDone = true) : b = a.run := by
  rcases h with ⟨n, hn⟩ | hn
  · obtain rfl : a.step n = b := by simpa [hn] using hp
    exact Analyzer.step_eq_of_isDone hd ha.run_isDone
  · rw [hn] at hp
    cases hp

theorem Follows.perform (ha : Analyzer.Reachable rom d a) (h : Follows a p) (op : Operation) :
    Follows a (p.perform op) := by
  cases op with
  | withLayout layout => exact h
  | withBatch n => exact h
  | runBatch => exact h.runBatch
  | run => exact h.runBatches _
  | source length => exact h
  | finalize =>
    rw [Pipeline.perform]
    cases hf : p.finalize with
    | error e => exact h
    | ok q =>
      obtain ⟨b, hp, hd⟩ := isDone_of_finalize hf
      rw [finalize_of_exploring hp hd] at hf
      cases hf
      rw [h.found_of_isDone ha hp hd]
      exact Or.inr rfl

theorem Follows.foldl_perform (ha : Analyzer.Reachable rom d a) (h : Follows a p)
    (ops : List Operation) : Follows a (ops.foldl Pipeline.perform p) := by
  induction ops generalizing p with
  | nil => exact h
  | cons op rest ih => exact ih (h.perform ha op)

theorem Follows.finalize (ha : Analyzer.Reachable rom d a) (h : Follows a p) {q : Pipeline}
    (hq : p.finalize = .ok q) :
    p.steps = a.run.steps ∧ (p.perform .finalize).phase = .finalized a.run.found := by
  obtain ⟨b, hp, hd⟩ := isDone_of_finalize hq
  have hb := h.found_of_isDone ha hp hd
  subst hb
  refine ⟨by rw [steps, hp], ?_⟩
  rw [Pipeline.perform, finalize_of_exploring hp hd]

end Driven

section Finalized

variable {p : Pipeline} {found : Analysis}

theorem runBatch_of_finalized (h : p.phase = .finalized found) : p.runBatch = p := by
  obtain ⟨phase, layout, batch, hb⟩ := p
  cases h
  rfl

theorem runBatches_of_finalized (h : p.phase = .finalized found) (n : Nat) :
    p.runBatches n = p := by
  induction n with
  | zero => rfl
  | succ n ih => rw [runBatches, runBatch_of_finalized h, ih, ite_self]

theorem phase_perform_of_finalized (h : p.phase = .finalized found) (op : Operation) :
    (p.perform op).phase = .finalized found := by
  cases op with
  | withLayout layout => exact h
  | withBatch n => exact h
  | runBatch => rw [perform, runBatch_of_finalized h, h]
  | run => rw [perform, run, runBatches_of_finalized h, h]
  | source length => exact h
  | finalize => simp only [perform, finalize, h]

theorem phase_foldl_perform_of_finalized (h : p.phase = .finalized found)
    (ops : List Operation) : (ops.foldl perform p).phase = .finalized found := by
  induction ops generalizing p with
  | nil => exact h
  | cons op rest ih => exact ih (phase_perform_of_finalized h op)

end Finalized

section Layout

/-- The layout in force after an operation. -/
def Operation.setLayout : Operation → Layout → Layout
  | withLayout new, _ => new
  | _, layout => layout

/-- The layout in force after some operations, where the standard one was in force before. -/
def layoutAfter (ops : List Operation) : Layout :=
  ops.foldl (fun layout op => op.setLayout layout) {}

theorem layout_runBatch (p : Pipeline) : p.runBatch.layout = p.layout := by
  obtain ⟨phase, layout, batch, hb⟩ := p
  cases phase with
  | exploring a => rfl
  | finalized a => rfl

theorem layout_runBatches (n : Nat) (p : Pipeline) : (p.runBatches n).layout = p.layout := by
  induction n generalizing p with
  | zero => rfl
  | succ n ih =>
    rw [runBatches]
    split
    · exact layout_runBatch p
    · rw [ih, layout_runBatch]

theorem layout_perform (p : Pipeline) (op : Operation) :
    (p.perform op).layout = op.setLayout p.layout := by
  cases op with
  | withLayout new => rfl
  | withBatch n => rfl
  | runBatch => exact layout_runBatch p
  | run => exact layout_runBatches _ p
  | source length => rfl
  | finalize =>
    rw [perform]
    cases hf : p.finalize with
    | error e => rfl
    | ok q =>
      obtain ⟨b, hp, hd⟩ := isDone_of_finalize hf
      rw [finalize_of_exploring hp hd] at hf
      cases hf
      rfl

theorem layout_foldl_perform (ops : List Operation) (p : Pipeline) :
    (ops.foldl perform p).layout = ops.foldl (fun layout op => op.setLayout layout) p.layout := by
  induction ops generalizing p with
  | nil => rfl
  | cons op rest ih => rw [List.foldl_cons, ih, layout_perform, List.foldl_cons]

end Layout

section Decompile

variable {rom : Array UInt8} {d : Dialect} {a : Analyzer} {p : Pipeline}

theorem phase_run (ha : Analyzer.Reachable rom d a) (hp : p.phase = .exploring a) :
    p.run.phase = .exploring a.run := by
  obtain ⟨phase, layout, batch, hb⟩ := p
  cases hp
  rw [run, runBatches_of_exploring ha layout hb (by omega)]

theorem decompile_of_exploring (ha : Analyzer.Reachable rom d a)
    (hp : ofRom rom d = .ok p) (hphase : p.phase = .exploring a) :
    decompile rom d = .ok (a.run.found.source p.layout rom.size) := by
  have hrest := finalize_of_exploring (phase_run ha hphase) ha.run_isDone
  simp only [decompile, hp, bind, Except.bind, hrest, source]
  rw [run, layout_runBatches]

end Decompile

section Fits

variable {rom : Array UInt8} (hfits : rom.size ≤ maxRomSize) (d : Dialect)

include hfits

theorem exists_ofRom : ∃ p, ofRom rom d = .ok p ∧
    p.phase = .exploring (.start ⟨rom, hfits⟩ d) ∧ p.layout = {} := by
  refine ⟨⟨.exploring (.start ⟨rom, hfits⟩ d), {}, Analyzer.batchSize, by decide⟩, ?_, rfl, rfl⟩
  rw [ofRom, Analyzer.ofRom_of_fits hfits d]
  rfl

/-- How a pipeline is driven does not change its result. Whenever it can be finalized the
exploration has taken the same number of visits; and from then on it holds the analysis of the ROM
and writes its source in the layout in force, with the standard layout and at full length the one
that `decompile` gives. -/
theorem driving_keeps_result :
    ∃ explorer p found, Analyzer.ofRom rom d = .ok explorer ∧ ofRom rom d = .ok p ∧
      Analysis.ofRom rom d = .ok found ∧ decompile rom d = .ok (found.source {} rom.size) ∧
      ∀ (before : List Operation) (q : Pipeline), (before.foldl perform p).finalize = .ok q →
        (before.foldl perform p).steps = explorer.run.steps ∧
        ∀ after : List Operation,
          let ops := before ++ .finalize :: after
          (ops.foldl perform p).analysis? = some found ∧
            ∀ length, (ops.foldl perform p).source length =
              .ok (found.source (layoutAfter ops) length) := by
  have hstart := Analyzer.ofRom_of_fits hfits d
  have ha := Analyzer.Reachable.start hstart
  obtain ⟨p, hp, hphase, hlayout⟩ := exists_ofRom hfits d
  have hdecompile := decompile_of_exploring ha hp hphase
  rw [hlayout] at hdecompile
  refine ⟨_, p, _, hstart, hp, Analysis.ofRom_of_isDone hfits d ha.run_isDone, hdecompile, ?_⟩
  intro before q hq
  have hbefore := Follows.foldl_perform ha (Or.inl ⟨0, hphase⟩) before
  obtain ⟨hsteps, hfinal⟩ := hbefore.finalize ha hq
  refine ⟨hsteps, ?_⟩
  intro after
  dsimp only
  have hfinal := phase_foldl_perform_of_finalized hfinal after
  rw [← List.foldl_cons, ← List.foldl_append] at hfinal
  refine ⟨by rw [analysis?, hfinal]; rfl, ?_⟩
  intro length
  rw [source, hfinal, layout_foldl_perform, hlayout]
  rfl

end Fits

/-- A host that asks for the source too early, lets the exploration go on visit by visit, changes
the layout on the way, and asks for the result once more. -/
def impatient : List Operation :=
  [.finalize, .source 6, .withBatch 0, .runBatch, .withLayout ⟨false, .tab⟩, .finalize, .run]

private theorem finalize_impatient {p : Pipeline} (hp : ofRom Analyzer.singleCall.rom {} = .ok p) :
    ∃ q, (impatient.foldl perform p).finalize = .ok q := by
  have hdone : (ofRom Analyzer.singleCall.rom {}).toOption.any
      (fun p => (impatient.foldl perform p).finalize.isOk) = true := by
    decide +kernel
  rw [hp] at hdone
  replace hdone : (impatient.foldl perform p).finalize.isOk = true := hdone
  cases hq : (impatient.foldl perform p).finalize with
  | ok q => exact ⟨q, rfl⟩
  | error e =>
    rw [hq] at hdone
    cases hdone

theorem driving_keeps_result_of_single_call :
    Analyzer.singleCall.rom.size ≤ maxRomSize ∧
      ∃ explorer p found q, Analyzer.ofRom Analyzer.singleCall.rom {} = .ok explorer ∧
        ofRom Analyzer.singleCall.rom {} = .ok p ∧
        Analysis.ofRom Analyzer.singleCall.rom {} = .ok found ∧
        (impatient.foldl perform p).finalize = .ok q ∧
        (impatient.foldl perform p).steps = explorer.run.steps ∧
        ∀ length, ((impatient ++ [Operation.finalize, .withLayout ⟨true, .spaces 2⟩,
          .finalize]).foldl perform p).source length = .ok (found.source ⟨true, .spaces 2⟩ length) := by
  obtain ⟨explorer, p, found, ha, hp, hfound, -, hdriven⟩ :=
    driving_keeps_result Analyzer.singleCall.fits {}
  obtain ⟨q, hq⟩ := finalize_impatient hp
  obtain ⟨hsteps, hafter⟩ := hdriven impatient q hq
  refine ⟨Analyzer.singleCall.fits, explorer, p, found, q, ha, hp, hfound, hq, hsteps, ?_⟩
  exact (hafter [.withLayout ⟨true, .spaces 2⟩, .finalize]).2

end OctoLift.Pipeline
