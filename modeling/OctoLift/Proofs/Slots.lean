import OctoLift.Proofs.Driving

/-!
# Pipelines in two slots

A pipeline in memory is a slot for the exploration and a slot for the analysis, and its operations
empty and fill them: to finalize, the exploration is taken out before anything is checked, and has
to be put back if it does not rest yet. No way out of an operation loses it. The slots always hold
what the phase of a pipeline says, and every operation answers what the pipeline answers.
-/

namespace OctoLift

open Pipeline (Operation)

/-- What a host gets back from an operation. -/
inductive Answer where
  /-- The operation gives nothing back. -/
  | done
  | batch (atRest : Bool)
  | finalize (result : Except Error Unit)
  | source (result : Except Error String)
  deriving DecidableEq

/-- A pipeline as it is kept in memory. -/
structure Slots where
  exploration : Option Analyzer
  analysis : Option Analysis
  layout : Layout
  batch : Nat

namespace Slots

def ofRom (rom : Array UInt8) (dialect : Dialect) : Except Error Slots :=
  (Analyzer.ofRom rom dialect).map fun a => ⟨some a, none, {}, Analyzer.batchSize⟩

def pending (s : Slots) : Nat :=
  s.exploration.elim 0 Analyzer.pending

def steps (s : Slots) : Nat :=
  s.exploration.elim 0 Analyzer.steps

def source (s : Slots) (length : Nat) : Except Error String :=
  match s.analysis with
  | none => .error .notFinalized
  | some found => .ok (found.source s.layout length)

/-- Runs a batch where there is an exploration, and tells whether no batch is left to run. -/
def runBatch : StateM Slots Bool := do
  let s ← get
  match s.exploration with
  | none => return true
  | some a =>
    let a := a.step s.batch
    set { s with exploration := some a }
    return a.isDone

/-- Runs at most `n` batches, until one tells that none is left. -/
def runBatches : (n : Nat) → StateM Slots Unit
  | 0 => return
  | n + 1 => do
    if ← runBatch then return
    runBatches n

def run : StateM Slots Unit :=
  runBatches Analyzer.visitBound

/-- Empties the slot of the exploration. -/
def takeExploration : ExceptT Error (StateM Slots) Analyzer := do
  let s ← get
  -- from here on the exploration is lost, unless it is put back
  set { s with exploration := none }
  match s.exploration with
  | none => throw .alreadyFinalized
  | some a => return a

/-- Names the targets of an exploration at rest, and puts any other exploration back. -/
def settle (a : Analyzer) : ExceptT Error (StateM Slots) Unit := do
  if !a.isDone then
    modify fun s => { s with exploration := some a }
    throw (.incomplete a.pending)
  let found ← a.finish
  modify fun s => { s with analysis := some found }

def finalize : ExceptT Error (StateM Slots) Unit := do
  settle (← takeExploration)

/-- An operation on the slots, and its answer. -/
def perform : Operation → StateM Slots Answer
  | .withLayout layout => do
    modify fun s => { s with layout }
    return .done
  | .withBatch n => do
    modify fun s => { s with batch := max n 1 }
    return .done
  | .runBatch => return .batch (← runBatch)
  | .run => do
    run
    return .done
  | .finalize => return .finalize (← finalize.run)
  | .source length => return .source ((← get).source length)

/-- A computation goes on from what its first part gives, in the state that this part leaves. -/
theorem run_bind_of_run {α β : Type} {x : StateM Slots α} {s t : Slots} {a : α}
    (h : x.run s = (a, t)) (f : α → StateM Slots β) : (x >>= f).run s = (f a).run t := by
  rw [StateT.run_bind, h]
  rfl

section Settle

variable (s : Slots) {a : Analyzer}

theorem settle_of_isDone (h : a.isDone = true) :
    (settle a).run.run s = (.ok (), { s with analysis := some a.found }) := by
  have hfinish : a.finish = .ok a.found := if_pos h
  rw [settle, h, hfinish]
  rfl

theorem settle_of_busy (h : a.isDone = false) :
    (settle a).run.run s = (.error (.incomplete a.pending), { s with exploration := some a }) := by
  rw [settle, h]
  rfl

end Settle

/-- After an attempt to finalize that leaves the slots alone, all goes on as without it. -/
theorem mapM_perform_of_error {s : Slots} {e : Error}
    (h : finalize.run.run s = (.error e, s)) (later : List Operation) :
    ((.finalize :: later).mapM perform).run s =
      (.finalize (.error e) :: ((later.mapM perform).run s).1, ((later.mapM perform).run s).2) := by
  have hanswer : (perform .finalize).run s = (.finalize (.error e), s) := by
    rw [perform, run_bind_of_run h]
    rfl
  rw [List.mapM_cons, run_bind_of_run hanswer]
  exact run_bind_of_run rfl _

end Slots

namespace Pipeline

theorem finalize_of_busy {p : Pipeline} {a : Analyzer} (hp : p.phase = .exploring a)
    (hd : a.isDone = false) : p.finalize = .error (.incomplete a.pending) := by
  simp only [finalize, hp, Analyzer.finish, hd]
  rfl

/-- The slots of a pipeline: which one is filled is its phase. -/
def slots (p : Pipeline) : Slots :=
  match p.phase with
  | .exploring a => ⟨some a, none, p.layout, p.batch⟩
  | .finalized found => ⟨none, some found, p.layout, p.batch⟩

/-- What an operation answers. -/
def answer (p : Pipeline) : Operation → Answer
  | .withLayout _ => .done
  | .withBatch _ => .done
  | .runBatch => .batch p.runBatch.isDone
  | .run => .done
  | .finalize => .finalize (p.finalize.map fun _ => ())
  | .source length => .source (p.source length)

/-- What some operations answer, one after the other. -/
def answers (p : Pipeline) : List Operation → List Answer
  | [] => []
  | op :: rest => p.answer op :: (p.perform op).answers rest

section Simulation

variable (p : Pipeline)

theorem runBatch_slots : Slots.runBatch.run p.slots = (p.runBatch.isDone, p.runBatch.slots) := by
  obtain ⟨phase, layout, batch, hb⟩ := p
  cases phase with
  | exploring a => rfl
  | finalized found => rfl

theorem runBatches_slots (n : Nat) :
    (Slots.runBatches n).run p.slots = ((), (p.runBatches n).slots) := by
  induction n generalizing p with
  | zero => rfl
  | succ n ih =>
    rw [Slots.runBatches, runBatches, Slots.run_bind_of_run (runBatch_slots p)]
    cases p.runBatch.isDone with
    | true => rfl
    | false => exact ih p.runBatch

theorem finalize_slots :
    Slots.finalize.run.run p.slots =
      (p.finalize.map fun _ => (), (p.perform .finalize).slots) := by
  obtain ⟨phase, layout, batch, hb⟩ := p
  cases phase with
  | finalized found => rfl
  | exploring a =>
    cases hd : a.isDone with
    | false =>
      rw [perform, finalize_of_busy rfl hd]
      exact Slots.settle_of_busy _ hd
    | true =>
      rw [perform, finalize_of_exploring rfl hd]
      exact Slots.settle_of_isDone _ hd

theorem perform_slots (op : Operation) :
    (Slots.perform op).run p.slots = (p.answer op, (p.perform op).slots) := by
  cases op with
  | withLayout layout =>
    obtain ⟨phase, _, batch, hb⟩ := p
    cases phase <;> rfl
  | withBatch n =>
    obtain ⟨phase, layout, _, hb⟩ := p
    cases phase <;> rfl
  | runBatch =>
    rw [Slots.perform, Slots.run_bind_of_run (runBatch_slots p)]
    rfl
  | run =>
    rw [Slots.perform, Slots.run, Slots.run_bind_of_run (runBatches_slots p _)]
    rfl
  | finalize =>
    rw [Slots.perform, Slots.run_bind_of_run (finalize_slots p)]
    rfl
  | source length =>
    obtain ⟨phase, layout, _, hb⟩ := p
    cases phase <;> rfl

theorem mapM_perform_slots (ops : List Operation) :
    (ops.mapM Slots.perform).run p.slots = (p.answers ops, (ops.foldl perform p).slots) := by
  induction ops generalizing p with
  | nil => rfl
  | cons op rest ih =>
    have hrest := ih (p.perform op)
    rw [List.mapM_cons, Slots.run_bind_of_run (perform_slots p op), Slots.run_bind_of_run hrest]
    rfl

end Simulation

theorem slots_of_ofRom {rom : Array UInt8} {d : Dialect} {p : Pipeline} (h : ofRom rom d = .ok p) :
    Slots.ofRom rom d = .ok p.slots := by
  unfold ofRom at h
  cases ha : Analyzer.ofRom rom d with
  | error e =>
    rw [ha] at h
    cases h
  | ok a =>
    rw [ha] at h
    cases h
    rw [Slots.ofRom, ha]
    rfl

section Phases

variable (p : Pipeline)

def IsFinalized : Prop :=
  ∃ found, p.phase = .finalized found

theorem isFinalized_runBatch_iff : p.runBatch.IsFinalized ↔ p.IsFinalized := by
  obtain ⟨phase, layout, batch, hb⟩ := p
  cases phase with
  | exploring a => simp [IsFinalized, runBatch]
  | finalized found => exact Iff.rfl

theorem isFinalized_runBatches_iff (n : Nat) : (p.runBatches n).IsFinalized ↔ p.IsFinalized := by
  induction n generalizing p with
  | zero => exact Iff.rfl
  | succ n ih =>
    rw [runBatches]
    split
    · exact isFinalized_runBatch_iff p
    · rw [ih, isFinalized_runBatch_iff]

theorem isFinalized_perform_finalize_iff :
    (p.perform .finalize).IsFinalized ↔
      p.IsFinalized ∨ p.answer .finalize = .finalize (.ok ()) := by
  cases hp : p.phase with
  | finalized found =>
    exact iff_of_true ⟨found, phase_perform_of_finalized hp .finalize⟩ (.inl ⟨found, hp⟩)
  | exploring a =>
    cases hd : a.isDone with
    | true =>
      rw [perform, answer, finalize_of_exploring hp hd]
      exact iff_of_true ⟨a.found, rfl⟩ (.inr rfl)
    | false =>
      rw [perform, answer, finalize_of_busy hp hd]
      exact (or_iff_left (by simp [Except.map])).symm

/-- Only an attempt to finalize that succeeds ends the exploration. -/
theorem isFinalized_perform_iff (op : Operation) :
    (p.perform op).IsFinalized ↔ p.IsFinalized ∨ p.answer op = .finalize (.ok ()) := by
  cases op with
  | finalize => exact isFinalized_perform_finalize_iff p
  | withLayout layout => exact (or_iff_left nofun).symm
  | withBatch n => exact (or_iff_left nofun).symm
  | source length => exact (or_iff_left nofun).symm
  | runBatch => exact (isFinalized_runBatch_iff p).trans (or_iff_left nofun).symm
  | run => exact (isFinalized_runBatches_iff p _).trans (or_iff_left nofun).symm

theorem isFinalized_foldl_perform_iff (ops : List Operation) :
    (ops.foldl perform p).IsFinalized ↔
      p.IsFinalized ∨ .finalize (.ok ()) ∈ p.answers ops := by
  induction ops generalizing p with
  | nil => simp [answers]
  | cons op rest ih =>
    rw [List.foldl_cons, ih, isFinalized_perform_iff, answers, List.mem_cons, or_assoc, eq_comm]

end Phases

end Pipeline

/-- What can be said of two slots after operations that have answered `answers`. -/
structure TwoPhase (answers : List Answer) (s : Slots) : Prop where
  one_filled : s.exploration.isSome = !s.analysis.isSome
  finalize_ok : (∃ t, Slots.finalize.run.run s = (.ok (), t)) ↔
    ∃ a, s.exploration = some a ∧ a.fringe = []
  /-- An error changes nothing, so that later on all is as if there had not been the attempt. -/
  finalize_error : ∀ e t, Slots.finalize.run.run s = (.error e, t) →
    t = s ∧
      ((∃ a, s.exploration = some a ∧ e = .incomplete a.pending) ∨
        ((∃ found, s.analysis = some found) ∧ e = .alreadyFinalized)) ∧
      ∀ later : List Operation,
        ((.finalize :: later).mapM Slots.perform).run s =
          (.finalize (.error e) :: ((later.mapM Slots.perform).run s).1,
            ((later.mapM Slots.perform).run s).2)
  /-- Where an attempt gets as far as naming the targets, this does not fail. -/
  finish_ok : ∀ a, s.exploration = some a → a.isDone = true →
    ∃ found, a.finish = .ok found ∧ Slots.finalize.run.run s =
      (.ok (), { s with exploration := none, analysis := some found })
  source_ok : ∀ length,
    (∃ text, s.source length = .ok text) ↔ .finalize (.ok ()) ∈ answers
  source_error : ∀ length e, s.source length = .error e → e = .notFinalized
  finalized : .finalize (.ok ()) ∈ answers →
    (Slots.runBatch.run s).1 = true ∧ s.pending = 0 ∧ s.steps = 0
  /-- The loop that runs batches does not leave off before the exploration rests. -/
  run_rests : (Slots.run.run s).2.pending = 0

section TwoPhase

variable {answers : List Answer}

theorem twoPhase_of_exploring {a : Analyzer} {layout : Layout} {batch : Nat}
    (hanswers : .finalize (.ok ()) ∉ answers)
    (hrest : (Slots.run.run ⟨some a, none, layout, batch⟩).2.pending = 0) :
    TwoPhase answers ⟨some a, none, layout, batch⟩ where
  one_filled := rfl
  finalize_ok := by
    cases hd : a.isDone with
    | true =>
      exact iff_of_true ⟨_, Slots.settle_of_isDone _ hd⟩ ⟨a, rfl, List.isEmpty_iff.1 hd⟩
    | false =>
      refine iff_of_false ?_ ?_
      · rintro ⟨t, ht⟩
        cases (Slots.settle_of_busy _ hd).symm.trans ht
      · rintro ⟨b, hb, hempty⟩
        cases hb
        rw [Analyzer.isDone, hempty] at hd
        cases hd
  finalize_error := by
    intro e t ht
    cases hd : a.isDone with
    | true => cases (Slots.settle_of_isDone _ hd).symm.trans ht
    | false =>
      cases (Slots.settle_of_busy _ hd).symm.trans ht
      exact ⟨rfl, .inl ⟨a, rfl, rfl⟩, Slots.mapM_perform_of_error ht⟩
  finish_ok := by
    intro b hb hd
    cases hb
    exact ⟨a.found, if_pos hd, Slots.settle_of_isDone _ hd⟩
  source_ok length := iff_of_false nofun hanswers
  source_error length e he := by
    cases he
    rfl
  finalized h := absurd h hanswers
  run_rests := hrest

theorem twoPhase_of_finalized {found : Analysis} {layout : Layout} {batch : Nat}
    (hanswers : .finalize (.ok ()) ∈ answers) :
    TwoPhase answers ⟨none, some found, layout, batch⟩ where
  one_filled := rfl
  finalize_ok := iff_of_false (by rintro ⟨t, ht⟩; cases ht) (by rintro ⟨a, ha, -⟩; cases ha)
  finalize_error := by
    intro e t ht
    cases ht
    exact ⟨rfl, .inr ⟨⟨found, rfl⟩, rfl⟩, Slots.mapM_perform_of_error rfl⟩
  finish_ok := nofun
  source_ok length := iff_of_true ⟨_, rfl⟩ hanswers
  source_error := nofun
  finalized _ := ⟨rfl, rfl, rfl⟩
  run_rests := rfl

end TwoPhase

section Sessions

variable {rom : Array UInt8} {d : Dialect}

theorem Pipeline.Underway.pending_run_slots {p : Pipeline} (h : Underway rom d p) :
    (Slots.run.run p.slots).2.pending = 0 := by
  rw [Slots.run, runBatches_slots]
  change p.run.slots.pending = 0
  cases hp : p.phase with
  | exploring a =>
    have ha := h a hp
    rw [slots, phase_run ha hp]
    exact List.length_eq_zero_iff.2 (List.isEmpty_iff.1 ha.run_isDone)
  | finalized found =>
    rw [run, runBatches_of_finalized hp, slots, hp]
    rfl

theorem Pipeline.Underway.twoPhase {p : Pipeline} (h : Underway rom d p) {answers : List Answer}
    (hanswers : p.IsFinalized ↔ .finalize (.ok ()) ∈ answers) : TwoPhase answers p.slots := by
  have hrest := h.pending_run_slots
  obtain ⟨phase, layout, batch, hb⟩ := p
  cases phase with
  | exploring a => exact twoPhase_of_exploring (mt hanswers.2 nofun) hrest
  | finalized found => exact twoPhase_of_finalized (hanswers.1 ⟨found, rfl⟩)

/-- A pipeline has two phases, and its errors change nothing, whatever operations it is put
through. In memory it does what the pipeline does, and answers as the pipeline answers. -/
theorem Slots.errors_change_nothing (hfits : rom.size ≤ maxRomSize) (d : Dialect) :
    ∃ p s, Pipeline.ofRom rom d = .ok p ∧ ofRom rom d = .ok s ∧
      ∀ ops : List Operation, ∃ answers t, (ops.mapM perform).run s = (answers, t) ∧
        answers = p.answers ops ∧ t = (ops.foldl Pipeline.perform p).slots ∧
        TwoPhase answers t := by
  obtain ⟨p, hp, hphase, -⟩ := Pipeline.exists_ofRom hfits d
  refine ⟨p, p.slots, hp, Pipeline.slots_of_ofRom hp, ?_⟩
  intro ops
  refine ⟨_, _, Pipeline.mapM_perform_slots p ops, rfl, rfl, ?_⟩
  refine ((Pipeline.underway_of_ofRom hp).foldl_perform ops).twoPhase ?_
  rw [Pipeline.isFinalized_foldl_perform_iff]
  refine or_iff_right ?_
  rintro ⟨found, hfound⟩
  cases hphase.symm.trans hfound

/-- A host that finalizes too early, once too often, and asks for the source in between. -/
def hasty : List Operation :=
  [.withBatch 0, .finalize, .runBatch, .finalize, .source 0, .run, .finalize, .finalize, .runBatch]

theorem Slots.errors_change_nothing_for_hasty :
    Analyzer.singleCall.rom.size ≤ maxRomSize ∧
      ∃ s answers t, ofRom Analyzer.singleCall.rom {} = .ok s ∧
        (hasty.mapM perform).run s = (answers, t) ∧
        answers = [.done, .finalize (.error (.incomplete 1)), .batch false,
          .finalize (.error (.incomplete 1)), .source (.error .notFinalized), .done,
          .finalize (.ok ()), .finalize (.error .alreadyFinalized), .batch true] ∧
        TwoPhase answers t := by
  obtain ⟨p, s, hp, hs, hall⟩ := errors_change_nothing Analyzer.singleCall.fits {}
  obtain ⟨answers, t, hrun, hanswers, -, htwo⟩ := hall hasty
  refine ⟨Analyzer.singleCall.fits, s, answers, t, hs, hrun, ?_, htwo⟩
  have hevaluated : (Pipeline.ofRom Analyzer.singleCall.rom {}).toOption.any
      (fun p => p.answers hasty = [.done, .finalize (.error (.incomplete 1)), .batch false,
          .finalize (.error (.incomplete 1)), .source (.error .notFinalized), .done,
          .finalize (.ok ()), .finalize (.error .alreadyFinalized), .batch true]) = true := by
    decide +kernel
  rw [hp] at hevaluated
  rw [hanswers]
  exact of_decide_eq_true hevaluated

end Sessions

end OctoLift
