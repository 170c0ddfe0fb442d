import OctoLift.Analyzer
import OctoLift.Listing

/-!
# The pipeline

A ROM goes through two phases: it is explored in batches, and once nothing waits any more the
exploration is finalized. Only then can its source be written.
-/

namespace OctoLift

/-- How far a pipeline has come. -/
inductive Phase where
  | exploring (a : Analyzer)
  | finalized (a : Analysis)

/-- The way of one ROM from exploration to source. -/
structure Pipeline where
  phase : Phase
  layout : Layout
  /-- Visits in each batch. -/
  batch : Nat
  batch_pos : 0 < batch

namespace Pipeline

/-- Loads a ROM and prepares its exploration. -/
def ofRom (rom : Array UInt8) (dialect : Dialect) : Except Error Pipeline :=
  (Analyzer.ofRom rom dialect).map fun a =>
    ⟨.exploring a, {}, Analyzer.batchSize, by decide⟩

def withLayout (p : Pipeline) (layout : Layout) : Pipeline :=
  { p with layout := layout }

/-- Sets the number of visits in each batch; it is at least one. -/
def withBatch (p : Pipeline) (n : Nat) : Pipeline :=
  { p with batch := max n 1, batch_pos := by omega }

/-- Whether no batch is left to run. -/
def isDone (p : Pipeline) : Bool :=
  match p.phase with
  | .exploring a => a.isDone
  | .finalized _ => true

def runBatch (p : Pipeline) : Pipeline :=
  match p with
  | ⟨.exploring a, layout, batch, h⟩ => ⟨.exploring (a.step batch), layout, batch, h⟩
  | p => p

/-- Runs at most `n` batches, and none after the exploration has come to rest. -/
def runBatches : (n : Nat) → Pipeline → Pipeline
  | 0, p => p
  | n + 1, p =>
    let p := p.runBatch
    if p.isDone then p else runBatches n p

/-- Runs batches until the exploration has come to rest. -/
def run (p : Pipeline) : Pipeline :=
  p.runBatches Analyzer.visitBound

def pending (p : Pipeline) : Nat :=
  match p.phase with
  | .exploring a => a.pending
  | .finalized _ => 0

/-- How many visits there have been in the exploration that is going on. -/
def steps (p : Pipeline) : Nat :=
  match p.phase with
  | .exploring a => a.steps
  | .finalized _ => 0

/-- The analysis, once the pipeline is finalized. -/
def analysis? (p : Pipeline) : Option Analysis :=
  match p.phase with
  | .exploring _ => none
  | .finalized a => some a

/-- Names the targets, if the exploration has come to rest and this has not been done before. -/
def finalize (p : Pipeline) : Except Error Pipeline :=
  match p.phase with
  | .exploring a => a.finish.map fun done => { p with phase := .finalized done }
  | .finalized _ => .error .alreadyFinalized

def source (p : Pipeline) (length : Nat) : Except Error String :=
  match p.phase with
  | .exploring _ => .error .notFinalized
  | .finalized a => .ok (a.source p.layout length)

end Pipeline

def decompile (rom : Array UInt8) (dialect : Dialect) : Except Error String := do
  let p ← Pipeline.ofRom rom dialect
  (← p.run.finalize).source rom.size

end OctoLift
