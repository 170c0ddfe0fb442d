import OctoLift.AddressMap
import OctoLift.Analysis
import OctoLift.Analysis.Successors
import OctoLift.Analysis.Transfer
import OctoLift.Analyzer
import OctoLift.Arithmetic
import OctoLift.Arithmetic.Lemmas
import OctoLift.ClassMap
import OctoLift.CommandLine
import OctoLift.Cosmac
import OctoLift.Dialect
import OctoLift.Error
import OctoLift.Instr
import OctoLift.Instr.Decode
import OctoLift.Instr.Encode
import OctoLift.Instr.Text
import OctoLift.JsonValue
import OctoLift.Listing
import OctoLift.Listing.Layout
import OctoLift.Listing.Line
import OctoLift.Listing.Loop
import OctoLift.Listing.Walk
import OctoLift.Numeral
import OctoLift.Pipeline
import OctoLift.Program
import OctoLift.RefTable
import OctoLift.RegState
import OctoLift.Register
import OctoLift.Report
import OctoLift.SymbolTable
import OctoLift.WordSet
import OctoLift.WordSet.Lemmas
import OctoLift.Main
import OctoLift.Proofs.Machine
import OctoLift.Proofs.Marks
import OctoLift.Proofs.Order
import OctoLift.Proofs.Monotone
import OctoLift.Proofs.Visit
import OctoLift.Proofs.Worklist
import OctoLift.Proofs.Closed
import OctoLift.Proofs.Fixpoint
import OctoLift.Proofs.Soundness
import OctoLift.Proofs.Potential
import OctoLift.Proofs.Termination
import OctoLift.Proofs.Exactness
import OctoLift.Proofs.Words
import OctoLift.Proofs.Tokens
import OctoLift.Proofs.Names
import OctoLift.Proofs.WalkStep
import OctoLift.Proofs.Source
import OctoLift.Proofs.Faithful
import OctoLift.Proofs.Introductions
import OctoLift.Proofs.Mentions
import OctoLift.Proofs.Driving
import OctoLift.Proofs.Lockstep
import OctoLift.Proofs.Indifference
import OctoLift.Proofs.Scan
import OctoLift.Proofs.Brackets
import OctoLift.Proofs.Loops
import OctoLift.Proofs.WellBracketed
import OctoLift.Proofs.Growth
import OctoLift.Proofs.Images
import OctoLift.Proofs.Paths
import OctoLift.Proofs.Values
import OctoLift.Proofs.Branches
import OctoLift.Proofs.Returns
import OctoLift.Proofs.Alignment
import OctoLift.Proofs.MachineCode
import OctoLift.Proofs.Numerals
import OctoLift.Proofs.Regions
import OctoLift.Proofs.Entries
import OctoLift.Proofs.Slots
import OctoLift.Proofs.Statements
import OctoLift.Proofs.Assembly
import OctoLift.Proofs.Chains
import OctoLift.Proofs.Vectors
