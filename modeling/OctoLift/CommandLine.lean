import OctoLift.Pipeline
import OctoLift.Report

/-!
# The command line

Arguments are read from left to right on two levels: what stands before the command belongs to the
program, what follows to the command. Anything that is not understood is wrong usage. The commands
work through a host that reads and writes files, so that the same steps run on any file system.
-/

namespace OctoLift.CommandLine

inductive Level where
  | program
  | decompile
  | tables
  deriving DecidableEq, Repr

inductive Flag where
  | verbose
  | silent
  | version
  | help
  | output
  | shiftsInPlace
  | keepsIndex
  | flagFirst
  | batch
  | noRemarks
  deriving DecidableEq, Repr

namespace Flag

def allowed : Flag → Level → Bool
  | verbose, _ | silent, _ | help, _ => true
  | version, level => level = .program
  | output, level | shiftsInPlace, level | keepsIndex, level | flagFirst, level => level ≠ .program
  | batch, level | noRemarks, level => level = .decompile

def ofLong : String → Option Flag
  | "verbose" => some verbose
  | "silent" => some silent
  | "version" => some version
  | "help" => some help
  | "output" => some output
  | "shift-quirks" => some shiftsInPlace
  | "load-store-quirks" => some keepsIndex
  | "vf-order-quirks" => some flagFirst
  | "batch-size" => some batch
  | "no-quirk-comments" => some noRemarks
  | _ => none

def ofLetter : Char → Option Flag
  | 'v' => some verbose
  | 's' => some silent
  | 'V' => some version
  | 'h' => some help
  | 'o' => some output
  | _ => none

def takesValue : Flag → Bool
  | output | batch => true
  | _ => false

end Flag

/-- What has been read at one level. -/
structure Settings where
  flags : List Flag := []
  output : Option String := none
  batch : Nat := Analyzer.batchSize
  input : Option String := none

inductive Invocation where
  | version
  | help
  | decompile (settings : Settings)
  | tables (settings : Settings)

/-- How reading arguments can end early. -/
inductive Stop where
  | wrongUsage
  | answered (i : Invocation)

/-- A number of at most 64 bits: decimal digits, perhaps after a plus sign. -/
def number? (s : String) : Option Nat :=
  let digits :=
    match s.toList with
    | '+' :: rest => rest
    | cs => cs
  if digits.isEmpty || !digits.all Char.isDigit then none
  else
    let n := Nat.ofDigitChars 10 digits 0
    if n < UInt64.size then some n else none

namespace Settings

/-- Takes note of an option without a value. Each may stand once. -/
def addFlag (s : Settings) (f : Flag) : Except Stop Settings :=
  if s.flags.contains f then .error .wrongUsage
  else
    match f with
    | .version => .error (.answered .version)
    | .help => .error (.answered .help)
    | _ => .ok { s with flags := f :: s.flags }

def addValue (s : Settings) (f : Flag) (value : String) : Except Stop Settings := do
  let s ← s.addFlag f
  match f with
  | .batch =>
    match number? value with
    | some n => .ok { s with batch := n }
    | none => .error .wrongUsage
  | _ => if value.isEmpty then .error .wrongUsage else .ok { s with output := some value }

def addInput (s : Settings) (path : String) : Except Stop Settings :=
  if s.input.isSome || path.isEmpty then .error .wrongUsage
  else .ok { s with input := some path }

/-- Output cannot be both verbose and silent. -/
def isConsistent (s : Settings) : Bool :=
  !(s.flags.contains .verbose && s.flags.contains .silent)

def dialect (s : Settings) : Dialect where
  shiftsInPlace := s.flags.contains .shiftsInPlace
  keepsIndex := s.flags.contains .keepsIndex
  flagFirst := s.flags.contains .flagFirst

def layout (s : Settings) : Layout :=
  { remarks := !s.flags.contains .noRemarks }

end Settings

/-- Whether an argument is an option, or starts what cannot be an option's value. A single hyphen
is an ordinary word. -/
def isOptionLike (arg : String) : Bool :=
  arg.startsWith "-" && arg != "-"

/-- The options of a group of letters. If the last one takes a value that is not part of the
group, it is returned. -/
def addLetters (level : Level) : List Char → Settings → Except Stop (Settings × Option Flag)
  | [], s => .ok (s, none)
  | c :: rest, s =>
    match (Flag.ofLetter c).filter (·.allowed level) with
    | none => .error .wrongUsage
    | some f =>
      if f.takesValue then
        match rest with
        | [] => .ok (s, some f)
        | '=' :: value => (s.addValue f (String.ofList value)).map (·, none)
        | value => (s.addValue f (String.ofList value)).map (·, none)
      else do addLetters level rest (← s.addFlag f)

/-- The option of a long form. If it takes a value that is not part of the argument, it is
returned. -/
def addLong (level : Level) (body : List Char) (s : Settings) :
    Except Stop (Settings × Option Flag) :=
  let name := String.ofList (body.takeWhile (· != '='))
  let value :=
    match body.dropWhile (· != '=') with
    | [] => none
    | _ :: value => some (String.ofList value)
  match (Flag.ofLong name).filter (·.allowed level), value with
  | none, _ => .error .wrongUsage
  | some f, none => if f.takesValue then .ok (s, some f) else (s.addFlag f).map (·, none)
  | some f, some value =>
    if f.takesValue then (s.addValue f value).map (·, none) else .error .wrongUsage

def addOption (level : Level) (arg : String) (s : Settings) :
    Except Stop (Settings × Option Flag) :=
  match arg.toList with
  | '-' :: '-' :: body => addLong level body s
  | '-' :: letters => addLetters level letters s
  | _ => .error .wrongUsage

/-- Reads the arguments of a command. After `--` every argument is an input file. -/
def readCommand (level : Level) : (literal : Bool) → List String → Settings → Except Stop Settings
  | _, [], s => if s.input.isSome && s.isConsistent then .ok s else .error .wrongUsage
  | true, arg :: rest, s => do readCommand level true rest (← s.addInput arg)
  | false, arg :: rest, s =>
    if arg = "--" then readCommand level true rest s
    else if isOptionLike arg then
      match addOption level arg s with
      | .error stop => .error stop
      | .ok (s, none) => readCommand level false rest s
      | .ok (s, some f) =>
        match rest with
        | [] => .error .wrongUsage
        | value :: rest =>
          if isOptionLike value then .error .wrongUsage
          else do readCommand level false rest (← s.addValue f value)
    else do readCommand level false rest (← s.addInput arg)

def readProgram : List String → Settings → Except Stop Invocation
  | [], _ => .error .wrongUsage
  | arg :: rest, s =>
    if arg = "--" then .error .wrongUsage
    else if isOptionLike arg then
      match addOption .program arg s with
      | .error stop => .error stop
      | .ok (s, _) => readProgram rest s
    else
      let command (level : Level) (invocation : Settings → Invocation) : Except Stop Invocation := do
        let settings ← readCommand level false rest {}
        if s.isConsistent then .ok (invocation settings) else .error .wrongUsage
      match arg with
      | "decompile" => command .decompile .decompile
      | "tables" => command .tables .tables
      | "help" =>
        if rest = [] ∨ rest = ["decompile"] ∨ rest = ["tables"] ∨ rest = ["help"] then .ok .help
        else .error .wrongUsage
      | _ => .error .wrongUsage

def parse (args : List String) : Option Invocation :=
  match readProgram args {} with
  | .ok i | .error (.answered i) => some i
  | .error .wrongUsage => none

def decompileText (s : Settings) (rom : Array UInt8) : Except Error String := do
  let p ← Pipeline.ofRom rom s.dialect
  (← ((p.withBatch s.batch).withLayout s.layout).run.finalize).source rom.size

def tablesText (s : Settings) (rom : Array UInt8) : Except Error String :=
  (Analysis.ofRom rom s.dialect).map fun a => (Report.ofAnalysis a).text

/-- What commands need of the machine that they run on. -/
structure Host (m : Type → Type) where
  /-- The content of a file, if it can be read. -/
  read : String → m (Option (Array UInt8))
  /-- Writes a file and says whether that succeeded. -/
  write : String → String → m Bool
  /-- Writes to standard output. -/
  print : String → m PUnit
  /-- Tells the user what went wrong. -/
  complain : String → m PUnit

def success : UInt32 := 0

def failure : UInt32 := 1

def usage : UInt32 := 2

/-- Reads the input, makes a text of it and writes that to the output file, or else to standard
output. -/
def convert {m : Type → Type} [Monad m] (host : Host m) (s : Settings)
    (text : Array UInt8 → Except Error String) : m UInt32 := do
  match ← host.read (s.input.getD "") with
  | none =>
    host.complain "cannot read the input file"
    return failure
  | some rom =>
    match text rom with
    | .error e =>
      host.complain e.message
      return failure
    | .ok text =>
      match s.output with
      | none =>
        host.print text
        return success
      | some path =>
        if ← host.write path text then return success
        else
          host.complain "cannot write the output file"
          return failure

def run {m : Type → Type} [Monad m] (host : Host m) (args : List String) : m UInt32 := do
  match parse args with
  | none =>
    host.complain "usage: (decompile | tables) ROM [options]"
    return usage
  | some .version =>
    host.print "c8d 0.1.0\n"
    return success
  | some .help =>
    host.print "usage: (decompile | tables) ROM [options]\n"
    return success
  | some (.decompile s) => convert host s (decompileText s)
  | some (.tables s) => convert host s (tablesText s)

end OctoLift.CommandLine
