import OctoLift.CommandLine

/-!
# The program

The command line on the files and streams of the operating system.
-/

namespace OctoLift.CommandLine

/-- The machine that the program runs on. -/
def system : Host IO where
  read path := do
    try
      return some (← IO.FS.readBinFile path).data
    catch _ => return none
  write path text := do
    try
      IO.FS.writeFile path text
      return true
    catch _ => return false
  print text := do
    let out ← IO.getStdout
    out.putStr text
    out.flush
  complain text := IO.eprintln text

end OctoLift.CommandLine

def main (args : List String) : IO UInt32 :=
  OctoLift.CommandLine.run OctoLift.CommandLine.system args
