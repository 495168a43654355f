import Wma.CommandLine.Run

/-!
# The program

Connects the command to the files, the arguments and the exit code of the process.
-/

namespace Wma.CommandLine

def files : Directory IO where
  read path := do
    try return some (← IO.FS.readBinFile path).data catch _ => return none
  write path bytes := do
    try
      IO.FS.writeBinFile path ⟨bytes⟩
      return true
    catch _ => return false

def help : String :=
  "Usage: wma_decode [OPTIONS] --output <OUTPUT> <FILE>"

end Wma.CommandLine

open Wma.CommandLine in
/-- Runs the command with the arguments of the process. -/
def main (args : List String) : IO UInt32 := do
  let outcome ← run files args
  match outcome with
  | .done => pure ()
  | .stopped .information => IO.println help
  | .stopped .usage => IO.eprintln help
  | .failed f => IO.eprintln ("Error: " ++ f.message)
  return UInt32.ofNat outcome.code
