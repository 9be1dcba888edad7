import TypeFlow.CommandLine

/-!
# The program
-/

def readFile? (path : String) : IO TypeFlow.FileContent := do
  try
    return some (← IO.FS.readBinFile path)
  catch _ => return none

def main (args : List String) : IO UInt32 := do
  match TypeFlow.Command.parse? args with
  | none =>
    IO.eprintln "usage: (analyze | watch) MODEL --entry METHOD [--config FILE] [--precise] [--json] [-v]"
    return 2
  | some c =>
    let model ← readFile? c.model
    let config ← match c.config? with
      | some path => readFile? path
      | none => pure none
    let files := fun path =>
      if path = c.model then model else if some path = c.config? then config else none
    let outcome := c.run files
    IO.print outcome.output
    return UInt32.ofNat outcome.code
