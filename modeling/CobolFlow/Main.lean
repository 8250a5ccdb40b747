import CobolFlow.CommandLine.Commands

/-!
# The program

The command line over the files of the system.
-/

namespace CobolFlow.CommandLine

/-- Whether an action succeeds. -/
def succeeds (action : IO Unit) : IO Bool := do
  try
    action
    return true
  catch _ => return false

instance : Storage IO where
  readFile path := do
    try
      return some (← IO.FS.readFile path)
    catch _ => return none
  isThere path := succeeds do
    let _ ← IO.FS.Handle.mk path .read
  makeFolder path := succeeds (IO.FS.createDirAll path)
  writeFile path text := succeeds (IO.FS.writeFile path text)

end CobolFlow.CommandLine

open CobolFlow.CommandLine in
def main (args : List String) : IO UInt32 := do
  let terminal : Terminal :=
    { noColor := (← IO.getEnv "NO_COLOR").isSome, name := ← IO.getEnv "TERM" }
  let outcome : Outcome ← run terminal args
  IO.print outcome.out
  IO.eprint outcome.err
  if let some failure := outcome.failure then
    IO.eprintln s!"Error: {failure.message}"
  return outcome.exit.toUInt32
