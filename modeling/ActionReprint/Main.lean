import ActionReprint.Program

/-!
The command line program over the files of the machine. Colours need the variable
that forces them, unless the error stream is a terminal.
-/

open ActionReprint

instance : Storage IO where
  read path := do
    try
      let text ← IO.FS.readFile path.text
      return some text
    catch _ => return none
  isFile path := do
    try
      let place ← IO.FS.realPath path.text
      return (← place.metadata).type == .file
    catch _ => return false
  write path text := do
    try
      IO.FS.writeFile path.text text
      return true
    catch _ => return false

def main (argv : List String) : IO UInt32 := do
  let directory ← IO.currentDir
  let stderr ← IO.getStderr
  let isTerminal ← stderr.isTty
  let forced := (← IO.getEnv "CLICOLOR_FORCE").any (· != "0")
  let result ← Program.execute ⟨isTerminal, forced || isTerminal⟩ ⟨directory.toString⟩ argv
  IO.print result.stdout
  IO.eprint result.stderr
  return UInt32.ofNat result.exitCode
