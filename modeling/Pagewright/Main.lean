import Pagewright.Command.Run

/-! The program on the files of the machine. -/

namespace Pagewright

def succeeds (action : IO Unit) : IO Bool := do
  try
    action
    return true
  catch _ => return false

/-- The folder of a path, up to its last slash. -/
def folderOf (path : String) : String :=
  String.ofList (path.toList.reverse.dropWhile (· ≠ '/')).reverse

def machineFiles : FileAccess IO where
  read path := do
    try
      return some (← IO.FS.readFile path)
    catch _ => return none
  write path content := succeeds (IO.FS.writeFile path content)
  createAbove path := succeeds (IO.FS.createDirAll (folderOf path))

def machineEnvironment : IO Environment := do
  let mut found : Environment := []
  for name in Environment.names do
    if let some value ← IO.getEnv name then
      found := found ++ [(name, value)]
  return found

end Pagewright

/-- Runs a command line, prints what it leaves, and exits with its code. -/
def main (arguments : List String) : IO UInt32 := do
  let environment ← Pagewright.machineEnvironment
  let outcome ← Pagewright.runProgram Pagewright.machineFiles environment arguments
  IO.print outcome.output
  IO.eprint outcome.complaint
  return UInt32.ofNat outcome.code
