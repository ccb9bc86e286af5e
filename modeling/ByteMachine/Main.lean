import ByteMachine.Command.Execute

/-!
The program. It shows a command the files that the arguments name, and then writes what the command
made of them.
-/
namespace ByteMachine

/-- What stands at a place, if anything does. -/
def loadEntry (p : Place) : IO (Option Entry) := do
  try
    return some (.file (← IO.FS.readBinFile p.text).toList)
  catch
    | .inappropriateType .. => return some .folder
    | _ => return none

/-- The entries at the places that a command may come across. -/
def loadDirectory (args : List String) : IO Directory := do
  let mut directory : Directory := []
  for arg in args do
    let path := Path.ofText arg
    for n in List.range (path.steps.length + 1) do
      let p := Path.place { path with steps := path.steps.take n }
      if let some entry ← loadEntry p then directory := directory.set p entry
  return directory

/-- Writes the files that differ from what was loaded. -/
def saveDirectory (old new : Directory) : IO Unit := do
  for (p, entry) in new do
    if old.find? p ≠ some entry then
      if let .file bytes := entry then
        IO.FS.writeBinFile p.text (ByteArray.mk bytes.toArray)

end ByteMachine

open ByteMachine in
def main (args : List String) : IO UInt32 := do
  let directory ← loadDirectory args
  let (report, changed) := Command.execute directory args
  saveDirectory directory changed
  (← IO.getStdout).write (ByteArray.mk report.stdout.toArray)
  IO.eprint report.stderr
  return UInt32.ofNat report.exitCode
