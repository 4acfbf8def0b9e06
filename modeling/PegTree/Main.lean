import PegTree.Command.Run

/-!
# The program

The outer layer: it loads what the command line refers to, runs the command, prints what the run has
printed, and reports a failure on standard error, with its code in front.
-/

namespace PegTree

/-- Loads a file, or a folder with all that lies below; none if there is neither. -/
partial def loadEntry (path : String) : IO (Option Entry) := do
  if path.isEmpty then return none
  let place := (← IO.currentDir) / path
  if ← place.isDir then
    let mut entries : List (String × Entry) := []
    for item in ← place.readDir do
      match ← loadEntry (path ++ "/" ++ item.fileName) with
      | some e => entries := (item.fileName, e) :: entries
      | none => pure ()
    return some (.folder ⟨entries⟩)
  else
    try
      return some (.file (← IO.FS.readBinFile place).toList)
    catch _ =>
      return none

/-- Loads the paths that a command asks to see. -/
def loadView (paths : List String) : IO FileView := do
  let loaded ← paths.filterMapM fun path => do
    return (← loadEntry path).map fun e => (path, e)
  return FileView.ofLoaded loaded

/-- Colours are used unless the terminal has none or they are switched off. -/
def chooseColoring : IO Coloring := do
  let terminal ← IO.getEnv "TERM"
  let off ← IO.getEnv "NO_COLOR"
  return if off.isNone && terminal.any (· != "dumb") then .ansi else .plain

end PegTree

/-- Runs the program on the arguments of the command line. -/
def main (arguments : List String) : IO UInt32 := do
  let paths := ((PegTree.Command.ofArguments arguments).map PegTree.Command.paths).getD []
  let view ← PegTree.loadView paths
  let report := PegTree.runProgram (← PegTree.chooseColoring) view arguments
  IO.print report.output
  match report.failure with
  | some failure =>
    let d := failure.diagnostic
    IO.eprintln (d.code ++ ": " ++ d.message)
    if let some help := d.help then IO.eprintln ("help: " ++ help)
  | none => if report.exitCode = 2 then IO.eprintln "unusable command line"
  return UInt32.ofNat report.exitCode
