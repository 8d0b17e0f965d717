import Declass.CommandLine.Probe

/-!
# Command line

Copies the part of the real disk that a command line looks at, lets the program work on the copy, and writes the files that it
changed. No compiler is started from here.
-/

namespace Declass.Main

def textOf (l : Location) : String :=
  String.ofList ('/' :: Text.join "/" l)

def look (l : Location) : IO (Option Node) := do
  try
    let path ← IO.FS.realPath (textOf l)
    if ← path.isDir then return some .directory
    else if ← path.pathExists then return some (.file (← IO.FS.readBinFile path).toList)
    else return none
  catch _ => return none

def compile (_ : CompilerCommand) : CompilerRun :=
  .notStarted

/-- The copy of the disk with all that the command line looks at. -/
partial def explore (words : List Text) (known : List Location) (d : Disk) : IO Disk := do
  let fresh := ((CommandLine.places d compile words).filter fun l => !known.contains l).eraseDups
  if fresh.isEmpty then return d
  let mut d := d
  for l in fresh do
    if let some node ← look l then
      d := d.put l node
  explore words (known ++ fresh) d

def save (before after : Disk) : IO Unit := do
  for (l, bytes) in after.changesSince before do
    IO.FS.createDirAll (textOf l.dropLast)
    IO.FS.writeBinFile (textOf l) (ByteArray.mk bytes.toArray)

end Declass.Main

def main (args : List String) : IO UInt32 := do
  let words := args.map String.toList
  let cwd := (List.splitOn '/' (← IO.currentDir).toString.toList).filter (· ≠ [])
  let d ← Declass.Main.explore words [] { cwd }
  let outcome := Declass.CommandLine.execute d Declass.Main.compile words
  Declass.Main.save d outcome.disk
  (← IO.getStderr).putStr (String.ofList outcome.notes)
  (← IO.getStdout).putStr (String.ofList outcome.output)
  return UInt32.ofNat outcome.status
