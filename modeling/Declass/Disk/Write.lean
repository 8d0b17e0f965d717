import Declass.Disk.Basic

/-!
# Changes to a disk

Putting a file or a directory on a disk. A failed step leaves the disk as it was; making a directory with those above it
keeps the ones it made before it failed.
-/

namespace Declass

namespace Disk

variable (d : Disk)

def put (l : Location) (n : Node) : Disk :=
  { d with entries := Table.upsert (fun e => e.1 = l) (fun _ => (l, n)) (l, n) d.entries }

def walkToDirectory (l : Location) (pieces : List Text) : Except DiskError Location := do
  let l ← d.walk l pieces
  d.step l []

def newPlace (l : Location) (name : Text) : Except DiskError Location :=
  if Text.byteSize name > nameLimit then .error .nameTooLong else .ok (l ++ [name])

def write (p : Path) (bytes : List UInt8) : Except DiskError Disk := do
  let (l, pieces) ← d.start p
  let name := pieces.getLast?.getD []
  let l ← d.walkToDirectory l pieces.dropLast
  if Path.isFiller name || name = ".." then .error .isDirectory
  else
    let place ← newPlace l name
    if d.node? place = some .directory then .error .isDirectory
    else .ok (d.put place (.file bytes))

/-- Makes one directory. Slashes at the end do not count. -/
def makeDirectory (p : Path) : Except DiskError Disk := do
  let (l, pieces) ← d.start p
  let pieces := (pieces.reverse.dropWhile List.isEmpty).reverse
  let name := pieces.getLast?.getD []
  let l ← d.walkToDirectory l pieces.dropLast
  if Path.isFiller name || name = ".." then .error .alreadyThere
  else
    let place ← newPlace l name
    if (d.node? place).isSome then .error .alreadyThere
    else .ok (d.put place .directory)

/-- Makes the first of the directories, each in the next one. -/
def makeWithin (d : Disk) : List Path → Disk × Option DiskError
  | [] => (d, none)
  | p :: above =>
    if p.components.isEmpty then (d, none)
    else
      match d.makeDirectory p with
      | .ok d' => (d', none)
      | .error .missing =>
        match makeWithin d above with
        | (d', some e) => (d', some e)
        | (d', none) =>
          match d'.makeDirectory p with
          | .ok d'' => (d'', none)
          | .error e => (d', if d'.isDirectory p then none else some e)
      | .error e => (d, if d.isDirectory p then none else some e)

/-- Makes a directory and those above it; what is there already stays. -/
def makeDirectories (p : Path) : Disk × Option DiskError :=
  d.makeWithin p.ancestors

/-- The files that are new or other than on the disk `old`. -/
def changesSince (old : Disk) : List (Location × List UInt8) :=
  d.entries.filterMap fun (l, n) =>
    match n with
    | .file bytes => if old.node? l = some n then none else some (l, bytes)
    | .directory => none

end Disk

end Declass
