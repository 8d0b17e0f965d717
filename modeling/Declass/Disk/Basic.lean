import Declass.Path.Basic
import Declass.Text.Utf8

/-!
# Disks

A disk is a finite tree of directories and files with a current directory. A path is looked up piece by piece, each from a
directory, so `a/../b` names nothing when `a` is missing.
-/

namespace Declass

/-- A place in the tree: the names on the way from the root. -/
abbrev Location := List Text

/-- What is at a location. -/
inductive Node where
  | directory
  | file (bytes : List UInt8)
deriving DecidableEq

def Node.size : Node → Nat
  | .directory => 0
  | .file bytes => bytes.length

/-- Why the disk refuses. -/
inductive DiskError where
  | missing
  | notDirectory
  | isDirectory
  | alreadyThere
  | nameTooLong
  /-- The path holds a zero character. -/
  | badPath
  /-- The bytes of the file are no UTF-8. -/
  | notText
deriving DecidableEq

namespace DiskError

def message : DiskError → Text
  | .missing => "No such file or directory (os error 2)"
  | .notDirectory => "Not a directory (os error 20)"
  | .isDirectory => "Is a directory (os error 21)"
  | .alreadyThere => "File exists (os error 17)"
  | .nameTooLong => "File name too long (os error 36)"
  | .badPath => "file name contained an unexpected NUL byte"
  | .notText => "stream did not contain valid UTF-8"

end DiskError

/-- The directories and files, and the place that relative paths start from. -/
structure Disk where
  cwd : Location := []
  entries : List (Location × Node) := []
deriving DecidableEq

namespace Disk

variable (d : Disk)

def nameLimit : Nat := 255

def pathLimit : Nat := 4096

/-- What stands at a place. The root is always a directory. -/
def node? (l : Location) : Option Node :=
  if l.isEmpty then some .directory else (d.entries.find? fun e => e.1 = l).map Prod.snd

/-- The location of an entry of a directory. -/
def child (l : Location) (name : Text) : Except DiskError Location :=
  if Text.byteSize name > nameLimit then .error .nameTooLong
  else if (d.node? (l ++ [name])).isSome then .ok (l ++ [name])
  else .error .missing

def step (l : Location) (piece : Text) : Except DiskError Location :=
  match d.node? l with
  | some .directory =>
    if Path.isFiller piece then .ok l
    else if piece = ".." then .ok l.dropLast
    else d.child l piece
  | some (.file _) => .error .notDirectory
  | none => .error .missing

def walk (l : Location) (pieces : List Text) : Except DiskError Location :=
  pieces.foldlM d.step l

/-- The place where a path starts, and the pieces between its slashes. -/
def start (p : Path) : Except DiskError (Location × List Text) :=
  if p.text.elem (Char.ofNat 0) then .error .badPath
  else if p.text.isEmpty then .error .missing
  else if Text.byteSize p.text ≥ pathLimit then .error .nameTooLong
  else .ok (if p.isAbsolute then [] else d.cwd, List.splitOn '/' p.text)

/-- The location that a path leads to. -/
def resolve (p : Path) : Except DiskError Location := do
  let (l, pieces) ← d.start p
  d.walk l pieces

def lookup? (p : Path) : Option Node :=
  match d.resolve p with
  | .ok l => d.node? l
  | .error _ => none

def isFile (p : Path) : Bool :=
  match d.lookup? p with
  | some (.file _) => true
  | _ => false

def isDirectory (p : Path) : Bool :=
  d.lookup? p = some .directory

/-- The bytes of a file. -/
def read (p : Path) : Except DiskError (List UInt8) := do
  match d.node? (← d.resolve p) with
  | some (.file bytes) => .ok bytes
  | some .directory => .error .isDirectory
  | none => .error .missing

def readText (p : Path) : Except DiskError Text := do
  match Text.ofUtf8? (← d.read p) with
  | some t => .ok t
  | none => .error .notText

def size : Nat :=
  d.entries.foldr (fun e n => e.2.size + n) 0

end Disk

end Declass
