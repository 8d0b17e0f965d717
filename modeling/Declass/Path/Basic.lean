import Declass.Basic

/-!
# Paths

A path keeps its text and is read as a list of components: an optional root or leading `.`, and names. So `a//b`, `a/./b` and
`a/b/` are the same path as `a/b`. No file system is consulted, so `..` stays.
-/

namespace Declass

structure Path where
  text : Text
deriving DecidableEq

instance : Coe String Path := ⟨fun s => ⟨s⟩⟩

namespace Path

/-- What a path starts with. -/
inductive Anchor where
  | root
  | here
  | none
deriving DecidableEq

inductive Component where
  | root
  | here
  | parent
  | name (text : Text)
deriving DecidableEq

/-- Pieces between slashes that are no components. -/
def isFiller (piece : Text) : Bool :=
  piece.isEmpty || piece == "."

/-- What the path starts with, and the pieces between its slashes. -/
def pieces (p : Path) : Anchor × List Text :=
  match p.text with
  | '/' :: rest => (.root, List.splitOn '/' rest)
  | text =>
    match List.splitOn '/' text with
    | ['.'] :: rest => (.here, rest)
    | parts => (.none, parts)

def assemble : Anchor → List Text → Path
  | .root, parts => ⟨'/' :: Text.join "/" parts⟩
  | .here, [] => "."
  | .here, parts => ⟨"./" ++ Text.join "/" parts⟩
  | .none, parts => ⟨Text.join "/" parts⟩

def components (p : Path) : List Component :=
  let (anchor, parts) := p.pieces
  let lead :=
    match anchor with
    | .root => [Component.root]
    | .here => [Component.here]
    | .none => []
  lead ++ (parts.filter (!isFiller ·)).map fun (part : Text) => if part = ".." then .parent else .name part

/-- Two spellings of one path: the components are the same. -/
def same (p q : Path) : Bool :=
  p.components == q.components

/-- What all spellings of one path share. -/
structure Key where
  count : Nat
  components : List Component
deriving DecidableEq

def key (p : Path) : Key :=
  { count := p.components.length, components := p.components }

theorem key_eq_key_iff {p q : Path} : p.key = q.key ↔ p.same q := by
  simp only [key, same, Key.mk.injEq, beq_iff_eq]
  exact ⟨fun h => h.2, fun h => ⟨congrArg List.length h, h⟩⟩

def isAbsolute (p : Path) : Bool :=
  p.text.head? == some '/'

/-- The pieces without the fillers at the end. -/
def trimFillers (parts : List Text) : List Text :=
  (parts.reverse.dropWhile isFiller).reverse

/-- The path without its last component. A root has no parent. -/
def parent? (p : Path) : Option Path :=
  let (anchor, parts) := p.pieces
  match (trimFillers parts).reverse, anchor with
  | _ :: rest, _ => some (assemble anchor (trimFillers rest.reverse))
  | [], .here => some ""
  | [], _ => none

/-- The name that the path ends with, when it ends with a name. -/
def fileName? (p : Path) : Option Text :=
  match p.components.getLast? with
  | some (.name text) => some text
  | _ => none

/-- A file name around its last dot, which is not its first character. -/
def splitName (name : Text) : Text × Option Text :=
  match Text.cutLast? "." name with
  | some (stem, ext) => if stem.isEmpty then (name, none) else (stem, some ext)
  | none => (name, none)

def stem? (p : Path) : Option Text :=
  p.fileName?.map fun name => (splitName name).1

def extension? (p : Path) : Option Text :=
  p.fileName?.bind fun name => (splitName name).2

def withExtension (p : Path) (ext : Text) : Path :=
  match p.stem? with
  | none => p
  | some stem =>
    let (anchor, parts) := p.pieces
    let name := if ext.isEmpty then stem else stem ++ "." ++ ext
    assemble anchor ((trimFillers parts).dropLast ++ [name])

/-- The path `q` seen from `p`. An absolute path stands for itself. -/
def join (p q : Path) : Path :=
  if q.isAbsolute || p.text.isEmpty then q
  else if p.text.getLast? = some '/' then ⟨p.text ++ q.text⟩
  else ⟨p.text ++ "/" ++ q.text⟩

/-- The path, its parent, and so on, in at most `n` steps. -/
def ancestorsWithin : Nat → Path → List Path
  | 0, p => [p]
  | n + 1, p =>
    match p.parent? with
    | none => [p]
    | some q => p :: ancestorsWithin n q

/-- The path and the directories above it, from the inside out. -/
def ancestors (p : Path) : List Path :=
  ancestorsWithin p.components.length p

end Path

end Declass
