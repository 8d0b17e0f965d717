import Declass.Path.Basic

/-!
# Source files

The role of a source file, decided by its extension, and the corpus of source texts that one run may search. A corpus
holds at most one text per path; its entries keep their order and the first spelling of their path.
-/

namespace Declass

inductive FileKind where
  | header
  | implementation
  | other
deriving DecidableEq

namespace FileKind

/-- Extensions of headers, in the order in which they are tried. -/
def headerExtensions : List Text :=
  ["hpp", "h", "hxx"]

/-- Extensions of implementation files, in order of trial. -/
def implementationExtensions : List Text :=
  ["cpp", "cc", "cxx", "c++"]

def ofPath (p : Path) : FileKind :=
  match p.extension? with
  | none => .other
  | some ext =>
    if headerExtensions.contains ext then .header
    else if implementationExtensions.contains ext then .implementation
    else .other

end FileKind

structure SourceFile where
  path : Path
  content : Text
deriving DecidableEq

namespace SourceFile

def kind (f : SourceFile) : FileKind :=
  FileKind.ofPath f.path

/-- The file's name without directories, empty if there is none. -/
def fileName (f : SourceFile) : Text :=
  f.path.fileName?.getD []

end SourceFile

/-- The texts of one run, each under the first spelling of its path. -/
structure Corpus where
  entries : List (Path × SourceFile) := []
deriving DecidableEq

namespace Corpus

def insert (c : Corpus) (path : Path) (content : Text) : Corpus :=
  let file : SourceFile := { path, content }
  { entries := Table.upsert (fun e => e.1.same path) (fun e => (e.1, file)) (path, file) c.entries }

/-- The corpus with the text of a path that it does not hold yet. -/
def append (c : Corpus) (path : Path) (content : Text) : Corpus :=
  { entries := c.entries ++ [(path, { path, content })] }

def get? (c : Corpus) (path : Path) : Option SourceFile :=
  (c.entries.find? fun e => e.1.same path).map Prod.snd

def paths (c : Corpus) : List Path :=
  c.entries.map Prod.fst

def files (c : Corpus) : List SourceFile :=
  c.entries.map Prod.snd

def ofList (files : List (Path × Text)) : Corpus :=
  files.foldl (fun c f => c.insert f.1 f.2) {}

end Corpus

end Declass
