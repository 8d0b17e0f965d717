import Declass.Basic

/-!
# Documents

The text of a generated file is a list of lines, empty lines that never double, and indented blocks. `Document.render` writes them,
and `reindent` moves the lines of a body to the left margin, where they keep their distances.
-/

namespace Declass

/-- A part of a document. -/
inductive Item where
  | line (text : Text)
  /-- One empty line, unless one stands there or nothing does. -/
  | blank
  | block (head : Text) (body : List Text) (foot : Text)
deriving DecidableEq

abbrev Document := List Item

namespace Document

/-- A line after the text, `depth` levels deep unless it is empty. -/
def addLine (depth : Nat) (out line : Text) : Text :=
  let margin := if line.isEmpty then [] else List.replicate (4 * depth) ' '
  out ++ margin ++ line ++ "\n"

def emit (out : Text) : Item → Text
  | .line text => addLine 0 out text
  | .blank => if out.isEmpty || Text.endsWith out "\n\n" then out else out ++ "\n"
  | .block head body foot => addLine 0 (body.foldl (addLine 1) (addLine 0 out head)) foot

/-- The text with a single line feed where it ends with several. -/
def trimEndLines (out : Text) : Text :=
  if out.getLast? = some '\n' then Text.dropEndWhile (· = '\n') out ++ "\n" else out

/-- The text of a document. -/
def render (d : Document) : Text :=
  trimEndLines (d.foldl emit [])

end Document

/-! ## Generated files -/

/-- What the user chooses of the output. -/
structure OutputOptions where
  deviceHeader : Bool := true
  sharedHeader : Text := "shared_definitions.h"
  /-- The oscillator frequency when the build defines none. -/
  xtalFreq : Nat := 4000000
deriving DecidableEq

/-- A file of the output. -/
structure GeneratedFile where
  name : Text
  document : Document
deriving DecidableEq

namespace GeneratedFile

def contents (f : GeneratedFile) : Text :=
  f.document.render

def isHeader (f : GeneratedFile) : Bool :=
  Text.endsWith f.name ".h"

end GeneratedFile

namespace Document

def banner (source : Text) : Document :=
  [.line ("/* Generated by xc8pp from " ++ source ++ ". Do not edit. */")]

def includeLocal (name : Text) : Item :=
  .line ("#include \"" ++ name ++ "\"")

def standardIncludes : Document :=
  [.line "#include <stdint.h>", .line "#include <stdbool.h>", .line "#include <stddef.h>"]

def deviceInclude (o : OutputOptions) : Document :=
  if o.deviceHeader then [.line "#include <xc.h>"] else []

/-- The oscillator frequency, unless the build defines it. -/
def xtalDefault (o : OutputOptions) : Document :=
  [.line "#ifndef _XTAL_FREQ", .line ("#define _XTAL_FREQ " ++ Text.ofNat o.xtalFreq), .line "#endif"]

/-- The guard macro: letters and digits in upper case, `_` for the rest. -/
def guardName (stem : Text) : Text :=
  let guard := stem.map fun c => if c.isAlphanum then c.toUpper else '_'
  (if guard.head?.any Char.isDigit then '_' :: guard else guard) ++ "_H"

/-- A header: its banner, and its content between the lines of its guard. -/
def guarded (source stem : Text) (content : Document) : Document :=
  let guard := guardName stem
  banner source ++ [.line ("#ifndef " ++ guard), .line ("#define " ++ guard), .blank] ++ content ++
    [.line ("#endif /* " ++ guard ++ " */")]

end Document

/-! ## Indentation of bodies -/

namespace Indent

/-- The width of a text. A tab is four columns. -/
def columns (t : Text) : Nat :=
  t.foldr (fun c n => (if c = '\t' then 4 else 1) + n) 0

/-- The columns before the first character that is not blank. -/
def depth (line : Text) : Nat :=
  columns (line.takeWhile Text.isBlank)

/-- The least depth of the lines that hold more than blanks. -/
def margin (lines : List Text) : Nat :=
  (((lines.filter (!Text.allBlank ·)).map depth).min?).getD 0

/-- A line moved left by `n` columns, indented by spaces. -/
def moveLeft (n : Nat) (line : Text) : Text :=
  let content := Text.trimStart line
  if content.isEmpty then [] else List.replicate (depth line - n) ' ' ++ content

def trimEmpty (lines : List Text) : List Text :=
  ((lines.dropWhile List.isEmpty).reverse.dropWhile List.isEmpty).reverse

end Indent

/-- The lines of a body at the left margin. -/
def reindent (body : Text) : List Text :=
  match Text.lines body with
  | [] => []
  | first :: rest =>
    let rest := rest.map Text.trimEnd
    Indent.trimEmpty (Text.trim first :: rest.map (Indent.moveLeft (Indent.margin rest)))

end Declass
