import Declass.Disk.Basic
import Declass.Source.Corpus

/-!
# Related files

Which files belong together: a source file and the header with its stem, and a file and the headers that it includes with
quotation marks from its own directory.
-/

namespace Declass

namespace Disk

variable (d : Disk)

def siblings (p : Path) : List Path :=
  let extensions :=
    match FileKind.ofPath p with
    | .implementation => FileKind.headerExtensions
    | .header => FileKind.implementationExtensions
    | .other => []
  (extensions.map p.withExtension).filter d.isFile

/-- The paths with one more at the end, unless it is among them. -/
def addPath (paths : List Path) (p : Path) : List Path :=
  if paths.any p.same then paths else paths ++ [p]

/-- The inputs, each followed by its siblings, without repetitions. -/
def related (inputs : List Path) : List Path :=
  (inputs.flatMap fun p => p :: d.siblings p).foldl addPath []

/-- The name in an include line with quotes. The last may be missing. -/
def includeName? (line : Text) : Option Text := do
  let rest ← Text.after? "#" (Text.trimStart line)
  let rest ← Text.after? "include" (Text.trimStart rest)
  let rest ← Text.after? "\"" (Text.trimStart rest)
  return rest.takeWhile (· ≠ '"')

/-- The files that a text at `p` includes from its own directory. -/
def quotedIncludes (p : Path) (content : Text) : List Path :=
  let dir : Path := p.parent?.getD ""
  (((Text.lines content).filterMap includeName?).map fun name => dir.join ⟨name⟩).filter d.isFile

end Disk

end Declass
