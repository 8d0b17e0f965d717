import Declass.Dump.Reader

/-!
# Declaration trees

A declaration tree, the dumps that show it, and its declarations by recursion on its nodes. A node is told its true ancestors; what
stands below a callable or a constant is handed up to it.
-/

namespace Declass

open DumpLine

namespace Dump

/-- Sibling nodes of a declaration tree. A label is what a line shows. -/
inductive Forest where
  | empty
  | node (label : Text) (below after : Forest)

/-- A declaration tree: the label of its root, and the nodes below the root. -/
structure Tree where
  root : Text
  below : Forest

/-! ## Dumps of a tree -/

/-- A label is on one line and starts with a character that is not drawn. -/
structure IsLabel (label : Text) : Prop where
  noLineFeed : '\n' ∉ label
  noReturn : label.getLast? ≠ some '\r'
  starts : (withoutColours label).head?.any (!isDrawing ·)

/-- The line of a node: two characters of any drawing for each level. -/
def IsLine (depth : Nat) (label line : Text) : Prop :=
  ∃ drawing : Text, drawing.length = 2 * depth ∧ drawing.all isDrawing ∧ line = drawing ++ label

/-- The lines that show sibling nodes, each with the nodes below it. -/
inductive Forest.Shows : Nat → Forest → List Text → Prop
  | empty (depth : Nat) : Shows depth .empty []
  | node {depth : Nat} {label line : Text} {below after : Forest} {inner later : List Text} (hl : IsLabel label)
      (hline : IsLine depth label line) (hbelow : Shows (depth + 1) below inner) (hafter : Shows depth after later) :
      Shows depth (.node label below after) (line :: (inner ++ later))

/-- A text of the given lines. The last may lack its line feed. -/
inductive WrittenLines : List Text → Text → Prop
  | none : WrittenLines [] []
  | last (line : Text) (h : line ≠ []) : WrittenLines [line] line
  | feed {lines : List Text} {t : Text} (line : Text) (h : WrittenLines lines t) :
      WrittenLines (line :: lines) (line ++ '\n' :: t)
  | returnFeed {lines : List Text} {t : Text} (line : Text) (h : WrittenLines lines t) :
      WrittenLines (line :: lines) (line ++ '\r' :: '\n' :: t)

/-- The labels of all nodes. -/
def Forest.labels : Forest → List Text
  | .empty => []
  | .node label below after => label :: (below.labels ++ after.labels)

/-- A dump of the tree: its root at the margin and the other nodes below it. -/
def Tree.IsDump (t : Tree) (dump : Text) : Prop :=
  ∃ lines, Forest.Shows 0 (.node t.root t.below .empty) lines ∧ WrittenLines lines dump

instance (label : Text) : Decidable (IsLabel label) :=
  decidable_of_iff ('\n' ∉ label ∧ label.getLast? ≠ some '\r' ∧
      (withoutColours label).head?.any (!isDrawing ·))
    ⟨fun ⟨h1, h2, h3⟩ => ⟨h1, h2, h3⟩, fun h => ⟨h.1, h.2, h.3⟩⟩

/-- The usual drawing: a bar for each level above, and a branch. -/
def drawing : Nat → Text
  | 0 => []
  | depth + 1 => (List.replicate depth ['|', ' ']).flatten ++ ['|', '-']

/-- The lines of sibling nodes with the usual drawing. -/
def Forest.print (depth : Nat) : Forest → List Text
  | .empty => []
  | .node label below after => (drawing depth ++ label) :: (below.print (depth + 1) ++ after.print depth)

/-- The dump of the tree with the usual drawing. -/
def Tree.print (t : Tree) : Text :=
  (Forest.print 0 (.node t.root t.below .empty)).flatMap (· ++ ['\n'])

/-! ## Declarations of a tree -/

/-- What a node is to those below it: its role without a position. -/
inductive Standing where
  | topLevel
  | ignored
  | record (name : Text)
  | enumeration (name : Text)
  | constant
  | callable
  | other
deriving DecidableEq

namespace Standing

/-- Descendants add their parts to the report of such a node. -/
def collects : Standing → Bool
  | constant | callable => true
  | _ => false

end Standing

/-- The standing that a role gives. -/
def Role.standing : Role → Standing
  | topLevel => .topLevel
  | ignored => .ignored
  | record name => .record name
  | enumeration name => .enumeration name
  | constant _ => .constant
  | callable _ => .callable
  | other => .other

/-- What a node adds to the nearest callable or constant above it. -/
inductive Part where
  /-- A node directly below a callable. -/
  | member (line : DumpLine)
  /-- A node deeper below a callable. -/
  | nested (line : DumpLine)
  /-- A node below a constant, directly or not. -/
  | value (direct : Bool) (line : DumpLine)

namespace Part

/-- The report with the part. -/
def addTo (d : Declaration) : Part → Declaration
  | member line => editCallable (addPart line) d
  | nested line => editCallable (addLocal line) d
  | value direct line => addValue (valueOf? direct line) d

/-- The report with the parts, one after the other. -/
def addAll (parts : List Part) (d : Declaration) : Declaration :=
  parts.foldl addTo d

end Part

/-- What one node does: standing, report, address, and its part above. -/
structure Reading where
  standing : Standing
  report : Option Declaration := none
  address : Option (Text × Text) := none
  part : Option Part := none

namespace Reading

/-- A node that can report a declaration. -/
def ofVisit (v : Visit) : Reading :=
  { standing := (v.role 0).standing, report := v.report, address := v.address }

/-- A part goes to the nearest of the `ancestors` that collects parts. -/
def nestedPart? (ancestors : List Standing) (line : DumpLine) : Option Part :=
  match ancestors.find? Standing.collects with
  | some .callable => some (.nested line)
  | some .constant => some (.value false line)
  | _ => none

/-- What a node does below `ancestors`; below an ignored one, nothing. -/
def ofNode (ancestors : List Standing) (ctx : Context) (line : DumpLine) : Reading :=
  if .ignored ∈ ancestors then { standing := .ignored }
  else
    match ancestors with
    | .topLevel :: _ => ofVisit (visitTopLevel ctx line)
    | .record name :: _ => ofVisit (visitMember ctx name line)
    | .enumeration name :: _ => ofVisit (visitEnumerator name line)
    | .callable :: _ => { standing := .other, part := some (.member line) }
    | .constant :: _ => { standing := .other, part := some (.value true line) }
    | _ => { standing := .other, part := nestedPart? ancestors line }

end Reading

namespace Context

/-- The context at a line: the last file it names is the current one. -/
def enter (ctx : Context) (line : DumpLine) : Context :=
  { ctx with file := line.files.getLast?.or ctx.file }

/-- The context in which the address of a record is known. -/
def know (ctx : Context) (address : Option (Text × Text)) : Context :=
  { ctx with records := address.toList ++ ctx.records }

end Context

/-- What sibling nodes give: context, reports, and parts of a report above. -/
structure Outcome where
  context : Context
  reports : List Declaration := []
  parts : List Part := []

namespace Outcome

/-- A node with what is below and after it. Some nodes take the parts from below. -/
def join (own : Reading) (inner later : Outcome) : Outcome :=
  if own.standing.collects then
    { context := later.context
      reports := (own.report.map (Part.addAll inner.parts)).toList ++ inner.reports ++ later.reports
      parts := own.part.toList ++ later.parts }
  else
    { context := later.context
      reports := own.report.toList ++ inner.reports ++ later.reports
      parts := own.part.toList ++ inner.parts ++ later.parts }

end Outcome

/-- The parts of the line that shows a label, at the margin. -/
def labelLine (label : Text) : DumpLine :=
  (read? (withoutColours label)).getD { depth := 0, kind := [] }

/-- What sibling nodes with the given ancestors, innermost first, give. -/
def Forest.read (ancestors : List Standing) (ctx : Context) : Forest → Outcome
  | .empty => { context := ctx }
  | .node label below after =>
    let here := ctx.enter (labelLine label)
    let own := Reading.ofNode ancestors here (labelLine label)
    let inner := below.read (own.standing :: ancestors) (here.know own.address)
    Outcome.join own inner (after.read ancestors inner.context)

/-- The declarations of a tree, restricted to the given files if any. The root is the translation unit. -/
def Tree.declarations (origins : Option (List Path)) (t : Tree) : List Declaration :=
  let start : Context := { origins := origins.map (·.filterMap Path.fileName?) }
  (t.below.read [.topLevel] (start.enter (labelLine t.root))).reports

end Dump

end Declass
