import Declass.Declaration
import Declass.Dump.Line
import Declass.Dump.Noise

/-!
# Reading a declaration dump

The lines of a dump are the nodes of a tree in preorder. The reader keeps the stack of open nodes, each with the role it gives to
its children. Lines below a declaration add parameters, locals, a body or a value to its report.
-/

namespace Declass

namespace Dump

/-- The role of an open node, with the position of its report. -/
inductive Role where
  | topLevel
  | ignored
  | record (name : Text)
  | enumeration (name : Text)
  | constant (index : Nat)
  | callable (index : Nat)
  /-- Children are other parts of the nearest callable or constant. -/
  | other
deriving DecidableEq

structure Frame where
  depth : Nat
  role : Role
deriving DecidableEq

/-- What reading a line depends on besides the line and its parent. -/
structure Context where
  /-- Files to which top-level declarations are restricted, if any. -/
  origins : Option (List Text) := none
  /-- The file that the dump named last. -/
  file : Option Text := none
  records : List (Text × Text) := []
deriving DecidableEq

namespace Context

def origin (ctx : Context) : Option Path :=
  ctx.file.map Path.mk

/-- Top-level declarations of the current file are wanted. -/
def allows (ctx : Context) : Bool :=
  match ctx.origins with
  | none => true
  | some names => (ctx.origin.bind Path.fileName?).any names.contains

end Context

/-- What a line does. Its node's role depends on the position of the report. -/
structure Visit where
  role : Nat → Role
  report : Option Declaration := none
  address : Option (Text × Text) := none

namespace Visit

def silent (role : Role) : Visit :=
  { role := fun _ => role }

def reporting (d : Declaration) (role : Nat → Role) : Visit :=
  { role, report := some d }

end Visit

/-- Kinds of nodes below which nothing is looked at. -/
def templateKinds : List Text :=
  ["ClassTemplateDecl", "FunctionTemplateDecl", "ClassTemplateSpecializationDecl",
    "ClassTemplatePartialSpecializationDecl", "TypeAliasTemplateDecl", "VarTemplateDecl"]

/-- Words after a variable's type that tell of an initializer. -/
def initWords : List Text :=
  ["cinit", "callinit", "listinit", "parenlistinit"]

/-- Kinds of members that can be written outside their class. -/
def memberKinds : List Text :=
  ["CXXMethodDecl", "CXXConstructorDecl", "CXXDestructorDecl"]

def callableDecl (ctx : Context) (line : DumpLine) (name : Text) : CallableDecl :=
  { name, rawType := line.type.getD [], isStatic := line.hasFlag "static", origin := ctx.origin }

/-- A line below a record, or a member of one written elsewhere. -/
def visitMember (ctx : Context) (owner : Text) (line : DumpLine) : Visit :=
  if line.hasFlag "implicit" then .silent .other
  else if line.kind = "FieldDecl" then
    match line.name?, line.type with
    | some name, some type =>
      if Noise.isRegisterField name then .silent .other
      else .reporting (.field owner { name, type }) fun _ => .other
    | _, _ => .silent .other
  else if line.kind = "CXXMethodDecl" then
    match line.name? with
    | some name =>
      if Text.startsWith name "operator" then .silent .ignored
      else .reporting (.method owner (callableDecl ctx line name)) .callable
    | none => .silent .ignored
  else if line.kind = "CXXConstructorDecl" then
    .reporting (.constructor owner (callableDecl ctx line owner)) .callable
  else if line.kind = "CXXDestructorDecl" then .reporting (.destructor owner) fun _ => .ignored
  else if line.kind = "CXXRecordDecl" || templateKinds.contains line.kind then .silent .ignored
  else .silent .other

/-- A record at top level. Unnamed ones, unions and the toolchain's are passed over. -/
def visitRecord (ctx : Context) (line : DumpLine) : Visit :=
  match line.record? with
  | none => .silent .other
  | some (_, none) => .silent .ignored
  | some (keyword, some name) =>
    if keyword = "union" || Noise.isIgnoredClass name then .silent .ignored
    else
      let address := line.address.map fun a => (a, name)
      if line.hasFlag "definition" then
        let word := if keyword = "struct" then RecordKeyword.structWord else .classWord
        { role := fun _ => .record name, report := some (.record name word ctx.origin), address }
      else { role := fun _ => .other, address }

def visitFunction (ctx : Context) (line : DumpLine) : Visit :=
  match line.name? with
  | some name =>
    if Noise.isReservedFunction name then .silent .ignored
    else .reporting (.function (callableDecl ctx line name)) .callable
  | none => .silent .ignored

def visitGlobal (line : DumpLine) : Visit :=
  match line.name?, line.type with
  | some name, some type =>
    if Noise.isSystemVariable name type || line.hasFlag "extern" then .silent .other
    else .reporting (.global { name, type } (initWords.any line.trailing.contains)) fun _ => .other
  | _, _ => .silent .other

def visitEnumeration (line : DumpLine) : Visit :=
  let isKeyword : Text → Bool := fun w => w == "class" || w == "struct"
  match (line.head.filter fun w => !DumpLine.flagWords.contains w && !isKeyword w).getLast? with
  | some name => .reporting (.enumeration name (line.head.any isKeyword)) fun _ => .enumeration name
  | none => .silent .ignored

def visitTopLevel (ctx : Context) (line : DumpLine) : Visit :=
  if templateKinds.contains line.kind then .silent .ignored
  else if line.kind = "LinkageSpecDecl" then .silent .topLevel
  else if line.kind = "NamespaceDecl" then
    .silent (if line.head.getLast?.any Noise.isSystemNamespace then .ignored else .topLevel)
  else if memberKinds.contains line.kind then
    match line.parent.bind fun a => ctx.records.lookup a with
    | some owner => visitMember ctx owner line
    | none => .silent .other
  else if line.hasFlag "implicit" then .silent .other
  else if !ctx.allows then .silent .ignored
  else if line.kind = "CXXRecordDecl" || line.kind = "RecordDecl" then visitRecord ctx line
  else if line.kind = "FunctionDecl" then visitFunction ctx line
  else if line.kind = "VarDecl" then visitGlobal line
  else if line.kind = "EnumDecl" then visitEnumeration line
  else .silent .other

def visitEnumerator (enumeration : Text) (line : DumpLine) : Visit :=
  if line.kind = "EnumConstantDecl" then
    match line.name? with
    | some name => .reporting (.constant enumeration name none) .constant
    | none => .silent .other
  else .silent .other

/-- The value below a constant: `value: Int n` anywhere, or a literal directly below. -/
def valueOf? (direct : Bool) (line : DumpLine) : Option Int :=
  if line.kind = "value:" && line.head.head? == some ("Int" : Text) then line.head[1]?.bind Text.readInteger?
  else if direct && line.kind = "IntegerLiteral" then line.trailing.head?.bind Text.readInteger?
  else none

/-- The report of a constant with its value, the first one given. -/
def addValue (value : Option Int) : Declaration → Declaration
  | .constant enumeration name v => .constant enumeration name (v.or value)
  | d => d

/-- The report of a callable, edited. -/
def editCallable (f : CallableDecl → CallableDecl) : Declaration → Declaration
  | .method owner decl => .method owner (f decl)
  | .constructor owner decl => .constructor owner (f decl)
  | .function decl => .function (f decl)
  | d => d

/-- What a line below a callable adds: a parameter, or that it has a body. -/
def addPart (line : DumpLine) (decl : CallableDecl) : CallableDecl :=
  if line.kind = "ParmVarDecl" then
    { decl with params := decl.params ++ [{ name := line.name?, type := line.type.getD [] }] }
  else if line.kind = "CompoundStmt" then { decl with isDefinition := true }
  else decl

/-- What a line deeper below a callable adds: a local of a new name. -/
def addLocal (line : DumpLine) (decl : CallableDecl) : CallableDecl :=
  match line.name?, line.type with
  | some name, some type =>
    if line.kind = "VarDecl" && !decl.locals.any (·.name = name) then
      { decl with locals := decl.locals ++ [{ name, type }] }
    else decl
  | _, _ => decl

def nearest? (stack : List Frame) : Option Role :=
  stack.findSome? fun f =>
    match f.role with
    | .callable i => some (.callable i)
    | .constant i => some (.constant i)
    | _ => none

/-- The reader after some lines; innermost open node first. -/
structure Reader where
  context : Context := {}
  reports : List Declaration := []
  stack : List Frame := []
deriving DecidableEq

namespace Reader

def edit (r : Reader) (i : Nat) (f : Declaration → Declaration) : Reader :=
  { r with reports := r.reports.modify i f }

/-- The role of the node above a line at `depth`, if known. -/
def parentRole (stack : List Frame) (depth : Nat) : Role :=
  match stack with
  | [] => if depth = 0 then .other else .topLevel
  | f :: _ => if f.depth + 1 = depth then f.role else .other

/-- The reader after a line that may start a declaration, and its role. -/
def take (r : Reader) (v : Visit) : Reader × Role :=
  ({ r with
      reports := r.reports ++ v.report.toList
      context := { r.context with records := v.address.toList ++ r.context.records } },
    v.role r.reports.length)

/-- The reader after a line that is part of the nearest open report. -/
def nested (r : Reader) (line : DumpLine) : Reader :=
  match nearest? r.stack with
  | some (.callable i) => r.edit i (editCallable (addLocal line))
  | some (.constant i) => r.edit i (addValue (valueOf? false line))
  | _ => r

/-- The reader after a line below a node with the role `parent`, and its role. -/
def visitBelow (r : Reader) (parent : Role) (line : DumpLine) : Reader × Role :=
  match parent with
  | .topLevel => r.take (visitTopLevel r.context line)
  | .record name => r.take (visitMember r.context name line)
  | .enumeration name => r.take (visitEnumerator name line)
  | .callable i => (r.edit i (editCallable (addPart line)), .other)
  | .constant i => (r.edit i (addValue (valueOf? true line)), .other)
  | .ignored => (r, .ignored)
  | .other => (r.nested line, .other)

def visit (r : Reader) (line : DumpLine) : Reader :=
  let stack := r.stack.dropWhile fun f => line.depth ≤ f.depth
  let file := line.files.getLast?.or r.context.file
  let r := { r with stack, context := { r.context with file } }
  let (r, role) :=
    if stack.any (·.role = .ignored) then (r, Role.ignored) else r.visitBelow (parentRole stack line.depth) line
  { r with stack := if line.depth = 0 then [] else { depth := line.depth, role } :: stack }

end Reader

/-- The declarations of a dump, restricted to the given files if any. -/
def declarations (origins : Option (List Path)) (dump : Text) : List Declaration :=
  let start : Reader := { context := { origins := origins.map (·.filterMap Path.fileName?) } }
  let lines := (Text.lines dump).filterMap fun line => DumpLine.read? (DumpLine.withoutColours line)
  (lines.foldl Reader.visit start).reports

end Dump

end Declass
