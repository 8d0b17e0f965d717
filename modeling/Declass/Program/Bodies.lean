import Declass.Outline.Scan
import Declass.Program.Basic
import Declass.Source.Corpus

/-!
# Bodies

Each callable of a program gets the source text of its definition from the outlines of the corpus, and each file-scope
variable the text of its initializer. What was found before stays, so filling a program twice changes nothing more.
-/

namespace Declass

structure FileOutline where
  path : Path
  outline : Outline
deriving DecidableEq

namespace Corpus

def outlines (c : Corpus) : List FileOutline :=
  c.files.map fun f => { path := f.path, outline := Outline.ofSource f.content }

end Corpus

structure Candidate where
  file : Path
  definition : Definition
deriving DecidableEq

namespace Candidate

def all (files : List FileOutline) : List Candidate :=
  files.flatMap fun f => f.outline.definitions.map fun d => { file := f.path, definition := d }

/-- The definitions of a member: those in the class block, then the others. -/
def members (files : List FileOutline) (owner name : Text) : List Candidate :=
  let found := (all files).filter fun c => c.definition.owner = some owner && c.definition.name = name
  found.filter (·.definition.inline) ++ found.filter (!·.definition.inline)

def functions (files : List FileOutline) (name : Text) : List Candidate :=
  (all files).filter fun c => c.definition.owner = none && c.definition.name = name

/-- The candidate writes exactly these parameter types, blanks aside. -/
def writes (c : Candidate) (types : List Text) : Bool :=
  c.definition.params.map (Text.withoutBlanks ·.type) == types.map Text.withoutBlanks

def body (c : Candidate) : Body :=
  { text := c.definition.body
    file := c.file
    paramNames := c.definition.params.map WrittenParam.name
    initList := c.definition.initList }

/-- The candidate for `f` among the definitions of its name: by types, else by number, else the only one. -/
def select? (candidates : List Candidate) (f : Callable) (siblings : List Callable) : Option Candidate :=
  let arity := f.params.length
  let similar := candidates.filter (·.definition.params.length = arity)
  let ordinal := ((siblings.filter (·.params.length = arity)).idxOf? f).getD 0
  let byArity := similar[ordinal]?.or similar.head?
  let lone := if candidates.length = 1 && siblings.length ≤ 1 then candidates.head? else none
  (candidates.find? (·.writes f.paramTypes)).or (byArity.or lone)

end Candidate

namespace Callable

/-- The callable with the body of its candidate, unless it has a body. -/
def fill (candidates : List Candidate) (siblings : List Callable) (f : Callable) : Callable :=
  { f with body := f.body.or ((Candidate.select? candidates f siblings).map Candidate.body) }

end Callable

namespace Class

/-- The class with the bodies of its constructors and methods. -/
def fill (files : List FileOutline) (c : Class) : Class :=
  { c with
    constructors := c.constructors.map (Callable.fill (Candidate.members files c.name c.name) c.constructors)
    methods := c.methods.map fun f => f.fill (Candidate.members files c.name f.name) [f] }

def callables (c : Class) : List Callable :=
  c.constructors ++ c.methods

end Class

namespace GlobalVar

/-- The last word of a type, without dimensions and indirections. -/
def typeWord (type : Text) : Text :=
  let bare := Text.dropEndWhile (fun c => Spelling.isIndirection c || Text.isBlank c) (Spelling.scalar type)
  Spelling.unqualified ((Text.words bare).getLast?.getD [])

/-- The variable with the text of its initializer, unless it has one. -/
def fill (files : List FileOutline) (g : GlobalVar) : GlobalVar :=
  let word := typeWord g.type
  let inits := files.flatMap (·.outline.globals)
  let found := inits.find? fun i => i.name = g.name && (i.type = word || word.isEmpty)
  { g with initArgs := g.initArgs.or (found.map GlobalInit.args) }

end GlobalVar

namespace Program

/-- The program with the bodies and initializers that the files hold. -/
def fill (files : List FileOutline) (p : Program) : Program :=
  { p with
    classes := p.classes.map (·.fill files)
    functions := p.functions.map fun s =>
      { s with signatures := s.signatures.map fun f => f.fill (Candidate.functions files f.name) s.signatures }
    globals := p.globals.map (·.fill files)
    main := p.main.map fun f => f.fill (Candidate.functions files f.name) [] }

def missingBodies (p : Program) : List Text :=
  let absent (fs : List Callable) := (fs.filter (·.body.isNone)).map Callable.cName
  absent (p.classes.flatMap Class.callables) ++ absent p.signatures ++ absent p.main.toList

end Program

end Declass
