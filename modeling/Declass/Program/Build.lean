import Declass.Program.Names

/-!
# Building a program

Declarations are absorbed one by one. A later report of a known declaration fills what is still missing and never replaces.
`Program.finish` drops plain data records and gives every callable its C name.
-/

namespace Declass

namespace Callable

/-- The callable of a report. Parameters may come from the spelled type. -/
def ofDecl (d : CallableDecl) : Callable :=
  let spelled := (Signature.parse d.rawType).params.filter fun (type : Text) => type ≠ "..."
  { name := d.name
    rawType := d.rawType
    params := if d.params.isEmpty then spelled.map fun type => { name := none, type } else d.params
    locals := d.locals
    isStatic := d.isStatic
    origin := d.origin
    definedIn := if d.isDefinition then d.origin else none }

/-- Parameters with names from another list where they have none. -/
def fillNames : List Param → List Param → List Param
  | p :: ps, q :: qs => { p with name := p.name.or q.name } :: fillNames ps qs
  | ps, _ => ps

/-- The locals with those of another list added whose names are new. -/
def addLocals (locals more : List Var) : List Var :=
  more.foldl (fun ls l => if ls.any (·.name = l.name) then ls else ls ++ [l]) locals

/-- A callable with what a later report of it adds. -/
def merge (f g : Callable) : Callable :=
  { f with
    params := fillNames f.params g.params
    locals := addLocals f.locals g.locals
    definedIn := f.definedIn.or g.definedIn
    origin := f.origin.or g.origin
    body := f.body.or g.body
    isStatic := f.isStatic || g.isStatic }

/-- The callables with one more report, merged by its parameter types. -/
def addSignature (fs : List Callable) (f : Callable) : List Callable :=
  Table.upsert (fun g => g.paramTypes = f.paramTypes) (·.merge f) f fs

end Callable

namespace Class

/-- The class with one more field, unless it has one of that name. -/
def addField (c : Class) (v : Var) : Class :=
  if (c.field? v.name).isSome then c else { c with fields := c.fields ++ [v] }

def addMethod (c : Class) (f : Callable) : Class :=
  { c with methods := Table.upsert (fun g => g.name = f.name) (·.merge f) f c.methods }

def addConstructor (c : Class) (f : Callable) : Class :=
  { c with constructors := Callable.addSignature c.constructors f }

/-- The class with one more report of its record. `class` and the first file stay. -/
def addRecord (c : Class) (keyword : RecordKeyword) (origin : Option Path) : Class :=
  { c with
    keyword := if keyword = .classWord then .classWord else c.keyword
    origin := c.origin.or origin }

/-- A record without methods and constructors that was never called a class. -/
def isPlain (c : Class) : Bool :=
  c.keyword == .structWord && c.methods.isEmpty && c.constructors.isEmpty

end Class

namespace Enumeration

/-- The enumeration with one more constant, unless it has one of that name. -/
def addConstant (e : Enumeration) (k : EnumConstant) : Enumeration :=
  if e.constants.any (·.name = k.name) then e else { e with constants := e.constants ++ [k] }

end Enumeration

namespace Program

/-- The program with the class `name` edited, or added first. -/
def editClass (p : Program) (name : Text) (keyword : RecordKeyword) (f : Class → Class) : Program :=
  { p with classes := Table.upsert (fun c => c.name = name) f (f { name, keyword }) p.classes }

def addFunction (p : Program) (f : Callable) : Program :=
  if f.name = "main" then { p with main := some (p.main.elim f (·.merge f)) }
  else
    { p with
      functions := Table.upsert (fun s => s.name = f.name)
        (fun s => { s with signatures := Callable.addSignature s.signatures f })
        { name := f.name, signatures := [f] } p.functions }

/-- The program with one more declaration. Stray constants are dropped. -/
def absorb (p : Program) : Declaration → Program
  | .record name keyword origin => p.editClass name keyword (·.addRecord keyword origin)
  | .field owner v => p.editClass owner .classWord (·.addField v)
  | .method owner d => p.editClass owner .classWord (·.addMethod (Callable.ofDecl d))
  | .constructor owner d => p.editClass owner .classWord (·.addConstructor (Callable.ofDecl d))
  | .destructor owner => p.editClass owner .classWord fun c => { c with hasDestructor := true }
  | .enumeration name isScoped =>
    { p with enums := Table.upsert (fun e => e.name = name) id { name, isScoped } p.enums }
  | .constant enumeration name value =>
    { p with
      enums := p.enums.map fun e => if e.name = enumeration then e.addConstant { name, value } else e }
  | .function d => p.addFunction (Callable.ofDecl d)
  | .global v hasInit =>
    { p with
      globals := Table.upsert (fun g => g.name = v.name) (fun g => { g with hasInit := g.hasInit || hasInit })
        { name := v.name, type := v.type, hasInit } p.globals }

def absorbAll (p : Program) (ds : List Declaration) : Program :=
  ds.foldl absorb p

def withoutPlain (p : Program) : Program :=
  { p with classes := p.classes.filter (!·.isPlain) }

/-- The finished program, in which every callable has its C name. -/
def finish (p : Program) : Except NameCollision Program :=
  let q := p.withoutPlain.named
  match q.collision? with
  | some e => .error e
  | none => .ok q

end Program

end Declass
