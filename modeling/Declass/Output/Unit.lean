import Declass.Lowering.Body
import Declass.Output.Document

/-!
# Units

A whole program as one header and one source file. A structure comes after those it holds by value, and a member that is not
static takes its object first. Variables of class types are constructed at the start of `main`.
-/

namespace Declass

/-! ## Order of classes -/

namespace Program

/-- The classes that a class embeds: of fields that are no pointers. -/
def embedded (p : Program) (c : Class) : List Class :=
  c.fields.filterMap fun v =>
    let type := p.ctype v.type
    if type.isPointer then none else type.className?.bind p.class?

/-- The classes that were met, by name, and the order so far. -/
structure Visited where
  seen : List Text := []
  order : List Class := []

/-- The visit of a class, at most `depth` embedded classes deep. -/
def visitClass (p : Program) : Nat → Visited → Class → Visited
  | 0, v, _ => v
  | depth + 1, v, c =>
    if v.seen.contains c.name then v
    else
      let v := (p.embedded c).foldl (visitClass p depth) { v with seen := c.name :: v.seen }
      { v with order := v.order ++ [c] }

/-- The classes, each after those it embeds, to a depth that no chain exceeds. -/
def orderedClasses (p : Program) : List Class :=
  (p.classes.foldl (p.visitClass (p.classes.length + 1)) {}).order

end Program

/-! ## Type definitions -/

namespace Enumeration

/-- The lines of the constants, with a comma after all but the last. -/
def constantLines : List EnumConstant → List Text
  | [] => []
  | [k] => [constant k]
  | k :: ks => (constant k ++ ",") :: constantLines ks
where
  /-- A constant with its value, when that is written. -/
  constant (k : EnumConstant) : Text :=
    k.name ++ (k.value.map fun n => " = " ++ Text.ofInt n).getD []

/-- The type of an enumeration in C. -/
def typedef (e : Enumeration) : Item :=
  .block "typedef enum \x7b" (constantLines e.constants) ("\x7d " ++ e.name ++ ";")

end Enumeration

namespace Program

variable (p : Program)

/-- The member lines of a class; C needs one at least. -/
def memberLines (c : Class) : List Text :=
  if c.fields.isEmpty then ["uint8_t _unused;"]
  else c.fields.map fun v => (p.ctype v.type).declare v.name ++ ";"

/-- The structure of a class in C. -/
def structTypedef (c : Class) : Item :=
  .block ("typedef struct " ++ c.name ++ " \x7b") (p.memberLines c) ("\x7d " ++ c.name ++ ";")

def enumTypes : Document :=
  p.enums.flatMap fun e => [e.typedef, .blank]

def structTypes : Document :=
  p.orderedClasses.flatMap fun c => [p.structTypedef c, .blank]

end Program

/-! ## Functions -/

/-- A callable ready to be written, with the lowering of its body. -/
structure Prepared where
  ret : CType
  cName : Text
  params : List Text
  lowering : Lowering

namespace Prepared

/-- Type, C name and parameters. -/
def signature (f : Prepared) : Text :=
  let params : Text := if f.params.isEmpty then "void" else Text.join ", " f.params
  f.ret.spelling ++ " " ++ f.cName ++ "(" ++ params ++ ")"

end Prepared

namespace Item

def prototype (signature : Text) : Item :=
  .line (signature ++ ";")

def function (signature : Text) (body : List Text) : Item :=
  .block (signature ++ " \x7b") body "\x7d"

end Item

namespace Program

variable (p : Program)

/-- A callable ready to be written, with the well-known parameters it uses last. -/
def prepare (c : Option Class) (f : Callable) (hasReceiver : Bool) : Prepared :=
  let lowering := Lowering.ofCallable p c f
  let receiver : List Text := if hasReceiver then c.toList.map fun (c : Class) => c.name ++ "* self" else []
  let declared := f.params.mapIdx fun i q => (p.ctype q.type).declare (f.paramName i)
  let inferred := f.body.elim [] fun b => inferParams p lowering.scope b.text
  { ret := f.returnType p.typeEnv
    cName := f.cName
    params := receiver ++ declared ++ inferred.map fun v => (p.ctype v.type).declare v.name
    lowering := { lowering with scope := lowering.scope.bindAll .param inferred } }

/-- A method. Unless static it takes its object. -/
def prepareMethod (c : Class) (f : Callable) : Prepared :=
  p.prepare (some c) f (!f.isStatic)

/-- A constructor, which returns nothing. -/
def prepareConstructor (c : Class) (f : Callable) : Prepared :=
  { p.prepare (some c) f true with ret := p.ctype "void" }

def prepareFunction (f : Callable) : Prepared :=
  p.prepare none f false

/-- The lowered body; without one, a `return` if needed. -/
def bodyLines (g : Prepared) (f : Callable) : List Text :=
  match f.body with
  | some b => reindent (g.lowering.lower b.text)
  | none => (g.ret.defaultValue?.map fun (value : Text) => "return " ++ value ++ ";").toList

/-- The head of the function that sets up an object. -/
def initSignature (c : Class) : Text :=
  "void " ++ c.initName ++ "(" ++ c.name ++ "* self)"

/-- The head of the function that ends an object. -/
def cleanupSignature (c : Class) : Text :=
  "void " ++ c.cleanupName ++ "(" ++ c.name ++ "* self)"

/-- The prototypes of what `classFunctions` defines. -/
def classPrototypes (c : Class) : Document :=
  [.prototype (initSignature c)] ++
    c.parameterized.map (fun f => .prototype (p.prepareConstructor c f).signature) ++
    c.methods.map (fun f => .prototype (p.prepareMethod c f).signature) ++ [.prototype (cleanupSignature c)]

def functionPrototypes : Document :=
  p.signatures.map fun f => .prototype (p.prepareFunction f).signature

/-- How a field is set up: an object by its function, any other by its zero value. -/
def zeroLine? (v : Var) : Option Text :=
  let type := p.ctype v.type
  let embedded := if type.isPointer || type.array.isSome then none else type.className?.bind p.class?
  match embedded with
  | some member => some (member.initName ++ "(&self->" ++ v.name ++ ");")
  | none => type.zeroValue?.map fun (zero : Text) => "self->" ++ v.name ++ " = " ++ zero ++ ";"

/-- The member initializers and the body of a constructor. -/
def constructorLines (c : Class) (f : Callable) : List Text :=
  match f.body with
  | none => []
  | some b =>
    let lowering := (p.prepareConstructor c f).lowering
    b.initList.elim [] (lowering.memberInits c) ++ reindent (lowering.lower b.text)

/-- The lines that set up an object: the fields, then the plain constructor. -/
def initLines (c : Class) : List Text :=
  c.fields.filterMap p.zeroLine? ++ c.defaultConstructor?.elim [] (p.constructorLines c)

/-- The functions of a class. -/
def classFunctions (c : Class) : List Item :=
  [.function (initSignature c) (p.initLines c)] ++
    c.parameterized.map (fun f =>
      .function (p.prepareConstructor c f).signature ((c.initName ++ "(self);") :: p.constructorLines c f)) ++
    c.methods.map (fun f =>
      let g := p.prepareMethod c f
      .function g.signature (bodyLines g f)) ++
    [.function (cleanupSignature c) ["(void)self;"]]

def functionItem (f : Callable) : Item :=
  let g := p.prepareFunction f
  .function g.signature (bodyLines g f)

/-- The items with an empty line after each. -/
def spaced (items : List Item) : Document :=
  items.flatMap fun item => [item, .blank]

/-! ## File-scope variables and `main` -/

def globalClass? (g : GlobalVar) : Option Class :=
  let type := p.ctype g.type
  if type.isPointer || type.array.isSome then none else type.className?.bind p.class?

/-- The calls in `main` that construct the variables. -/
def globalConstructors : List Text :=
  let lowering : Lowering := { program := p }
  p.globals.filterMap fun g => do
    let c ← p.globalClass? g
    return lowering.constructorCall c ('&' :: g.name) (g.initArgs.getD []) ++ ";"

/-- The variables as other files see them. -/
def externGlobals : Document :=
  p.globals.map fun g => .line ("extern " ++ (p.ctype g.type).declare g.name ++ ";")

/-- The initializer of a variable. Lists and arrays are written in braces. -/
def globalInit (g : GlobalVar) : Text :=
  match g.initArgs, p.globalClass? g with
  | some args, none =>
    let lowering : Lowering := { program := p }
    let value := lowering.lower args
    let isArray := (p.ctype g.type).array.isSome && (Text.trimStart args).head? ≠ some '"'
    if isArray || 1 < (splitArgs args).length then " = \x7b" ++ value ++ "\x7d" else " = " ++ value
  | _, _ => []

/-- The variables where they are defined. -/
def globalDefinitions : Document :=
  p.globals.map fun g => .line ((p.ctype g.type).declare g.name ++ p.globalInit g ++ ";")

/-- The function `main`. It constructs the variables. -/
def mainItem (f : Callable) : Item :=
  let g := p.prepareFunction f
  .function g.signature (p.globalConstructors ++ bodyLines g f)

/-! ## The two files -/

/-- The declarations of a program: types, prototypes and variables. -/
def declarationPart (o : OutputOptions) : Document :=
  Document.standardIncludes ++ [.blank] ++ Document.xtalDefault o ++ [.blank] ++ p.enumTypes ++ p.structTypes ++
    p.orderedClasses.flatMap (fun c => p.classPrototypes c ++ [.blank]) ++ p.functionPrototypes ++ [.blank] ++
    p.externGlobals ++ [.blank]

/-- The functions of the classes, the others, and `main`. -/
def definitions : List Item :=
  p.orderedClasses.flatMap p.classFunctions ++ p.signatures.map p.functionItem ++ p.main.toList.map p.mainItem

/-- The header and source file `stem` of a program read from `source`. -/
def generateUnit (o : OutputOptions) (stem source : Text) : List GeneratedFile :=
  let header : Document := Document.guarded source stem (p.declarationPart o)
  let code : Document :=
    Document.banner source ++ Document.deviceInclude o ++ [Document.includeLocal (stem ++ ".h"), .blank] ++
      p.globalDefinitions ++ [.blank] ++ spaced p.definitions
  [{ name := stem ++ ".h", document := header }, { name := stem ++ ".c", document := code }]

end Program

end Declass
