import Declass.Declaration
import Declass.Type.CType

/-!
# Programs

All that one run knows about a program: its classes, enumerations, overload sets, file-scope variables and `main`. Every
list keeps the order in which its entries were first reported, and entries are found by name.
-/

namespace Declass

/-- A body as written, with the names of its parameters. -/
structure Body where
  text : Text
  file : Path
  paramNames : List (Option Text) := []
  /-- The member initializer list, without the colon before it. -/
  initList : Option Text := none
deriving DecidableEq

/-- A function, a method or a constructor. -/
structure Callable where
  name : Text
  /-- The function type as it was first spelled. -/
  rawType : Text
  params : List Param := []
  locals : List Var := []
  body : Option Body := none
  isStatic : Bool := false
  origin : Option Path := none
  /-- The file of the first report of a definition. -/
  definedIn : Option Path := none
  /-- The identifier in C, given when the program is finished. -/
  cName : Text := []
deriving DecidableEq

namespace Callable

def returnType (f : Callable) (env : TypeEnv) : CType :=
  CType.ofSpelling env (Signature.parse f.rawType).ret

/-- The parameter types with single spaces between their words. -/
def paramTypes (f : Callable) : List Text :=
  f.params.map fun p => Text.squeeze p.type

/-- The name of parameter `i`: as defined, as reported, or `p` and `i`. -/
def paramName (f : Callable) (i : Nat) : Text :=
  let written := f.body.bind fun b => b.paramNames[i]?.join
  let reported := f.params[i]?.bind Param.name
  (written.or reported).getD ('p' :: Nat.toDigits 10 i)

/-- The file that holds the definition, as far as it is known. -/
def definitionFile? (f : Callable) : Option Path :=
  (f.body.map Body.file).or (f.definedIn.or f.origin)

end Callable

/-- A class with its members. -/
structure Class where
  name : Text
  keyword : RecordKeyword
  fields : List Var := []
  /-- The methods; a name is listed once. -/
  methods : List Callable := []
  constructors : List Callable := []
  hasDestructor : Bool := false
  origin : Option Path := none
deriving DecidableEq

namespace Class

def field? (c : Class) (name : Text) : Option Var :=
  c.fields.find? (·.name = name)

def method? (c : Class) (name : Text) : Option Callable :=
  c.methods.find? (·.name = name)

def defaultConstructor? (c : Class) : Option Callable :=
  c.constructors.find? (·.params.isEmpty)

/-- The constructors that take arguments. -/
def parameterized (c : Class) : List Callable :=
  c.constructors.filter (!·.params.isEmpty)

/-- The name of the C function that sets up an object. -/
def initName (c : Class) : Text :=
  c.name ++ "_init"

/-- The name of the C function that ends an object. -/
def cleanupName (c : Class) : Text :=
  c.name ++ "_cleanup"

end Class

structure EnumConstant where
  name : Text
  value : Option Int
deriving DecidableEq

structure Enumeration where
  name : Text
  isScoped : Bool
  constants : List EnumConstant := []
deriving DecidableEq

/-- The functions of one name. -/
structure OverloadSet where
  name : Text
  signatures : List Callable
deriving DecidableEq

namespace OverloadSet

def isOverloaded (s : OverloadSet) : Bool :=
  1 < s.signatures.length

end OverloadSet

/-- A file-scope variable, with the text of its initializer when that was found. -/
structure GlobalVar where
  name : Text
  type : Text
  hasInit : Bool
  initArgs : Option Text := none
deriving DecidableEq

/-- All that is known of the input. -/
structure Program where
  classes : List Class := []
  enums : List Enumeration := []
  functions : List OverloadSet := []
  globals : List GlobalVar := []
  main : Option Callable := none
deriving DecidableEq

namespace Program

def class? (p : Program) (name : Text) : Option Class :=
  p.classes.find? (·.name = name)

/-- The first class that declares a method with this name. -/
def classDeclaring? (p : Program) (method : Text) : Option Class :=
  p.classes.find? fun c => (c.method? method).isSome

def global? (p : Program) (name : Text) : Option GlobalVar :=
  p.globals.find? (·.name = name)

def function? (p : Program) (name : Text) : Option OverloadSet :=
  p.functions.find? (·.name = name)

/-- The enumeration that a constant belongs to. -/
def enumOfConstant? (p : Program) (constant : Text) : Option Enumeration :=
  p.enums.find? fun e => e.constants.any (·.name = constant)

/-- All free functions, set by set. -/
def signatures (p : Program) : List Callable :=
  p.functions.flatMap OverloadSet.signatures

def typeEnv (p : Program) : TypeEnv where
  isClass name := p.classes.any (·.name = name)
  isEnum name := p.enums.any (·.name = name)

/-- The type of a spelling in C. -/
def ctype (p : Program) (spelling : Text) : CType :=
  CType.ofSpelling p.typeEnv spelling

end Program

end Declass
