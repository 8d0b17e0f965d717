import Declass.Program.Basic

/-!
# C names

Every callable gets one C identifier, such as `Class_init` and `Class_method`. Overloads add the tags of their parameters. Two
callables of one kind that get one identifier are a collision.
-/

namespace Declass

/-- Two callables that get one C name, by their parameter lists. -/
structure NameCollision where
  name : Text
  cName : Text
  first : Text
  second : Text
deriving DecidableEq

namespace NameCollision

def message (e : NameCollision) : Text :=
  "overloads of `" ++ e.name ++ "` collide on C name `" ++ e.cName ++ "`: " ++ e.first ++ " and " ++ e.second

/-- The collision of `a` and `b` under the name of their owner. -/
def between (owner : Text) (a b : Callable) : NameCollision :=
  { name := owner, cName := a.cName, first := paramList a, second := paramList b }
where
  paramList (f : Callable) : Text :=
    "(" ++ Text.join ", " f.paramTypes ++ ")"

end NameCollision

namespace Callable

/-- The first callable that shares its C name with a later one, and that one. -/
def clash? : List Callable → Option (Callable × Callable)
  | [] => none
  | a :: rest =>
    match rest.find? (·.cName = a.cName) with
    | some b => some (a, b)
    | none => clash? rest

/-- The first callable with the C name of an earlier one, and that one. -/
def repeat? (seen : List Callable) : List Callable → Option (Callable × Callable)
  | [] => none
  | b :: rest =>
    match seen.find? (·.cName = b.cName) with
    | some a => some (a, b)
    | none => repeat? (seen ++ [b]) rest

end Callable

namespace Class

def named (c : Class) : Class :=
  { c with
    constructors := c.constructors.map fun f =>
      { f with cName := if f.params.isEmpty then c.initName else Tag.mangled c.initName f.paramTypes }
    methods := c.methods.map fun f => { f with cName := c.name ++ "_" ++ f.name } }

end Class

namespace OverloadSet

def named (s : OverloadSet) : OverloadSet :=
  { s with
    signatures := s.signatures.map fun f =>
      { f with cName := if s.isOverloaded then Tag.mangled f.name f.paramTypes else f.name } }

end OverloadSet

namespace Program

/-- The program with all C names, collisions or not. -/
def named (p : Program) : Program :=
  { p with
    classes := p.classes.map Class.named
    functions := p.functions.map OverloadSet.named
    main := p.main.map fun f => { f with cName := "main" } }

/-- The first collision: in a class, in an overload set, or between sets. -/
def collision? (p : Program) : Option NameCollision :=
  let inClass := p.classes.findSome? fun c =>
    (Callable.clash? c.constructors).map fun (a, b) => NameCollision.between c.name a b
  let inSet := p.functions.findSome? fun s =>
    (Callable.clash? s.signatures).map fun (a, b) => NameCollision.between s.name a b
  let betweenSets := (Callable.repeat? [] p.signatures).map fun (a, b) => NameCollision.between b.name a b
  inClass.or (inSet.or betweenSets)

end Program

end Declass
