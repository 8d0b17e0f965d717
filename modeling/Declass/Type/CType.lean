import Declass.Basic

/-!
# Types

A type spelling such as `const hw::Led &` is mapped to C, where a reference is a pointer and an unknown type is `int`. The spelling
of a function type is taken apart, and the C names of overloads are made from tags of types: `log(int, bool)` is `log_i_b`.
-/

namespace Declass

/-! ## C types -/

/-- The user types that a mapping may keep by name. -/
structure TypeEnv where
  isClass : Text → Bool
  isEnum : Text → Bool

namespace TypeEnv

/-- The types with the given names. -/
def ofNames (classes enums : List Text) : TypeEnv where
  isClass := classes.contains
  isEnum := enums.contains

end TypeEnv

/-- What a type spelling denotes. -/
inductive TypeCategory where
  | void
  | bool
  | char
  | integer
  | float
  | double
  | userEnum (name : Text)
  | userClass (name : Text)
  | unknown
deriving DecidableEq

/-- A type spelling mapped to C. -/
structure CType where
  base : Text
  category : TypeCategory
  pointer : Nat
  array : Option Text
deriving DecidableEq

namespace Spelling

/-- Integer types that the standard headers declare. -/
def integerTypes : List Text :=
  ["int8_t", "int16_t", "int32_t", "int64_t", "uint8_t", "uint16_t", "uint32_t", "uint64_t", "size_t", "ptrdiff_t",
    "intptr_t", "uintptr_t"]

/-- Words that builtin integer types are made of. -/
def integerWords : List Text :=
  ["int", "short", "long", "unsigned", "signed"]

/-- Words that the mapping leaves out. -/
def droppedWords : List Text :=
  ["const", "volatile", "struct", "class", "enum", "typename"]

/-- A mark of a pointer or of a reference. -/
def isIndirection (c : Char) : Bool :=
  c == '*' || c == '&'

/-- The spelling before its first array dimension. -/
def scalar (spelling : Text) : Text :=
  spelling.takeWhile (· ≠ '[')

/-- The array dimensions of the spelling, without spaces. -/
def dimensions? (spelling : Text) : Option Text :=
  match spelling.dropWhile (· ≠ '[') with
  | [] => none
  | dims => some (dims.filter (· ≠ ' '))

/-- The part of a qualified name after its last `::`. -/
def unqualified (word : Text) : Text :=
  match Text.cutLast? "::" word with
  | some (_, name) => name
  | none => word

/-- The words of the spelling without qualifiers, indirections and namespaces. -/
def base (spelling : Text) : Text :=
  let cleaned := (scalar spelling).map fun c => if isIndirection c then ' ' else c
  Text.join " " (((Text.words cleaned).filter (!droppedWords.contains ·)).map unqualified)

/-- The base is an integer type of the language or of its standard headers. -/
def isInteger (base : Text) : Bool :=
  integerTypes.contains base || (!base.isEmpty && (List.splitOn ' ' base).all integerWords.contains)

end Spelling

namespace TypeCategory

/-- What a base denotes, where builtin types come before enumerations and those before classes. -/
def ofBase (env : TypeEnv) (base : Text) : TypeCategory :=
  if base = "void" then .void
  else if base = "bool" ∨ base = "_Bool" then .bool
  else if base = "char" ∨ base = "signed char" ∨ base = "unsigned char" then .char
  else if base = "float" then .float
  else if base = "double" ∨ base = "long double" then .double
  else if Spelling.isInteger base then .integer
  else if env.isEnum base then .userEnum base
  else if env.isClass base then .userClass base
  else .unknown

end TypeCategory

namespace CType

def ofSpelling (env : TypeEnv) (spelling : Text) : CType :=
  let base := Spelling.base spelling
  let category := TypeCategory.ofBase env base
  { base := if category = .unknown then "int" else base
    category
    pointer := (Spelling.scalar spelling).countP Spelling.isIndirection
    array := Spelling.dimensions? spelling }

/-- `void` itself, not a pointer to it or an array of it. -/
def isVoid (t : CType) : Bool :=
  t.category == .void && t.pointer == 0 && t.array.isNone

def isPointer (t : CType) : Bool :=
  0 < t.pointer

/-- The class of which this is a value, a pointer or an array. -/
def className? (t : CType) : Option Text :=
  match t.category with
  | .userClass name => some name
  | _ => none

/-- The type as it is written in C, without array dimensions. -/
def spelling (t : CType) : Text :=
  t.base ++ List.replicate t.pointer '*'

/-- A declaration of `name` with this type. -/
def declare (t : CType) (name : Text) : Text :=
  t.spelling ++ " " ++ name ++ t.array.getD []

/-- The value that a callable without a body returns. -/
def defaultValue? (t : CType) : Option Text :=
  if t.isVoid then none
  else if t.isPointer then some ("(" ++ t.spelling ++ ")0")
  else
    match t.category with
    | .bool => some "false"
    | .float | .double => some "0.0"
    | .userEnum name => some ("(" ++ name ++ ")0")
    | .userClass name => some ("(" ++ name ++ ")\x7b0\x7d")
    | _ => some "0"

/-- The value of a field before any constructor runs. Arrays and class values have none. -/
def zeroValue? (t : CType) : Option Text :=
  if t.array.isSome then none
  else if t.isPointer then some "0"
  else
    match t.category with
    | .userClass _ | .void => none
    | _ => t.defaultValue?

end CType

/-! ## Signatures -/

/-- The parts of the spelling of a function type. -/
structure Signature where
  ret : Text
  params : List Text
  qualifiers : Text
deriving DecidableEq

namespace Signature

/-- The pieces between the commas at bracket depth one, and what follows. `piece` is the piece so far, reversed. -/
def pieces (depth : Nat) (piece : Text) : Text → List Text × Text
  | [] => ([], [])
  | c :: rest =>
    if c = '(' ∨ c = '<' ∨ c = '[' then pieces (depth + 1) (c :: piece) rest
    else if c = ')' ∨ c = '>' ∨ c = ']' then
      if depth ≤ 1 then ([Text.trim piece.reverse], rest) else pieces (depth - 1) (c :: piece) rest
    else if c = ',' ∧ depth = 1 then
      let (params, rest) := pieces depth [] rest
      (Text.trim piece.reverse :: params, rest)
    else pieces depth (c :: piece) rest

/-- The parts of a spelling. A lone `void` means no parameters. -/
def parse (raw : Text) : Signature :=
  match Text.cut? "(" raw with
  | none => { ret := Text.trim raw, params := [], qualifiers := [] }
  | some (ret, rest) =>
    let (params, qualifiers) := pieces 1 [] rest
    let params := params.filter (· ≠ [])
    { ret := Text.trim ret
      params := if params = [("void" : Text)] then [] else params
      qualifiers := Text.trim qualifiers }

end Signature

/-! ## Type tags -/

/-- The class of a type in the name of an overload. -/
inductive Tag where
  | bool
  | float
  | double
  | char
  | integer
  | other
deriving DecidableEq

namespace Tag

def letter : Tag → Char
  | bool => 'b'
  | float => 'f'
  | double => 'd'
  | char => 'c'
  | integer => 'i'
  | other => 'x'

def ofSpelling (spelling : Text) : Tag :=
  let base := Spelling.base spelling
  if base = "bool" ∨ base = "_Bool" then bool
  else if base = "float" then float
  else if base = "double" ∨ base = "long double" then double
  else if base = "char" ∨ base = "signed char" ∨ base = "unsigned char" then char
  else if Spelling.isInteger base then integer
  else other

/-- Two tags between which an argument may be converted. -/
def sameFamily (a b : Tag) : Bool :=
  family a == family b
where
  family : Tag → Nat
    | integer | char | bool => 0
    | float | double => 1
    | other => 2

/-- What a parameter list adds to the name of an overload. -/
def suffix : List Text → Text
  | [] => "_void"
  | types => types.flatMap fun type => ['_', (ofSpelling type).letter]

/-- The C name of an overload of `base`. -/
def mangled (base : Text) (types : List Text) : Text :=
  base ++ suffix types

end Tag

end Declass
