import Declass.Program.Basic
import Declass.Scope.Basic
import Declass.Token.Fragment

/-!
# Arguments

Splitting an argument list at its commas, and choosing among the signatures of a name by the number of arguments and by
what can be told of their types: literals, and variables with a known type.
-/

namespace Declass

namespace Token

def commaTexts : Nat → List Token → List Text
  | _, [] => [[]]
  | depth, t :: ts =>
    if depth = 0 && t.isPunct "," then [] :: commaTexts depth ts
    else
      let depth :=
        if t.isPunctOf ["(", "[", "\x7b"] then depth + 1
        else if t.isPunctOf [")", "]", "\x7d"] then depth - 1
        else depth
      match commaTexts depth ts with
      | [] => [t.text]
      | piece :: pieces => (t.text ++ piece) :: pieces

/-- The tag of a number, floating by a point or an exponent. -/
def numberTag (t : Token) : Tag :=
  let digits := Text.toLower t.text
  let floating := !Text.startsWith digits "0x" && (digits.elem '.' || digits.elem 'e')
  if floating then if digits.getLast? = some 'f' then .float else .double else .integer

end Token

def splitArgs (t : Text) : List Text :=
  if Text.allBlank t then [] else (Token.commaTexts 0 (tokenize t)).map Text.trim

/-- What tells an argument's type: program, scope and block locals. -/
structure ArgContext where
  program : Program
  scope : Scope
  visible : List Var

namespace ArgContext

variable (C : ArgContext)

/-- The type of a variable: block locals, then scope, then file scope. -/
def typeOf? (name : Text) : Option Text :=
  ((C.visible.reverse.find? (·.name = name)).map Var.type).or
    ((C.scope.typeOf? name).or ((C.program.global? name).map GlobalVar.type))

def nameTag? (name : Text) : Option Tag :=
  if name = "true" ∨ name = "false" then some .bool
  else ((C.typeOf? name).map Tag.ofSpelling).or ((C.program.enumOfConstant? name).map fun _ => .other)

/-- The tag of an argument that is one token, signs before it aside. -/
def tag? (arg : Text) : Option Tag :=
  match (Fragment.ofText arg).tokens.dropWhile (·.isPunctOf ["-", "+"]) with
  | [t] =>
    match t.kind with
    | .number => some t.numberTag
    | .char | .string => some .char
    | .ident => C.nameTag? t.text
    | _ => none
  | _ => none

/-- The parameters of `f` agree with the tags; an unknown tag agrees with all. -/
def fits (agree : Tag → Tag → Bool) (tags : List (Option Tag)) (f : Callable) : Bool :=
  (f.params.zip tags).all fun (p, tag) => tag.all (agree (Tag.ofSpelling p.type))

/-- The signature for a call: by number of arguments, then tags, then families. -/
def choose? (signatures : List Callable) (args : List Text) : Option Callable :=
  let sameArity := signatures.filter (·.params.length = args.length)
  let tags := args.map C.tag?
  let exact := sameArity.find? (fits (· == ·) tags)
  let similar := sameArity.find? (fits Tag.sameFamily tags)
  let longer := signatures.find? fun f => args.length < f.params.length
  exact.or (similar.or (sameArity.head?.or longer))

end ArgContext

end Declass
