import Declass.Declaration
import Declass.Token.Fragment
import Declass.Type.CType

/-!
# Local declarations

Recognizing a declaration of a local variable by its tokens, such as `Led led;`, `unsigned int i = 0` or `Led *p = &led;`.
A declaration stands at the start of a statement, or after a `(` as in the head of a loop, and its type is one that is
known.
-/

namespace Declass

/-- Words that start a statement and never a declaration. -/
def statementWords : List Text :=
  ["return", "delete", "goto", "case", "else", "do", "sizeof", "new", "throw"]

/-- Words that can stand before the type of a declaration. -/
def declWords : List Text :=
  ["static", "const", "volatile", "register", "constexpr"]

/-- A declaration among tokens, and where its name is. -/
structure FoundLocal where
  name : Text
  type : Text
  size : Nat
deriving DecidableEq

namespace FoundLocal

/-- The bare name of a type: its last word without indirections, qualifiers and namespaces. -/
def bareName (type : Text) : Text :=
  let words := List.splitOnP (fun c => Text.isBlank c || Spelling.isIndirection c) type
  Spelling.unqualified ((words.filter fun w => !w.isEmpty && !declWords.contains w).getLast?.getD [])

/-- A builtin type other than `void`, a class or an enumeration. -/
def isKnown (env : TypeEnv) (type : Text) : Bool :=
  let bare := bareName type
  bare != "void" && (Tag.ofSpelling type != .other || env.isClass bare || env.isEnum bare)

/-- A token of a declaration before the end of its first declarator. -/
def isPart (t : Token) : Bool :=
  t.isIdent || t.isPunctOf ["::", "*", "&"]

/-- The declaration at the head of the list: a known type and the name after it. -/
def at? (env : TypeEnv) (ts : List Token) : Option FoundLocal := do
  let words := ts.takeWhile (·.isWordOf declWords)
  let parts := (ts.drop words.length).takeWhile isPart
  let name ← parts.getLast?
  let next ← ts[words.length + parts.length]?
  guard (next.isPunctOf [";", "=", "(", "\x7b", "[", ","] && name.isIdent)
  let first ← parts.dropLast.head?
  guard (!first.isWordOf statementWords)
  let type := Token.joined parts.dropLast
  guard (Tag.ofSpelling name.text = .other && isKnown env type)
  return { name := name.text, type, size := words.length + parts.length }

/-- A declaration can follow the token. -/
def canFollow (t : Token) : Bool :=
  t.isPunctOf [";", "\x7b", "\x7d", "(", ":"]

/-- The declarations among tokens; `start` tells if one can be first. -/
def scan (env : TypeEnv) (start : Bool) : List Token → List FoundLocal
  | [] => []
  | t :: ts =>
    match if start then at? env (t :: ts) else none with
    | some d => d :: scan env false (ts.drop (d.size - 1))
    | none => scan env (canFollow t) ts
termination_by ts => ts.length
decreasing_by all_goals (simp only [List.length_drop, List.length_cons]; omega)

end FoundLocal

def scanLocals (env : TypeEnv) (body : Text) : List Var :=
  (FoundLocal.scan env true (Fragment.ofText body).tokens).map fun d => { name := d.name, type := d.type }

end Declass
