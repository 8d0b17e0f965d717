import Declass.Outline.Walk

/-!
# Parameter lists and initializers

What stands around a declared name: the parameters of a definition, and the four ways to initialize a file-scope
variable (`T x(args)`, `T x = T(args)`, `T x{args}` with or without `=`, `T x = value`).
-/

namespace Declass

namespace Token

/-- The groups between the commas outside brackets, `<` and `>` included. -/
def commaGroups : Nat → List Token → List (List Token)
  | _, [] => [[]]
  | depth, t :: ts =>
    if depth = 0 && t.isPunct "," then [] :: commaGroups depth ts
    else
      let depth :=
        if t.isPunctOf ["(", "[", "\x7b", "<"] then depth + 1
        else if t.isPunctOf [")", "]", "\x7d", ">"] then depth - 1
        else depth
      match commaGroups depth ts with
      | [] => [[t]]
      | group :: groups => (t :: group) :: groups

end Token

namespace WrittenParam

/-- The parameter that a group spells, named by its last plain identifier. -/
def ofTokens (group : List Token) : WrittenParam :=
  let head := group.takeWhile fun t => !t.isPunct "["
  let dims := group.dropWhile fun t => !t.isPunct "["
  match head.reverse with
  | name :: last :: more =>
    if name.isIdent && !typeWords.contains name.text && !last.isPunct "::" then
      { type := Token.joined ((last :: more).reverse ++ dims), name := some name.text }
    else { type := Token.joined group, name := none }
  | _ => { type := Token.joined group, name := none }

/-- The parameters of a list, without defaults. A lone `void` is none. -/
def listOfTokens (ts : List Token) : List WrittenParam :=
  (Token.commaGroups 0 ts).filterMap fun group =>
    match group.takeWhile fun t => !t.isPunct "=" with
    | [] => none
    | [t] => if t.isWord "void" then none else some (ofTokens [t])
    | group => some (ofTokens group)

end WrittenParam

namespace Fragment

variable (F : Fragment)

def params (i j : Nat) : List WrittenParam :=
  WrittenParam.listOfTokens ((F.tokens.drop (i + 1)).take (j - i - 1))

def endsInitializer (k : Nat) : Bool :=
  F.isPunct k ";" || F.isPunct k ","

/-- `T x(args)` or `T x = T(args)`, with `name` at `k`, arguments from `i` to `j`. -/
def parenInit? (k : Nat) (name : Text) (i j : Nat) : Option GlobalInit := do
  let args := (F.between i j).trim
  guard (!args.isEmpty && 0 < k)
  if F.isPunct (k - 1) "=" then
    guard (2 ≤ k)
    let target ← F.ident? (← F.skipDimsBack? (k - 2))
    guard ((← F.declaredType? k) = name)
    return { type := name, name := target, args }
  else
    let type ← F.declaredType? k
    guard (!typeWords.contains type && type ≠ name)
    return { type, name, args }

/-- `T x = value` with `name` at `k` and `=` at `eq`, and where it ends. -/
def assignedInit? (k : Nat) (name : Text) (eq : Nat) : Option (GlobalInit × Nat) := do
  let type ← F.declaredType? k
  let value ← F.tok? (eq + 1)
  guard (!value.isPunct "\x7b" && !(value.text = type && F.isPunct (eq + 2) "("))
  let stop ← F.exprEnd? (eq + 1)
  let args := (F.between eq stop).trim
  guard (!args.isEmpty)
  return ({ type, name, args }, stop)

/-- `T x{args}`, `T x = {args}` or `T x[n] = {args}`, with the brace at `k`. -/
def braceInit? (k : Nat) : Option GlobalInit := do
  let close ← F.close? k
  guard (F.endsInitializer (close + 1) && 0 < k)
  guard (!F.isPunct (k - 1) "=" || 2 ≤ k)
  let target ← F.skipDimsBack? (if F.isPunct (k - 1) "=" then k - 2 else k - 1)
  let name ← F.ident? target
  let type ← F.declaredType? target
  let args := (F.between k close).trim
  guard (type ≠ name && !args.isEmpty)
  return { type, name, args }

end Fragment

end Declass
