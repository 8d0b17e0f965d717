import Declass.Lowering.Arguments
import Declass.Lowering.View

/-!
# Lowering names and calls

What one name of a body becomes in C. A call's arguments are lowered by the function `inner`, which is given the block locals
around them and their text; so this module is about one level of nesting.
-/

namespace Declass

/-- What lowering a body depends on: program, class and scope. -/
structure Lowering where
  program : Program
  owner : Option Class := none
  scope : Scope := {}

structure Lowered where
  text : Text
  next : Nat
deriving DecidableEq

namespace Lowering

def ofCallable (p : Program) (c : Option Class) (f : Callable) : Lowering :=
  { program := p, owner := c, scope := Scope.ofCallable p c f }

/-- A call in C: the receiver, if any, is the first argument. -/
def callText (cName : Text) (receiver : Option Text) (args : Text) : Text :=
  let args := Text.trim args
  match receiver with
  | none => cName ++ "(" ++ args ++ ")"
  | some r => if args.isEmpty then cName ++ "(" ++ r ++ ")" else cName ++ "(" ++ r ++ ", " ++ args ++ ")"

/-- The number of `:: name` pairs at the head of the list. -/
def qualifiedPairs : List Token → Nat
  | colons :: name :: ts => if colons.isPunct "::" && name.isIdent then qualifiedPairs ts + 1 else 0
  | _ => 0

variable (L : Lowering) (inner : List Var → Text → Text)

/-- What tells the types of arguments where the locals `visible` can be seen. -/
def argContext (visible : List Var) : ArgContext :=
  { program := L.program, scope := L.scope, visible }

/-- A constructor call on `target`: the plain set-up, or as the arguments choose. -/
def construct (c : Class) (target args : Text) (visible : List Var) : Text :=
  let args := Text.trim args
  if args.isEmpty then c.initName ++ "(" ++ target ++ ")"
  else
    let chosen := (L.argContext visible).choose? c.constructors (splitArgs args)
    (chosen.map Callable.cName).getD c.initName ++ "(" ++ target ++ ", " ++ inner visible args ++ ")"

def methodCall (V : View) (f : Callable) (receiver : Text) (i j : Nat) : Lowered :=
  let args := inner (V.localsAt i) (V.fragment.between i j)
  { text := callText f.cName (if f.isStatic then none else some receiver) args, next := j + 1 }

/-- A call of a function with another name in C, arguments up to `j`. -/
def functionCall? (V : View) (k j : Nat) : Option Lowered := do
  let name := (← V.fragment.tok? k).text
  let set ← L.program.function? name
  guard (set.isOverloaded || set.signatures.any (·.cName ≠ name))
  let args := V.fragment.between (k + 1) j
  let visible := V.localsAt k
  let chosen := (L.argContext visible).choose? set.signatures (splitArgs args)
  return { text := (chosen.map Callable.cName).getD name ++ "(" ++ inner visible args ++ ")", next := j + 1 }

/-- A qualified name from `first` on: qualifiers go, a method call becomes a C call. -/
def qualified (V : View) (first : Nat) : Lowered :=
  let F := V.fragment
  let last := first + 2 * qualifiedPairs (F.tokens.drop (first + 1))
  let name := (F.tok? last).elim [] Token.text
  let ownerName := if first < last then (F.tok? (last - 2)).map Token.text else none
  let ownerClass := ownerName.bind L.program.class?
  let close := if F.isPunct (last + 1) "(" then F.close? (last + 1) else none
  let plain : Lowered := { text := name, next := last + 1 }
  match close, ownerClass with
  | some j, some c =>
    match c.method? name with
    | some f => methodCall inner V f "self" (last + 1) j
    | none => plain
  | some j, none => (functionCall? L inner V last j).getD plain
  | none, _ => plain

/-- `Led led;`, `Led led(args);` or `Led led{args};` with its constructor call. -/
def instantiation? (V : View) (k : Nat) : Option Lowered := do
  let F := V.fragment
  let c ← L.program.class? (← F.tok? k).text
  let name ← F.ident? (k + 1)
  let (args, next) ←
    if F.isPunct (k + 2) ";" then some ([], k + 3)
    else if F.isPunct (k + 2) "(" || F.isPunct (k + 2) "\x7b" then
      match F.close? (k + 2) with
      | some j => if F.isPunct (j + 1) ";" then some (F.between (k + 2) j, j + 2) else none
      | none => none
    else none
  let call := construct L inner c ('&' :: name) args (V.localsAt k)
  return { text := c.name ++ " " ++ name ++ ";\n" ++ V.indentation k ++ call ++ ";", next }

/-- The variable through which a method is called: type and expression. -/
def variableOf (name : Text) (localType : Option Text) : Option Text × Text :=
  match localType, L.scope.find? name with
  | some type, _ => (some type, name)
  | none, some b => (some b.type, if b.kind = .field then "self->" ++ name else name)
  | none, none => ((L.program.global? name).map GlobalVar.type, name)

/-- The class and the receiver of a call through `name`. -/
def receiver? (name op method : Text) (localType : Option Text) : Option (Class × Text) :=
  if name = "this" then L.owner.map fun c => (c, "self")
  else
    let (type, expr) := L.variableOf name localType
    let ctype := type.map L.program.ctype
    let isPointer := op = "->" || ctype.any CType.isPointer
    let declared := (ctype.bind CType.className?).bind L.program.class?
    let c := (declared.filter fun c => (c.method? method).isSome).or (L.program.classDeclaring? method)
    c.map fun c => (c, if isPointer then expr else '&' :: expr)

/-- `name.method(args)` or `name->method(args)`. -/
def objectCall? (V : View) (k : Nat) : Option Lowered := do
  let F := V.fragment
  let name := (← F.tok? k).text
  let op := (← F.tok? (k + 1)).text
  let method ← F.ident? (k + 2)
  guard (F.isPunct (k + 3) "(")
  let close ← F.close? (k + 3)
  let (c, receiver) ← L.receiver? name op method (V.localType? name k)
  let f ← c.method? method
  return methodCall inner V f receiver (k + 3) close

/-- `name(args)`: a method or a renamed function, unless a local. -/
def call? (V : View) (k : Nat) : Option Lowered := do
  let F := V.fragment
  let name := (← F.tok? k).text
  guard (!L.scope.isBoundLocally name && (V.localType? name k).isNone)
  let close ← F.close? (k + 1)
  match L.owner.bind (·.method? name) with
  | some f => return methodCall inner V f "self" (k + 1) close
  | none => functionCall? L inner V k close

/-- Any other name: a field becomes a member of the receiver. -/
def plainName (V : View) (k : Nat) (name : Text) : Text :=
  if name = "this" then "self"
  else if L.scope.isField name && (V.localType? name k).isNone then "self->" ++ name
  else name

/-- What an identifier becomes that is not a literal. -/
def identifier (V : View) (k : Nat) (name : Text) : Lowered :=
  let F := V.fragment
  let kept : Lowered := { text := name, next := k + 1 }
  let plain : Lowered := { text := L.plainName V k name, next := k + 1 }
  let declared := if V.atStatementStart k then instantiation? L inner V k else none
  declared.getD <|
    if F.afterMemberAccess k then kept
    else if F.isPunct (k + 1) "::" then qualified L inner V k
    else
      let called := if F.isPunct (k + 1) "." || F.isPunct (k + 1) "->" then objectCall? L inner V k else none
      called.getD <|
        if name ≠ "this" && F.isPunct (k + 1) "(" then (call? L inner V k).getD kept else plain

/-- What the token `t` at `k` becomes, with the tokens that belong to it. -/
def token (V : View) (k : Nat) (t : Token) : Lowered :=
  let F := V.fragment
  let kept : Lowered := { text := t.text, next := k + 1 }
  if t.isPunct "::" then
    let afterName := (F.prev? k).any fun p => p.isIdent || p.isPunct ">"
    if F.isIdent (k + 1) && !afterName then qualified L inner V (k + 1) else kept
  else if !t.isIdent then kept
  else if t.text = "true" then { kept with text := "1" }
  else if t.text = "false" then { kept with text := "0" }
  else if t.text = "nullptr" then { kept with text := "NULL" }
  else identifier L inner V k t.text

end Lowering

end Declass
