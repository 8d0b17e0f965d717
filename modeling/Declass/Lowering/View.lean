import Declass.Scope.Locals
import Declass.Scope.Callable

/-!
# Fragments with block locals

A fragment of a body with the locals that its blocks declare, each visible from its name to the end of its block or of the
statement whose head declares it. Arguments also see the locals around them.
-/

namespace Declass

/-- A local that is visible where `first ≤ k < stop`. -/
structure BlockLocal where
  name : Text
  type : Text
  first : Nat
  stop : Nat
deriving DecidableEq

namespace BlockLocal

def isVisibleAt (l : BlockLocal) (k : Nat) : Bool :=
  l.first ≤ k && k < l.stop

end BlockLocal

namespace Fragment

variable (F : Fragment)

/-- The position after the statement with the head at `k`. -/
def statementEnd? (k : Nat) : Option Nat := do
  let body := (← F.close? k) + 1
  if F.isPunct body "\x7b" then (F.close? body).map (· + 1) else (F.findPunct? [";"] body).map (· + 1)

/-- Where a local declared at `k` is gone; `ends` of the open blocks. -/
def localStop (ends : List Nat) (k : Nat) : Nat :=
  let blockEnd := ends.head?.getD F.size
  if 0 < k && F.isPunct (k - 1) "(" then (F.statementEnd? (k - 1)).getD blockEnd else blockEnd

/-- The ends of the blocks that are open after the token at `k`. -/
def blockEnds (ends : List Nat) (k : Nat) (t : Token) : List Nat :=
  if t.isPunct "\x7b" then (F.close? k).getD F.size :: ends
  else if t.isPunct "\x7d" then ends.tail
  else ends

/-- The locals from `k` on; `start` tells if a declaration can stand there. -/
def blockLocalsFrom (env : TypeEnv) (start : Bool) (ends : List Nat) (k : Nat) : List Token → List BlockLocal
  | [] => []
  | t :: ts =>
    match if start then FoundLocal.at? env (t :: ts) else none with
    | some d =>
      { name := d.name, type := d.type, first := k + d.size - 1, stop := F.localStop ends k } ::
        blockLocalsFrom env false ends (k + d.size) (ts.drop (d.size - 1))
    | none => blockLocalsFrom env (FoundLocal.canFollow t) (F.blockEnds ends k t) (k + 1) ts
termination_by ts => ts.length
decreasing_by all_goals (simp only [List.length_drop, List.length_cons]; omega)

def blockLocals (env : TypeEnv) : List BlockLocal :=
  F.blockLocalsFrom env true [] 0 F.tokens

end Fragment

/-- A fragment, its locals, and those of the text around it. -/
structure View where
  fragment : Fragment
  locals : List BlockLocal
  outer : List Var
deriving DecidableEq

namespace View

def ofText (env : TypeEnv) (outer : List Var) (t : Text) : View :=
  let fragment := Fragment.ofText t
  { fragment, locals := fragment.blockLocals env, outer }

variable (V : View)

/-- The type of the local `name` at `k`: the latest, else the first around. -/
def localType? (name : Text) (k : Nat) : Option Text :=
  let inner := V.locals.reverse.find? fun l => l.name = name && l.isVisibleAt k
  (inner.map BlockLocal.type).or ((V.outer.find? (·.name = name)).map Var.type)

/-- The locals visible at `k`, those around the fragment first. -/
def localsAt (k : Nat) : List Var :=
  V.outer ++ (V.locals.filter (·.isVisibleAt k)).map fun l => { name := l.name, type := l.type }

def atStatementStart (k : Nat) : Bool :=
  (V.fragment.prev? k).all (·.isPunctOf [";", "\x7b", "\x7d", ":"])

/-- The blanks before the token at `k`, if it is first on its line. -/
def indentation (k : Nat) : Text :=
  let lead := Text.takeEndWhile (· ≠ '\n') (V.fragment.before k)
  if Text.allBlank lead then lead else []

/-- Characters that make one operator with an `=` after them. -/
def operatorChars : Text :=
  "=<>!+-*/%&|^"

/-- The token at `k` is an `=` of its own, not a part of `==`, `+=` and the like. -/
def isAssignment (k : Nat) : Bool :=
  let F := V.fragment
  let gluedBefore := (F.gap k).isEmpty &&
    (F.prev? k).any fun t => t.kind == .punct && t.text.all (operatorChars.elem ·)
  let gluedAfter := (F.gap (k + 1)).isEmpty && F.isPunct (k + 1) "="
  F.isPunct k "=" && !gluedBefore && !gluedAfter

end View

end Declass
