import Declass.Lowering.Calls

/-!
# Lowering a body

A body is lowered token by token and what is not replaced is copied. The arguments of a replaced call are lowered as texts of
their own; they are shorter than the call, so the length of the text bounds the depth of nesting.
-/

namespace Declass

namespace Lowering

/-- A piece of lowered text: text as it stands, or a lone `=`. -/
inductive Piece where
  | text (t : Text)
  | assign
deriving DecidableEq

def isSpaceOrTab (c : Char) : Bool :=
  c == ' ' || c == '\t'

/-- The text so far with one more piece. A lone `=` takes blanks before it away. -/
def emit (out : Text) : Piece → Text
  | .text t => out ++ t
  | .assign => Text.dropEndWhile isSpaceOrTab out ++ " = "

/-- The pieces from `k` on. A lone `=` takes the blanks after it away. -/
def pieces (L : Lowering) (inner : List Var → Text → Text) (V : View) (k : Nat) (gap : Text) : List Piece :=
  match _h : V.fragment.tok? k with
  | none => [.text gap]
  | some t =>
    if V.isAssignment k then
      .text gap :: .assign :: pieces L inner V (k + 1) ((V.fragment.gap (k + 1)).dropWhile isSpaceOrTab)
    else
      let lowered := token L inner V k t
      let next := max lowered.next (k + 1)
      .text gap :: .text lowered.text :: pieces L inner V next (V.fragment.gap next)
termination_by V.fragment.size - k
decreasing_by
  all_goals
    have := Fragment.lt_size_of_tok? _h
    omega

/-- A text lowered, with the arguments of its calls lowered by `inner`. -/
def level (L : Lowering) (inner : List Var → Text → Text) (outer : List Var) (t : Text) : Text :=
  let V := View.ofText L.program.typeEnv outer t
  (pieces L inner V 0 (V.fragment.gap 0)).foldl emit []

/-- A text lowered to `depth` levels of arguments; deeper ones are copied. -/
def toDepth (L : Lowering) : Nat → List Var → Text → Text
  | 0, _, t => t
  | depth + 1, outer, t => level L (toDepth L depth) outer t

/-- A text lowered where the locals `outer` are visible. -/
def lowerWithin (L : Lowering) (outer : List Var) (t : Text) : Text :=
  toDepth L (t.length + 1) outer t

/-- A body, a statement or an expression lowered to C. -/
def lower (L : Lowering) (t : Text) : Text :=
  L.lowerWithin [] t

def constructorCall (L : Lowering) (c : Class) (target args : Text) : Text :=
  construct L L.lowerWithin c target args []

/-- The statement for a member initializer of a field with a value. -/
def memberInit? (L : Lowering) (c : Class) (name args : Text) : Option Text := do
  let field ← c.field? name
  let ctype := L.program.ctype field.type
  match if ctype.isPointer then none else ctype.className?.bind L.program.class? with
  | some member => return L.constructorCall member ("&self->" ++ name) args ++ ";"
  | none => if args.isEmpty then none else some ("self->" ++ name ++ " = " ++ L.lower args ++ ";")

/-- The statements for the member initializers from position `k` on. -/
def memberInitsFrom (L : Lowering) (c : Class) (F : Fragment) (k : Nat) : List Text :=
  match _h : F.tok? k with
  | none => []
  | some t =>
    if t.isIdent && (F.isPunct (k + 1) "(" || F.isPunct (k + 1) "\x7b") then
      match _hc : F.close? (k + 1) with
      | none => []
      | some j =>
        (L.memberInit? c t.text (Text.trim (F.between (k + 1) j))).toList ++ memberInitsFrom L c F (j + 1)
    else memberInitsFrom L c F (k + 1)
termination_by F.size - k
decreasing_by
  · have := Fragment.lt_size_of_tok? _h
    have := Fragment.lt_of_close? _hc
    omega
  · have := Fragment.lt_size_of_tok? _h
    omega

/-- The statements for a list such as `state(false), led(LED_0)`. -/
def memberInits (L : Lowering) (c : Class) (initList : Text) : List Text :=
  memberInitsFrom L c (Fragment.ofText initList) 0

end Lowering

end Declass
