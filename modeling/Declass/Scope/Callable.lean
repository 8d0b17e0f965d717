import Declass.Program.Basic
import Declass.Scope.Basic
import Declass.Scope.Locals

/-!
# The scope of a callable

Fields of the class, then parameters, then locals. A local that the body declares under the name of a field hides it only inside
its own block.
-/

namespace Declass

namespace Scope

def bindAll (s : Scope) (kind : BindingKind) (vars : List Var) : Scope :=
  vars.foldl (fun s v => s.bind v.name kind v.type) s

def paramVars (f : Callable) : List Var :=
  f.params.mapIdx fun i p => { name := f.paramName i, type := p.type }

/-- The scope with a reported local, unless it would hide a field that the body declares anew. -/
def bindReported (scanned : List Var) (s : Scope) (v : Var) : Scope :=
  if scanned.any (·.name = v.name) && s.isField v.name then s else s.bind v.name .localVar v.type

/-- The scope with a local that the body declares, unless a field has its name. -/
def bindScanned (s : Scope) (v : Var) : Scope :=
  if s.isField v.name then s else s.bind v.name .localVar v.type

/-- All that is visible in the body of a callable. -/
def ofCallable (p : Program) (c : Option Class) (f : Callable) : Scope :=
  let scanned := f.body.elim [] fun b => scanLocals p.typeEnv b.text
  let fields := c.elim [] Class.fields
  let s := (({} : Scope).bindAll .field fields).bindAll .param (paramVars f)
  scanned.foldl bindScanned (f.locals.foldl (bindReported scanned) s)

end Scope

/-- Parameters that bodies use without a declaration. -/
def wellKnownParams : List Var :=
  [⟨"milliseconds", "unsigned int"⟩, ⟨"newState", "bool"⟩, ⟨"count", "unsigned int"⟩, ⟨"delayMs", "unsigned int"⟩,
    ⟨"rawPressed", "bool"⟩, ⟨"rawState", "bool"⟩]

namespace Fragment

/-- A `.`, `->` or `::` stands before position `k`. -/
def afterMemberAccess (F : Fragment) (k : Nat) : Bool :=
  (F.prev? k).any (·.isPunctOf [".", "->", "::"])

def plainNames (F : Fragment) : List Text :=
  (F.tokens.zipIdx.filter fun (t, k) => t.isIdent && !F.afterMemberAccess k).map fun (t, _) => t.text

end Fragment

/-- The well-known parameters that a body uses and that nothing binds. -/
def inferParams (p : Program) (s : Scope) (body : Text) : List Var :=
  let used := (Fragment.ofText body).plainNames
  wellKnownParams.filter fun v => used.contains v.name && (s.find? v.name).isNone && (p.global? v.name).isNone

end Declass
