import Declass.Basic

/-!
# Scopes

The names that are visible in a body and what they are bound to. A parameter or a local hides a field; apart from that
the first binding of a name stays.
-/

namespace Declass

/-- What a name is bound to. -/
inductive BindingKind where
  | field
  | param
  | localVar
deriving DecidableEq

structure Binding where
  kind : BindingKind
  type : Text
deriving DecidableEq

structure Scope where
  bindings : List (Text × Binding) := []
deriving DecidableEq

namespace Scope

def find? (s : Scope) (name : Text) : Option Binding :=
  s.bindings.lookup name

/-- Whether a new binding takes the place of an old one. -/
def hides (new old : Binding) : Bool :=
  old.kind == .field && new.kind != .field

def bind (s : Scope) (name : Text) (kind : BindingKind) (type : Text) : Scope :=
  let new : Binding := { kind, type }
  { bindings := Table.upsert (fun e => e.1 = name) (fun e => if hides new e.2 then (e.1, new) else e) (name, new)
      s.bindings }

/-- A field that nothing hides. -/
def isField (s : Scope) (name : Text) : Bool :=
  (s.find? name).any (·.kind = .field)

def isBoundLocally (s : Scope) (name : Text) : Bool :=
  (s.find? name).any (·.kind ≠ .field)

def typeOf? (s : Scope) (name : Text) : Option Text :=
  (s.find? name).map Binding.type

end Scope

end Declass
