import Declass.Path.Basic

/-!
# Declarations

What a declaration dump reports, one report per declaration and in the order of the dump. Types are kept as they are
spelled.
-/

namespace Declass

/-- A parameter, which may have no name. -/
structure Param where
  name : Option Text
  type : Text
deriving DecidableEq

structure Var where
  name : Text
  type : Text
deriving DecidableEq

structure CallableDecl where
  name : Text
  /-- The function type as it is spelled, such as `bool (int) const`. -/
  rawType : Text
  params : List Param := []
  locals : List Var := []
  isDefinition : Bool := false
  isStatic : Bool := false
  origin : Option Path := none
deriving DecidableEq

inductive RecordKeyword where
  | classWord
  | structWord
deriving DecidableEq

inductive Declaration where
  | record (name : Text) (keyword : RecordKeyword) (origin : Option Path)
  | field (owner : Text) (field : Var)
  | method (owner : Text) (decl : CallableDecl)
  | constructor (owner : Text) (decl : CallableDecl)
  | destructor (owner : Text)
  | enumeration (name : Text) (isScoped : Bool)
  | constant (enumeration : Text) (name : Text) (value : Option Int)
  | function (decl : CallableDecl)
  | global (v : Var) (hasInit : Bool)
deriving DecidableEq

end Declass
