import Declass.Basic

/-!
# Outlines

The outline of a source file: the definitions with a body that it holds, the class blocks, and the initializers of
file-scope variables, each as it is written.
-/

namespace Declass

structure Span where
  start : Nat
  stop : Nat
deriving DecidableEq

structure WrittenParam where
  type : Text
  name : Option Text
deriving DecidableEq

/-- A definition with a body, and the class that owns it. -/
structure Definition where
  owner : Option Text
  name : Text
  inline : Bool
  params : List WrittenParam
  initList : Option Text
  body : Text
  span : Span
deriving DecidableEq

/-- The initializer of a variable, with the last word of its type. -/
structure GlobalInit where
  type : Text
  name : Text
  args : Text
deriving DecidableEq

inductive OutlineItem where
  | definition (d : Definition)
  | classBlock (name : Text) (span : Span)
  | global (g : GlobalInit)
deriving DecidableEq

structure Outline where
  definitions : List Definition
  classes : List (Text × Span)
  globals : List GlobalInit
deriving DecidableEq

namespace Outline

def ofItems (items : List OutlineItem) : Outline where
  definitions := items.filterMap fun
    | .definition d => some d
    | _ => none
  classes := items.filterMap fun
    | .classBlock name span => some (name, span)
    | _ => none
  globals := items.filterMap fun
    | .global g => some g
    | _ => none

end Outline

end Declass
