import Declass.Program.Basic

/-!
# Reports

What a run tells about the program it found and the files it wrote.
-/

namespace Declass

structure ClassSummary where
  name : Text
  methods : List Text
  fields : List Text
deriving DecidableEq

/-- A name with several signatures, and their C names. -/
structure OverloadSummary where
  name : Text
  mangled : List Text
deriving DecidableEq

structure Summary where
  classes : List ClassSummary := []
  overloads : List OverloadSummary := []
  hasMain : Bool := false
deriving DecidableEq

namespace Summary

def ofProgram (p : Program) : Summary :=
  { classes := p.classes.map fun c =>
      { name := c.name, methods := c.methods.map Callable.name, fields := c.fields.map Var.name }
    overloads := (p.functions.filter fun s => s.signatures.length > 1).map fun s =>
      { name := s.name, mangled := s.signatures.map Callable.cName }
    hasMain := p.main.isSome }

end Summary

structure UnitReport where
  input : Path
  outputs : List Path
  summary : Summary
  warnings : List Text
deriving DecidableEq

/-- A file that a batch had to do without, and why. -/
structure Failure where
  path : Path
  message : Text
deriving DecidableEq

structure BatchReport where
  analyzed : List Path
  outputs : List Path
  failures : List Failure
  writeErrors : List Failure
  summary : Summary
  warnings : List Text
deriving DecidableEq

namespace BatchReport

def succeeded (r : BatchReport) : Bool :=
  r.failures.isEmpty && r.writeErrors.isEmpty

end BatchReport

end Declass
