import Declass.Program.Basic

/-!
# Layout of a batch

Which unit each class and function goes to, when every input file becomes a unit. A class goes to the unit named like it, else to
that of its file, and a unit takes one class at most. What has no unit goes to the main unit.
-/

namespace Declass

structure Layout where
  stems : List Text
  classStems : List (Text × Text)
  mainStem : Text
deriving DecidableEq

namespace Layout

def stemsOf (inputs : List Path) : List Text :=
  (inputs.filterMap Path.stem?).foldl (fun stems s => if stems.contains s then stems else stems ++ [s]) []

def stemAmong? (stems : List Text) (p : Path) : Option Text :=
  p.stem?.filter stems.contains

/-- The unit that a class asks for. -/
def wantedStem? (stems : List Text) (c : Class) : Option Text :=
  (stems.find? (Text.eqIgnoringCase · c.name)).or (c.origin.bind (stemAmong? stems))

/-- The classes and units with one more class, if its unit is free. -/
def addClass (stems : List Text) (taken : List (Text × Text)) (c : Class) : List (Text × Text) :=
  match wantedStem? stems c with
  | none => taken
  | some s => if taken.any (·.2 = s) then taken else taken ++ [(c.name, s)]

def ofInputs (p : Program) (inputs : List Path) : Layout :=
  let stems := stemsOf inputs
  let classStems := p.classes.foldl (addClass stems) []
  let ofMain := (p.main.bind Callable.definitionFile?).bind (stemAmong? stems)
  let free := stems.find? fun s => !classStems.any (·.2 = s)
  { stems, classStems, mainStem := (ofMain.or free).getD "main" }

variable (l : Layout)

def classStem? (name : Text) : Option Text :=
  l.classStems.lookup name

def stemClass? (stem : Text) : Option Text :=
  (l.classStems.find? (·.2 = stem)).map Prod.fst

def functionStem (f : Callable) : Text :=
  (f.definitionFile?.bind (stemAmong? l.stems)).getD l.mainStem

/-- All units: those of the inputs, and the main unit. -/
def units : List Text :=
  if l.stems.contains l.mainStem then l.stems else l.stems ++ [l.mainStem]

end Layout

end Declass
