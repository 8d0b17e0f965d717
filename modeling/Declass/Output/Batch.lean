import Declass.Output.Layout
import Declass.Output.Unit

/-!
# A batch of units

A program as a shared header, a header for each unit that holds a class, and a source file for each unit.
-/

namespace Declass

namespace Program

variable (p : Program)

def sourceNames (inputs : List Path) : Text :=
  Text.join ", " (inputs.filterMap Path.fileName?)

def sharedHeader (o : OutputOptions) (source : Text) : GeneratedFile :=
  let stem := (Path.mk o.sharedHeader).stem?.getD "shared_definitions"
  { name := o.sharedHeader, document := Document.guarded source stem (p.declarationPart o) }

def classHeader? (o : OutputOptions) (source : Text) (l : Layout) (c : Class) : Option GeneratedFile :=
  (l.classStem? c.name).map fun stem =>
    { name := stem ++ ".h"
      document := Document.guarded source stem
        ([Document.includeLocal o.sharedHeader, .blank] ++ p.classPrototypes c ++ [.blank]) }

def unitDefinitions (l : Layout) (stem : Text) : List Item :=
  let classes := p.orderedClasses.filter fun c => (l.classStem? c.name).getD l.mainStem = stem
  let functions := p.signatures.filter fun f => l.functionStem f = stem
  classes.flatMap p.classFunctions ++ functions.map p.functionItem ++
    (if stem = l.mainStem then p.main.toList.map p.mainItem else [])

/-- The source file of a unit, if an input owns the unit or it holds something. -/
def unitFile? (o : OutputOptions) (source : Text) (l : Layout) (stem : Text) : Option GeneratedFile :=
  let definitions := p.unitDefinitions l stem
  if !l.stems.contains stem && definitions.isEmpty && p.globals.isEmpty then none
  else
    let ownHeader := if (l.stemClass? stem).isSome then [Document.includeLocal (stem ++ ".h")] else []
    let globals : Document := if stem = l.mainStem then p.globalDefinitions ++ [.blank] else []
    some
      { name := stem ++ ".c"
        document :=
          Document.banner source ++ Document.deviceInclude o ++ [Document.includeLocal o.sharedHeader] ++ ownHeader ++
            [.blank] ++ globals ++ spaced definitions }

def generateBatch (o : OutputOptions) (inputs : List Path) : List GeneratedFile :=
  let l := Layout.ofInputs p inputs
  let source := sourceNames inputs
  p.sharedHeader o source :: p.orderedClasses.filterMap (p.classHeader? o source l) ++
    l.units.filterMap (p.unitFile? o source l)

end Program

end Declass
