import Declass.Proofs.Output.Partition
import Mathlib.Data.List.Perm.Basic
import Mathlib.Logic.Equiv.Fin.Basic

/-!
# Prototypes and definitions

A header declares exactly what the source files define: each function other than `main` has one prototype of its own, with
the same signature (`prototypes_oneToOne`). The two are written by separate walks over the program, into different files.
-/

namespace Declass

open Document List

/-! ## Prototypes and definitions in a file -/

namespace Item

/-- The signature of a definition: its first line up to the brace. -/
def signature : Item → Text
  | .block head _ _ => head.take (head.length - 2)
  | _ => []

@[simp]
theorem signature_function (s : Text) (body : List Text) : (function s body).signature = s := by
  simp [function, signature]

/-- The line that declares a function, by its definition. -/
def declaration (i : Item) : Text :=
  i.signature ++ ";"

@[simp]
theorem declaration_function (s : Text) (body : List Text) : (function s body).declaration = s ++ ";" := by
  rw [declaration, signature_function]

/-- The item is no prototype. -/
def isAside : Item → Bool
  | .blank => true
  | .block _ _ _ => true
  | .line t => Text.startsWith t "#" || Text.startsWith t "/*" || Text.startsWith t "extern "

end Item

/-- The lines `prototypes` stand together in the file, and nothing else in it is a prototype. -/
def GeneratedFile.HasPrototypes (f : GeneratedFile) (prototypes : List Text) : Prop :=
  ∃ before middle after, f.document = before ++ middle ++ after ∧
    middle.filter (· ≠ .blank) = prototypes.map Item.line ∧ ∀ i ∈ before ++ after, i.isAside = true

/-- Definitions and prototypes correspond by position: a prototype is the signature and a semicolon. -/
def OneToOne (definitions : List Item) (prototypes : List Text) : Prop :=
  ∃ e : Fin definitions.length ≃ Fin prototypes.length,
    ∀ k, prototypes.get (e k) = (definitions.get k).signature ++ ";"

theorem oneToOne_of_perm {definitions : List Item} {prototypes : List Text}
    (h : (definitions.map Item.declaration).Perm prototypes) : OneToOne definitions prototypes := by
  let positions : Fin (definitions.map Item.declaration).length ≃ Fin prototypes.length :=
    ⟨h.idxBij, h.symm.idxBij, h.idxBij_symm_leftInverse_idxBij, h.idxBij_symm_rightInverse_idxBij⟩
  have hlen : definitions.length = (definitions.map Item.declaration).length := (length_map _).symm
  refine ⟨(finCongr hlen).trans positions, ?_⟩
  intro k
  calc prototypes.get (h.idxBij (k.cast hlen))
      = (definitions.map Item.declaration).get (k.cast hlen) := h.getElem_idxBij_eq_getElem (k.cast hlen)
    _ = (definitions.get k).signature ++ ";" := getElem_map _

namespace Program

variable (p : Program) {source : Text} {files : List GeneratedFile}

/-- The lines that declare the functions of `x`. -/
def prototypesOf (x : Definable) : List Text :=
  (p.functionsOf x).map Item.declaration

/-- What a header declares, in order. -/
def declared : List Definable :=
  p.orderedClasses.map .ofClass ++ p.signatures.map .ofFunction

/-- The function definitions in the source files, without that of `main`. -/
def otherFunctions (files : List GeneratedFile) : List Item :=
  (GeneratedFile.sourceFunctions files).diff (p.main.toList.map p.mainItem)

/-! ## Headers -/

theorem classPrototypes_eq (c : Class) : p.classPrototypes c = (p.prototypesOf (.ofClass c)).map .line := by
  simp [classPrototypes, prototypesOf, functionsOf, classFunctions, Item.prototype, Function.comp_def]

theorem functionPrototypes_eq : p.functionPrototypes = ((p.signatures.map .ofFunction).flatMap p.prototypesOf).map .line := by
  simp [functionPrototypes, prototypesOf, functionsOf, functionItem, Item.prototype, map_eq_flatMap, flatMap_assoc]

theorem filter_blank_lines (lines : List Text) : (lines.map Item.line).filter (· ≠ .blank) = lines.map .line := by
  rw [filter_eq_self]
  intro i hi
  obtain ⟨t, _, rfl⟩ := mem_map.1 hi
  rfl

/-- The prototypes of the classes, with empty lines, and of the functions. -/
theorem filter_blank_prototypes :
    (p.orderedClasses.flatMap (fun c => p.classPrototypes c ++ [Item.blank]) ++ p.functionPrototypes).filter (· ≠ Item.blank) =
      (p.declared.flatMap p.prototypesOf).map .line := by
  have hcls (c : Class) :
      (p.classPrototypes c ++ [Item.blank]).filter (· ≠ Item.blank) = (p.prototypesOf (.ofClass c)).map .line := by
    rw [filter_append, classPrototypes_eq, filter_blank_lines]
    exact append_nil _
  rw [filter_append, functionPrototypes_eq, filter_blank_lines, declared, flatMap_append, map_append]
  refine congrArg₂ (· ++ ·) ?_ rfl
  rw [filter_flatMap, flatMap_map, map_flatMap]
  exact flatMap_congr fun c _ => hcls c

/-- What stands around the content of a header is no prototype. -/
theorem hasPrototypes_guarded {name stem : Text} {before middle after : Document} {prototypes : List Text}
    (hmid : middle.filter (· ≠ .blank) = prototypes.map .line) (haside : ∀ i ∈ before ++ after, i.isAside) :
    GeneratedFile.HasPrototypes { name, document := guarded source stem (before ++ middle ++ after) } prototypes := by
  refine ⟨banner source ++ [Item.line ("#ifndef " ++ guardName stem),
    Item.line ("#define " ++ guardName stem), Item.blank] ++ before, middle,
    after ++ [Item.line ("#endif /* " ++ guardName stem ++ " */")], ?_, hmid, ?_⟩
  · simp [guarded]
  · intro i hi
    simp only [banner, mem_append, mem_cons, not_mem_nil, or_false] at hi
    rcases hi with ((rfl | rfl | rfl | rfl) | hi) | hi | rfl
    · rfl
    · rfl
    · rfl
    · rfl
    · exact haside i (mem_append_left _ hi)
    · exact haside i (mem_append_right _ hi)
    · rfl

/-- The header of a unit and the shared header of a batch. -/
theorem hasPrototypes_declarationPart (o : OutputOptions) (name source stem : Text) :
    GeneratedFile.HasPrototypes { name, document := guarded source stem (p.declarationPart o) }
      (p.declared.flatMap p.prototypesOf) := by
  have hp : p.declarationPart o = (standardIncludes ++ [Item.blank] ++ xtalDefault o ++ [Item.blank] ++ p.enumTypes ++
          p.structTypes) ++
        (p.orderedClasses.flatMap (fun c => p.classPrototypes c ++ [Item.blank]) ++ p.functionPrototypes) ++
        ([Item.blank] ++ p.externGlobals ++ [Item.blank]) := by
    simp [declarationPart]
  rw [hp]
  refine hasPrototypes_guarded p.filter_blank_prototypes ?_
  intro i hi
  simp only [mem_append, mem_singleton] at hi
  rcases hi with (((((hi | rfl) | hi) | rfl) | hi) | hi) | (rfl | hi) | rfl
  · simp only [standardIncludes, mem_cons, not_mem_nil, or_false] at hi
    rcases hi with rfl | rfl | rfl <;> rfl
  · rfl
  · simp only [xtalDefault, mem_cons, not_mem_nil, or_false] at hi
    rcases hi with rfl | rfl | rfl <;> rfl
  · rfl
  · simp only [enumTypes, mem_flatMap, mem_cons, not_mem_nil, or_false] at hi
    obtain ⟨e, _, rfl | rfl⟩ := hi <;> rfl
  · simp only [structTypes, mem_flatMap, mem_cons, not_mem_nil, or_false] at hi
    obtain ⟨c, _, rfl | rfl⟩ := hi <;> rfl
  · rfl
  · obtain ⟨g, _, rfl⟩ := mem_map.1 hi
    rfl
  · rfl

/-- The header of a class with the unit `stem`: its prototypes are those of the class in `shared`. -/
structure IsClassHeader (l : Layout) (shared : List Text) (c : Class) (f : GeneratedFile) : Prop where
  name : ∃ stem, l.classStem? c.name = some stem ∧ f.name = stem ++ ".h"
  prototypes : f.HasPrototypes (p.prototypesOf (.ofClass c))
  shared : p.prototypesOf (.ofClass c) <:+: shared

theorem isClassHeader_classHeader? {o : OutputOptions} {l : Layout} {c : Class} {f : GeneratedFile}
    (hc : c ∈ p.orderedClasses) (h : p.classHeader? o source l c = some f) :
    p.IsClassHeader l (p.declared.flatMap p.prototypesOf) c f := by
  obtain ⟨stem, hsm, rfl⟩ := Option.map_eq_some_iff.1 h
  refine ⟨⟨stem, hsm, rfl⟩, ?_, ?_⟩
  · refine hasPrototypes_guarded ?_ ?_
    · rw [classPrototypes_eq, filter_blank_lines]
    · intro i hi
      simp only [mem_append, mem_cons, not_mem_nil, or_false] at hi
      rcases hi with (rfl | rfl) | rfl <;> rfl
  · have hmem : Definable.ofClass c ∈ p.declared := mem_append_left _ (mem_map_of_mem hc)
    exact infix_of_mem_flatten (mem_map_of_mem hmem)

/-- The classes with a unit of their own have one header each. -/
theorem forall₂_classHeaders (o : OutputOptions) (source : Text) (l : Layout) (cs : List Class) (hcs : cs ⊆ p.orderedClasses) :
    List.Forall₂ (p.IsClassHeader l (p.declared.flatMap p.prototypesOf))
      (cs.filter fun c => (l.classStem? c.name).isSome) (cs.filterMap (p.classHeader? o source l)) := by
  induction cs with
  | nil => exact .nil
  | cons c cs ih =>
    obtain ⟨hc, hr⟩ := cons_subset.1 hcs
    cases hsm : l.classStem? c.name with
    | none =>
      have hno : p.classHeader? o source l c = none := by rw [classHeader?, hsm, Option.map_none]
      rw [filter_cons_of_neg (by simp [hsm]), filterMap_cons_none hno]
      exact ih hr
    | some stem =>
      obtain ⟨f, hf⟩ : ∃ f, p.classHeader? o source l c = some f := ⟨_, by rw [classHeader?, hsm, Option.map_some]⟩
      rw [filter_cons_of_pos (by simp [hsm]), filterMap_cons_some hf]
      exact .cons (p.isClassHeader_classHeader? hc hf) (ih hr)

/-! ## Definitions -/

section

variable (h : (GeneratedFile.sourceFunctions files).Perm (p.orderedDefinables.flatMap p.functionsOf))

include h

/-- All definitions but `main` are of what a header declares. -/
theorem otherFunctions_perm : (p.otherFunctions files).Perm (p.declared.flatMap p.functionsOf) := by
  have hall : p.orderedDefinables.flatMap p.functionsOf = p.declared.flatMap p.functionsOf ++ p.main.toList.map p.mainItem := by
    rw [orderedDefinables, ← declared, flatMap_append, flatMap_map, map_eq_flatMap]
    rfl
  rw [hall] at h
  have hdiff := (h.trans perm_append_comm).diff_right (p.main.toList.map p.mainItem)
  refine hdiff.trans (List.Perm.of_eq ?_)
  cases p.main <;> simp

theorem oneToOne_otherFunctions : OneToOne (p.otherFunctions files) (p.declared.flatMap p.prototypesOf) := by
  have hperm := (p.otherFunctions_perm h).map Item.declaration
  rw [map_flatMap] at hperm
  exact oneToOne_of_perm hperm

end

/-! ## The correspondence -/

/-- Prototypes and definitions correspond one to one: each definition outside the file of `main` has a prototype of its own in
the header of the unit, or in the shared header of the batch, and there are no others. The header of a class that has a unit
holds those of the class, which stand together in the shared header. -/
theorem prototypes_oneToOne (p : Program) (h : (p.classes.map Class.name).Nodup) (o : OutputOptions) :
    (∀ stem source, ∃ header code prototypes, p.generateUnit o stem source = [header, code] ∧
      header.name = stem ++ ".h" ∧ code.name = stem ++ ".c" ∧ header.HasPrototypes prototypes ∧
      OneToOne (p.otherFunctions [header, code]) prototypes) ∧
    ∀ inputs, ∃ shared headers sources prototypes, p.generateBatch o inputs = shared :: headers ++ sources ∧
      shared.name = o.sharedHeader ∧ (∀ f ∈ sources, f.isSource = true) ∧ shared.HasPrototypes prototypes ∧
      OneToOne (p.otherFunctions (p.generateBatch o inputs)) prototypes ∧
      List.Forall₂ (p.IsClassHeader (Layout.ofInputs p inputs) prototypes)
        (p.orderedClasses.filter fun c => ((Layout.ofInputs p inputs).classStem? c.name).isSome) headers := by
  refine ⟨?_, ?_⟩
  · intro stem source
    refine ⟨_, _, _, rfl, rfl, rfl, p.hasPrototypes_declarationPart o (stem ++ ".h") source stem, ?_⟩
    have hfunctions := @sourceFunctions_generateUnit p o stem source
    exact p.oneToOne_otherFunctions (List.Perm.of_eq hfunctions)
  · intro inputs
    have hshared := sharedOut_sourceUnits h o inputs
    refine ⟨_, _, _, _, hshared.files, rfl, ?_, p.hasPrototypes_declarationPart o _ _ _, ?_, ?_⟩
    · intro f hf
      obtain ⟨u, hu, rfl⟩ := mem_map.mp hf
      exact (hshared.written u hu).isSource
    · exact p.oneToOne_otherFunctions
        (hshared.sourceFunctions_perm.trans ((orderedDefinables_perm h).symm.flatMap_right _))
    · exact p.forall₂_classHeaders o _ _ p.orderedClasses (List.Subset.refl _)

/-- A class, a function with a well-known name, and `main`. -/
def meterProgram : Program where
  classes :=
    [{ name := "Meter", keyword := .classWord
       constructors := [{ name := "Meter", rawType := "void (int)", params := [⟨some "start", "int"⟩],
                          cName := "Meter_init_int" }]
       methods := [{ name := "read", rawType := "int (char *) const", params := [⟨none, "char *"⟩], cName := "Meter_read" },
                   { name := "total", rawType := "int ()", isStatic := true, cName := "Meter_total" }] }]
  functions :=
    [{ name := "poll", signatures := [{ name := "poll", rawType := "void ()", cName := "poll"
                                        body := some { text := "wait(delayMs);", file := ⟨"app.cpp"⟩ } }] }]
  main := some { name := "main", rawType := "int ()", definedIn := some ⟨"app.cpp"⟩, cName := "main" }

theorem prototypes_oneToOne_meterProgram :
    (meterProgram.classes.map Class.name).Nodup ∧
      (∃ shared headers sources prototypes,
        meterProgram.generateBatch {} [⟨"meter.cpp"⟩, ⟨"app.cpp"⟩] = shared :: headers ++ sources ∧
        shared.HasPrototypes prototypes ∧
        OneToOne (meterProgram.otherFunctions (meterProgram.generateBatch {} [⟨"meter.cpp"⟩, ⟨"app.cpp"⟩])) prototypes) ∧
      (meterProgram.otherFunctions (meterProgram.generateBatch {} [⟨"meter.cpp"⟩, ⟨"app.cpp"⟩])).map Item.signature =
        ["void Meter_init(Meter* self)", "void Meter_init_int(Meter* self, int start)",
          "int Meter_read(Meter* self, char* p0)", "int Meter_total(void)", "void Meter_cleanup(Meter* self)",
          "void poll(unsigned int delayMs)"] := by
  have h : (meterProgram.classes.map Class.name).Nodup := by decide +kernel
  obtain ⟨shared, headers, sources, prototypes, hfiles, _, _, hprototypes, honeToOne, _⟩ :=
    (prototypes_oneToOne meterProgram h {}).2 [⟨"meter.cpp"⟩, ⟨"app.cpp"⟩]
  exact ⟨h, ⟨shared, headers, sources, prototypes, hfiles, hprototypes, honeToOne⟩, by decide +kernel⟩

end Program

end Declass
