import Declass.Output.Batch
import Declass.Proofs.Output.Layout
import Declass.Proofs.Output.Order

/-!
# A batch is a partition of the program

The source files of a batch share out what the program defines: every class, every function and `main` is in one of them, that of
its home unit. So a batch holds the definitions of the single source file.
-/

namespace Declass

open Document GeneratedFile Layout List Program

/-! ## What is shared out -/

/-- What is defined by C functions: a class, a function or `main`. -/
inductive Definable where
  | ofClass (c : Class)
  | ofFunction (f : Callable)
  | ofMain (f : Callable)
deriving DecidableEq

namespace Item

/-- The item is the definition of a function: a block with a bare last brace. -/
def isFunction : Item → Bool
  | .block _ _ foot => foot = "\x7d".toList
  | _ => false

@[simp]
theorem isFunction_function (signature : Text) (body : List Text) : (function signature body).isFunction := by
  simp [function, isFunction]

@[simp]
theorem isFunction_line (t : Text) : (line t).isFunction = false := rfl

@[simp]
theorem isFunction_blank : blank.isFunction = false := rfl

end Item

namespace GeneratedFile

/-- The function definitions of a file. -/
def functions (f : GeneratedFile) : List Item :=
  f.document.filter Item.isFunction

/-- The file is a source file. -/
def isSource (f : GeneratedFile) : Bool :=
  Text.endsWith f.name ".c"

/-- The function definitions of the source files. -/
def sourceFunctions (fs : List GeneratedFile) : List Item :=
  (fs.filter isSource).flatMap functions

theorem sourceFunctions_append (fs gs : List GeneratedFile) :
    sourceFunctions (fs ++ gs) = sourceFunctions fs ++ sourceFunctions gs := by
  simp [sourceFunctions]

/-- Files without function definitions add none. -/
theorem sourceFunctions_of_headers {fs : List GeneratedFile} (h : ∀ f ∈ fs, f.functions = []) : sourceFunctions fs = [] := by
  rw [sourceFunctions, flatMap_eq_nil_iff]
  intro f hf
  exact h f (mem_of_mem_filter hf)

end GeneratedFile

namespace Program

variable (p : Program)

/-- All that the program defines by C functions. -/
def definables : List Definable :=
  p.classes.map .ofClass ++ p.signatures.map .ofFunction ++ p.main.toList.map .ofMain

/-- The C functions that define `x`. -/
def functionsOf : Definable → List Item
  | .ofClass c => p.classFunctions c
  | .ofFunction f => [p.functionItem f]
  | .ofMain f => [p.mainItem f]

theorem isFunction_of_mem_functionsOf {x : Definable} {i : Item} (h : i ∈ p.functionsOf x) : i.isFunction := by
  cases x with
  | ofClass c =>
    simp only [functionsOf, classFunctions, mem_append, mem_map, mem_singleton] at h
    rcases h with ((rfl | ⟨f, _, rfl⟩) | ⟨f, _, rfl⟩) | rfl <;> simp
  | ofFunction f =>
    rw [mem_singleton.1 h, functionItem, Item.isFunction_function]
  | ofMain f =>
    rw [mem_singleton.1 h, mainItem, Item.isFunction_function]

end Program

namespace Layout

/-- The unit where `x` belongs. What no unit asks for belongs to the main unit. -/
def home (l : Layout) : Definable → Text
  | .ofClass c => (l.classStem? c.name).getD l.mainStem
  | .ofFunction f => l.functionStem f
  | .ofMain _ => l.mainStem

theorem home_mem_units {l : Layout} (h : OneEach l.stems l.classStems) (x : Definable) : l.home x ∈ l.units := by
  rw [mem_units]
  cases x with
  | ofClass c =>
    cases hs : l.classStem? c.name with
    | none => exact .inr (by simp [home, hs])
    | some s => exact .inl (by simpa [home, hs] using (stemClass?_classStem? h hs).2)
  | ofFunction f => exact l.functionStem_mem f
  | ofMain f => exact .inr rfl

end Layout

/-! ## The source files -/

/-- A source file, with the stem of its unit and what it defines. -/
structure SourceUnit where
  stem : Text
  holds : List Definable
  file : GeneratedFile

/-- The file of the unit holds includes, variables in the main unit, and functions. -/
structure SourceUnit.Written (p : Program) (o : OutputOptions) (source mainStem : Text) (u : SourceUnit) : Prop where
  name : u.file.name = u.stem ++ ".c"
  document : ∃ headers : List Text, u.file.document =
    banner source ++ deviceInclude o ++ headers.map includeLocal ++ [.blank] ++
      (if u.stem = mainStem then p.globalDefinitions ++ [.blank] else []) ++
      spaced (u.holds.flatMap p.functionsOf)

/-- The files of a batch are headers and one source file for each unit, which share out the definables. -/
structure Program.SharedOut (p : Program) (o : OutputOptions) (inputs : List Path) (headers : List GeneratedFile)
    (units : List SourceUnit) : Prop where
  files : p.generateBatch o inputs = headers ++ units.map SourceUnit.file
  headers : ∀ f ∈ headers, f.functions = []
  stems : (units.map SourceUnit.stem).Nodup
  written : ∀ u ∈ units, u.Written p o (sourceNames inputs) (ofInputs p inputs).mainStem
  /-- Nothing is lost and nothing is written twice. -/
  all : (units.flatMap SourceUnit.holds).Perm p.definables
  homes : ∀ u ∈ units, ∀ x ∈ u.holds, (ofInputs p inputs).home x = u.stem
  /-- A unit without a file is no input's and holds nothing. -/
  skipped : ∀ s ∈ (ofInputs p inputs).units, s ∉ units.map SourceUnit.stem →
    (∀ i ∈ inputs, i.stem? ≠ some s) ∧ (∀ x ∈ p.definables, (ofInputs p inputs).home x ≠ s) ∧ p.globals = []
  /-- The main unit has a file when only it can hold something. -/
  main : p.main.isSome ∨ p.globals ≠ [] → (ofInputs p inputs).mainStem ∈ units.map SourceUnit.stem

variable {items : List Item} {p : Program} {o : OutputOptions} {source mainStem : Text} {u : SourceUnit}

/-- The definition texts between empty lines are the definitions. -/
theorem filter_isFunction_spaced (h : ∀ i ∈ items, i.isFunction) : (spaced items).filter Item.isFunction = items := by
  induction items with
  | nil => rfl
  | cons i is ih =>
    have hi := h i mem_cons_self
    have his := ih fun j hj => h j (mem_cons_of_mem _ hj)
    simpa [spaced, hi] using his

theorem filter_isFunction_lines (h : ∀ i ∈ items, i.isFunction = false) : items.filter Item.isFunction = [] := by
  rw [filter_eq_nil_iff]
  intro i hi
  simp [h i hi]

theorem isFunction_banner : ∀ i ∈ banner source, i.isFunction = false := by
  simp [banner]

theorem isFunction_deviceInclude : ∀ i ∈ deviceInclude o, i.isFunction = false := by
  unfold deviceInclude
  split <;> simp

theorem isFunction_globalDefinitions : ∀ i ∈ p.globalDefinitions, i.isFunction = false := by
  simp [globalDefinitions]

theorem SourceUnit.Written.functions (h : u.Written p o source mainStem) : u.file.functions = u.holds.flatMap p.functionsOf := by
  obtain ⟨headers, hd⟩ := h.document
  have hitems : ∀ i ∈ u.holds.flatMap p.functionsOf, i.isFunction := by
    intro i hi
    obtain ⟨x, _, hx⟩ := mem_flatMap.1 hi
    exact p.isFunction_of_mem_functionsOf hx
  have hheaders : ∀ i ∈ headers.map includeLocal, i.isFunction = false := by
    simp [includeLocal]
  have hglob : ∀ i ∈ (if u.stem = mainStem then p.globalDefinitions ++ [.blank] else []), i.isFunction = false := by
    split
    · intro i hi
      rcases mem_append.1 hi with hi | hi
      · exact isFunction_globalDefinitions i hi
      · rw [mem_singleton.1 hi, Item.isFunction_blank]
    · simp
  rw [GeneratedFile.functions, hd]
  simp only [filter_append, filter_isFunction_lines isFunction_banner,
    filter_isFunction_lines isFunction_deviceInclude, filter_isFunction_lines hheaders,
    filter_isFunction_lines hglob, filter_isFunction_spaced hitems]
  simp

theorem SourceUnit.Written.isSource (h : u.Written p o source mainStem) : u.file.isSource := by
  rw [GeneratedFile.isSource, h.name]
  simp [Text.endsWith]

/-! ## Headers -/

theorem isFunction_guarded {stem : Text} {content : Document} (h : ∀ i ∈ content, i.isFunction = false) :
    ∀ i ∈ guarded source stem content, i.isFunction = false := by
  intro i hi
  simp only [guarded, mem_append, mem_cons, not_mem_nil, or_false] at hi
  rcases hi with ((hi | rfl | rfl | rfl) | hi) | rfl
  · exact isFunction_banner i hi
  · rfl
  · rfl
  · rfl
  · exact h i hi
  · rfl

theorem isFunction_prototypes (c : Class) : ∀ i ∈ p.classPrototypes c, i.isFunction = false := by
  intro i hi
  simp only [classPrototypes, mem_append, mem_map, mem_singleton] at hi
  rcases hi with ((rfl | ⟨f, _, rfl⟩) | ⟨f, _, rfl⟩) | rfl <;> rfl

/-- A type is no function: its name is after the brace. -/
theorem isFunction_typedef (head : Text) (body : List Text) (name : Text) :
    (Item.block head body ("\x7d " ++ name ++ ";")).isFunction = false := by
  simp [Item.isFunction]

theorem isFunction_declarationPart : ∀ i ∈ p.declarationPart o, i.isFunction = false := by
  intro i hi
  simp only [declarationPart, mem_append, mem_singleton, mem_flatMap] at hi
  rcases hi with (((((((((hi | rfl) | hi) | rfl) | hi) | hi) | ⟨c, _, hi | rfl⟩) | hi) | rfl) | hi) | rfl
  · simp only [standardIncludes, mem_cons, not_mem_nil, or_false] at hi
    rcases hi with rfl | rfl | rfl <;> rfl
  · rfl
  · simp only [xtalDefault, mem_cons, not_mem_nil, or_false] at hi
    rcases hi with rfl | rfl | rfl <;> rfl
  · rfl
  · simp only [enumTypes, mem_flatMap, mem_cons, not_mem_nil, or_false] at hi
    obtain ⟨e, _, rfl | rfl⟩ := hi
    · exact isFunction_typedef _ _ _
    · rfl
  · simp only [structTypes, mem_flatMap, mem_cons, not_mem_nil, or_false] at hi
    obtain ⟨c, _, rfl | rfl⟩ := hi
    · exact isFunction_typedef _ _ _
    · rfl
  · exact isFunction_prototypes c i hi
  · rfl
  · obtain ⟨f, _, rfl⟩ := mem_map.1 hi
    rfl
  · rfl
  · obtain ⟨g, _, rfl⟩ := mem_map.1 hi
    rfl
  · rfl

theorem functions_sharedHeader : (p.sharedHeader o source).functions = [] :=
  filter_isFunction_lines (isFunction_guarded isFunction_declarationPart)

theorem functions_classHeader? {l : Layout} {c : Class} {f : GeneratedFile} (h : p.classHeader? o source l c = some f) :
    f.functions = [] := by
  obtain ⟨stem, _, rfl⟩ := Option.map_eq_some_iff.1 h
  refine filter_isFunction_lines (isFunction_guarded ?_)
  intro i hi
  simp only [mem_append, mem_cons, not_mem_nil, or_false] at hi
  rcases hi with ((rfl | rfl) | hi) | rfl
  · rfl
  · rfl
  · exact isFunction_prototypes c i hi
  · rfl

/-! ## The units of a batch -/

/-- The elements collected by their image are those of the list. -/
theorem perm_flatMap_filter {α β : Type} [DecidableEq β] (f : α → β) (keys : List β) (xs : List α) (hk : keys.Nodup)
    (h : ∀ x ∈ xs, f x ∈ keys) : (keys.flatMap fun k => xs.filter fun x => f x = k).Perm xs := by
  induction keys generalizing xs with
  | nil =>
    have : xs = [] := eq_nil_iff_forall_not_mem.2 fun x hx => not_mem_nil (h x hx)
    simp [this]
  | cons k keys ih =>
    rw [nodup_cons] at hk
    have hr : ∀ x ∈ xs.filter (fun x => !decide (f x = k)), f x ∈ keys := by
      intro x hx
      obtain ⟨hx, hne⟩ := mem_filter.1 hx
      exact (mem_cons.1 (h x hx)).resolve_left (by simpa using hne)
    have hs : (keys.flatMap fun j => xs.filter fun x => f x = j) =
        keys.flatMap fun j => (xs.filter fun x => !decide (f x = k)).filter fun x => f x = j := by
      refine flatMap_congr fun j hj => ?_
      rw [filter_filter]
      refine filter_congr fun x _ => ?_
      have hne : j ≠ k := fun e => hk.1 (e ▸ hj)
      by_cases hx : f x = j
      · simp [hx, hne]
      · simp [hx]
    rw [flatMap_cons, hs]
    exact ((ih _ hk.2 hr).append_left _).trans (filter_append_perm (fun x => decide (f x = k)) xs)

namespace Program

variable (p : Program) {l : Layout} {stem source : Text} {x : Definable} {o : OutputOptions} {inputs : List Path}
  {headers : List GeneratedFile} {units : List SourceUnit}

/-- The definables in the order in which they are written. -/
def orderedDefinables : List Definable :=
  p.orderedClasses.map .ofClass ++ p.signatures.map .ofFunction ++ p.main.toList.map .ofMain

theorem orderedDefinables_perm {p : Program} (h : (p.classes.map Class.name).Nodup) : p.orderedDefinables.Perm p.definables :=
  (((p.orderedClasses_perm h).map _).append_right _).append_right _

theorem flatMap_functionsOf (cs : List Class) (fs ms : List Callable) :
    (cs.map Definable.ofClass ++ fs.map Definable.ofFunction ++ ms.map Definable.ofMain).flatMap p.functionsOf =
      cs.flatMap p.classFunctions ++ fs.map p.functionItem ++ ms.map p.mainItem := by
  rw [flatMap_append, flatMap_append, flatMap_map, flatMap_map, flatMap_map, map_eq_flatMap, map_eq_flatMap]
  rfl

/-- What a unit holds. -/
def unitHolds (l : Layout) (stem : Text) : List Definable :=
  p.orderedDefinables.filter fun x => l.home x = stem

theorem mem_unitHolds {p : Program} (h : (p.classes.map Class.name).Nodup) :
    x ∈ p.unitHolds l stem ↔ x ∈ p.definables ∧ l.home x = stem := by
  rw [unitHolds, mem_filter, (orderedDefinables_perm h).mem_iff, decide_eq_true_iff]

/-- A unit defines what has its home there. -/
theorem unitDefinitions_eq : p.unitDefinitions l stem = (p.unitHolds l stem).flatMap p.functionsOf := by
  rw [unitHolds, orderedDefinables, filter_append, filter_append, filter_map, filter_map, filter_map, flatMap_functionsOf]
  refine congrArg₂ (· ++ ·) rfl ?_
  by_cases h : stem = l.mainStem
  · simp [h, home, Function.comp_def]
  · simp [h, Ne.symm h, home]

/-- Everything that is defined has functions. -/
theorem functionsOf_ne_nil (x : Definable) : p.functionsOf x ≠ [] := by
  cases x <;> simp [functionsOf, classFunctions]

theorem unitDefinitions_eq_nil_iff : p.unitDefinitions l stem = [] ↔ p.unitHolds l stem = [] := by
  rw [unitDefinitions_eq, flatMap_eq_nil_iff]
  constructor
  · intro h
    exact eq_nil_iff_forall_not_mem.2 fun x hx => p.functionsOf_ne_nil x (h x hx)
  · intro h x hx
    rw [h] at hx
    nomatch hx

/-- A unit has no file only if no input owns it and there is nothing in it. -/
theorem unitFile?_eq_none (h : p.unitFile? o source l stem = none) :
    stem ∉ l.stems ∧ p.unitHolds l stem = [] ∧ p.globals = [] := by
  unfold unitFile? at h
  by_cases hsk : (!l.stems.contains stem && (p.unitDefinitions l stem).isEmpty && p.globals.isEmpty)
  · simpa [unitDefinitions_eq_nil_iff, and_assoc] using hsk
  · rw [if_neg hsk] at h
    nomatch h

/-- The file of a unit is written for what the unit holds. -/
theorem written_unitFile? {f : GeneratedFile} (h : p.unitFile? o source l stem = some f) :
    SourceUnit.Written p o source l.mainStem { stem, holds := p.unitHolds l stem, file := f } := by
  unfold unitFile? at h
  by_cases hsk : (!l.stems.contains stem && (p.unitDefinitions l stem).isEmpty && p.globals.isEmpty)
  · rw [if_pos hsk] at h
    nomatch h
  · rw [if_neg hsk] at h
    cases h
    refine ⟨rfl, o.sharedHeader :: (if (l.stemClass? stem).isSome then [stem ++ ".h"] else []), ?_⟩
    rw [← unitDefinitions_eq]
    cases (l.stemClass? stem).isSome <;> simp

/-- The units of a layout that have a file, with the file. -/
def sourceUnits (o : OutputOptions) (source : Text) (l : Layout) : List SourceUnit :=
  l.units.filterMap fun stem =>
    (p.unitFile? o source l stem).map fun file => { stem, holds := p.unitHolds l stem, file }

variable {p}

theorem mem_sourceUnits {u : SourceUnit} : u ∈ p.sourceUnits o source l ↔
      u.stem ∈ l.units ∧ p.unitFile? o source l u.stem = some u.file ∧ u.holds = p.unitHolds l u.stem := by
  rw [sourceUnits, mem_filterMap]
  constructor
  · rintro ⟨stem, hs, hu⟩
    obtain ⟨f, hf, rfl⟩ := Option.map_eq_some_iff.1 hu
    exact ⟨hs, hf, rfl⟩
  · rintro ⟨hs, hf, hh⟩
    exact ⟨u.stem, hs, by rw [hf, Option.map_some, ← hh]⟩

/-- A unit without a file is skipped for a reason. -/
theorem skipped_of_not_mem {s : Text} (hs : s ∈ l.units) (h : s ∉ (p.sourceUnits o source l).map SourceUnit.stem) :
    s ∉ l.stems ∧ p.unitHolds l s = [] ∧ p.globals = [] := by
  cases hf : p.unitFile? o source l s with
  | none => exact p.unitFile?_eq_none hf
  | some f =>
    have hu : SourceUnit.mk s (p.unitHolds l s) f ∈ p.sourceUnits o source l := mem_sourceUnits.2 ⟨hs, hf, rfl⟩
    exact absurd (mem_map_of_mem hu) h

theorem map_file_sourceUnits : (p.sourceUnits o source l).map SourceUnit.file = l.units.filterMap (p.unitFile? o source l) := by
  simp [sourceUnits, map_filterMap, Function.comp_def]

/-- The units with a file are some of the layout's, in order. -/
theorem map_stem_sourceUnits_sublist : ((p.sourceUnits o source l).map SourceUnit.stem).Sublist l.units := by
  rw [sourceUnits]
  generalize l.units = stems
  induction stems with
  | nil => exact List.Sublist.slnil
  | cons s stems ih =>
    rw [filterMap_cons]
    cases p.unitFile? o source l s with
    | none => exact ih.cons s
    | some f => exact ih.cons_cons s

/-- What the units with a file hold is what all units hold. -/
theorem flatMap_holds_sourceUnits : (p.sourceUnits o source l).flatMap SourceUnit.holds = l.units.flatMap (p.unitHolds l) := by
  rw [sourceUnits]
  induction l.units with
  | nil => rfl
  | cons s stems ih =>
    rw [filterMap_cons, flatMap_cons, ← ih]
    cases hf : p.unitFile? o source l s with
    | none => simp [(p.unitFile?_eq_none hf).2.1]
    | some f => simp

/-- The units with a file share out the definables of the program. -/
theorem sharedOut_sourceUnits (h : (p.classes.map Class.name).Nodup) (o : OutputOptions) (inputs : List Path) :
    let l := ofInputs p inputs
    let source := sourceNames inputs
    p.SharedOut o inputs (p.sharedHeader o source :: p.orderedClasses.filterMap (p.classHeader? o source l))
      (p.sourceUnits o source l) := by
  intro l source
  have hone : OneEach l.stems l.classStems := oneEach_ofInputs h inputs
  have huns : l.units.Nodup := nodup_units (nodup_stemsOf inputs)
  refine ⟨?_, ?_, ?_, ?_, ?_, ?_, ?_, ?_⟩
  · rw [map_file_sourceUnits]
    rfl
  · intro f hf
    rcases mem_cons.1 hf with rfl | hf
    · exact functions_sharedHeader
    · obtain ⟨c, _, hc⟩ := mem_filterMap.1 hf
      exact functions_classHeader? hc
  · exact huns.sublist map_stem_sourceUnits_sublist
  · intro u hu
    obtain ⟨_, hf, hh⟩ := mem_sourceUnits.1 hu
    have hw := p.written_unitFile? hf
    rwa [← hh] at hw
  · rw [flatMap_holds_sourceUnits]
    exact (perm_flatMap_filter l.home l.units _ huns fun x _ => home_mem_units hone x).trans
      (orderedDefinables_perm h)
  · intro u hu x hx
    rw [(mem_sourceUnits.1 hu).2.2] at hx
    exact ((mem_unitHolds h).1 hx).2
  · intro s hs hn
    obtain ⟨hsm, hho, hglob⟩ := skipped_of_not_mem hs hn
    refine ⟨fun i hi hst => hsm (mem_stemsOf.2 ⟨i, hi, hst⟩), fun x hx hhome => ?_, hglob⟩
    have hx' := (mem_unitHolds h).2 ⟨hx, hhome⟩
    rw [hho] at hx'
    nomatch hx'
  · intro hm
    by_contra hn
    obtain ⟨_, hho, hglob⟩ := skipped_of_not_mem (mem_units.2 (.inr rfl)) hn
    rcases hm with hm | hg
    · obtain ⟨f, hf⟩ := Option.isSome_iff_exists.1 hm
      have hmem : Definable.ofMain f ∈ p.unitHolds l l.mainStem :=
        (mem_unitHolds h).2 ⟨by simp [definables, hf], rfl⟩
      rw [hho] at hmem
      nomatch hmem
    · exact hg hglob

/-- Where units share out the definables, each is in one unit. -/
theorem SharedOut.existsUnique (h : p.SharedOut o inputs headers units) (hx : x ∈ p.definables) :
    ∃! u, u ∈ units ∧ x ∈ u.holds := by
  obtain ⟨u, hu, hxu⟩ := mem_flatMap.1 (h.all.mem_iff.2 hx)
  refine ⟨u, ⟨hu, hxu⟩, ?_⟩
  rintro v ⟨hv, hxv⟩
  exact inj_on_of_nodup_map h.stems hv hu ((h.homes v hv x hxv).symm.trans (h.homes u hu x hxu))

/-- Source files hold the functions of what their units hold. -/
theorem sourceFunctions_written {mainStem : Text} (h : ∀ u ∈ units, u.Written p o source mainStem) :
    sourceFunctions (units.map SourceUnit.file) = (units.flatMap SourceUnit.holds).flatMap p.functionsOf := by
  have hsrc : (units.map SourceUnit.file).filter GeneratedFile.isSource = units.map SourceUnit.file := by
    rw [filter_eq_self]
    intro f hf
    obtain ⟨u, hu, rfl⟩ := mem_map.1 hf
    exact (h u hu).isSource
  rw [sourceFunctions, hsrc, flatMap_map, flatMap_assoc]
  exact flatMap_congr fun u hu => (h u hu).functions

/-- Where units share out the definables, the files hold their functions. -/
theorem SharedOut.sourceFunctions_perm (h : p.SharedOut o inputs headers units) :
    (sourceFunctions (p.generateBatch o inputs)).Perm (p.definables.flatMap p.functionsOf) := by
  rw [h.files, sourceFunctions_append, sourceFunctions_of_headers h.headers, sourceFunctions_written h.written]
  exact h.all.flatMap_right _

/-- The single source file holds the functions of all definables. -/
theorem sourceFunctions_generateUnit (o : OutputOptions) (stem source : Text) :
    sourceFunctions (p.generateUnit o stem source) = p.orderedDefinables.flatMap p.functionsOf := by
  obtain ⟨header, code, hfs, hh, hc⟩ : ∃ header code, p.generateUnit o stem source = [header] ++ [code] ∧
      header.functions = [] ∧ SourceUnit.Written p o source stem ⟨stem, p.orderedDefinables, code⟩ := by
    refine ⟨_, _, rfl, filter_isFunction_lines (isFunction_guarded isFunction_declarationPart), rfl, [stem ++ ".h"], ?_⟩
    rw [orderedDefinables, flatMap_functionsOf, ← definitions]
    simp
  have hwr := sourceFunctions_written (forall_mem_singleton.2 hc)
  have hno := sourceFunctions_of_headers (forall_mem_singleton.2 hh)
  rw [hfs, sourceFunctions_append, hno]
  simpa using hwr

/-! ## The partition -/

/-- A batch is a partition of the program. Its source files share out the classes, the functions and `main`, each into the file
of its home unit; the variables are in the main unit. They hold the function definitions of the whole program's source file. A
class with a unit of its own is that unit's class, and the unit is the stem of an input. -/
theorem generateBatch_partition (p : Program) (h : (p.classes.map Class.name).Nodup) (o : OutputOptions)
    (inputs : List Path) :
    (∃ headers units, p.SharedOut o inputs headers units ∧ ∀ x ∈ p.definables, ∃! u, u ∈ units ∧ x ∈ u.holds) ∧
    (∀ stem source, (GeneratedFile.sourceFunctions (p.generateBatch o inputs)).Perm
      (GeneratedFile.sourceFunctions (p.generateUnit o stem source))) ∧
    ∀ c s, (ofInputs p inputs).classStem? c = some s →
      (ofInputs p inputs).stemClass? s = some c ∧ ∃ i ∈ inputs, i.stem? = some s := by
  have hshared := sharedOut_sourceUnits h o inputs
  refine ⟨⟨_, _, hshared, fun x hx => hshared.existsUnique hx⟩, ?_, ?_⟩
  · intro stem source
    rw [sourceFunctions_generateUnit]
    exact hshared.sourceFunctions_perm.trans ((orderedDefinables_perm h).symm.flatMap_right _)
  · intro c s hs
    obtain ⟨hclass, hstem⟩ := Layout.stemClass?_classStem? (Layout.oneEach_ofInputs h inputs) hs
    exact ⟨hclass, Layout.mem_stemsOf.1 hstem⟩

/-- Two classes that ask for one unit, a function without a file, `main` and a variable. -/
def twoClasses : Program where
  classes := [{ name := "Led", keyword := .classWord }, { name := "LED", keyword := .classWord }]
  functions := [{ name := "poll", signatures := [{ name := "poll", rawType := "void ()", cName := "poll" }] }]
  globals := [{ name := "ticks", type := "int", hasInit := false }]
  main := some { name := "main", rawType := "int ()", definedIn := some ⟨"app.cpp"⟩, cName := "main" }

theorem generateBatch_partition_twoClasses :
    (twoClasses.classes.map Class.name).Nodup ∧
      (∃ headers units, twoClasses.SharedOut {} [⟨"led.cpp"⟩, ⟨"app.cpp"⟩] headers units) ∧
      (ofInputs twoClasses [⟨"led.cpp"⟩, ⟨"app.cpp"⟩]).stemClass? "led" = some "Led".toList := by
  have h : (twoClasses.classes.map Class.name).Nodup := by decide
  obtain ⟨⟨headers, units, hshared, _⟩, _, hstem⟩ :=
    generateBatch_partition twoClasses h {} [⟨"led.cpp"⟩, ⟨"app.cpp"⟩]
  exact ⟨h, ⟨headers, units, hshared⟩, (hstem "Led" "led" (by decide +kernel)).1⟩

end Program

end Declass
