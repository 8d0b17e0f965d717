import Declass.Output.Batch
import Declass.Output.Layout
import Declass.Program.Build
import Declass.Project.Config
import Declass.Proofs.Output.Order
import Mathlib.Data.List.Nodup
import Mathlib.Tactic.Tauto

/-!
# Layouts of a batch

The map from classes to units and the map from units to classes undo each other. Main statement: the files of a batch have different
names if and only if the shared header is named like none of the others (`Program.nodup_names_generateBatch_iff`).
-/

namespace Declass

open List

namespace Layout

/-! ## Stems of the inputs -/

/-- Adding what is not there yet keeps a list free of repetitions, and adds all. -/
theorem nodup_foldl_add (xs stems : List Text) (h : stems.Nodup) :
    (xs.foldl (fun stems s => if stems.contains s then stems else stems ++ [s]) stems).Nodup ∧
      ∀ s, s ∈ xs.foldl (fun stems s => if stems.contains s then stems else stems ++ [s]) stems ↔ s ∈ stems ∨ s ∈ xs := by
  induction xs generalizing stems with
  | nil => simpa using h
  | cons x xs ih =>
    rw [foldl_cons]
    by_cases hx : stems.contains x
    · rw [if_pos hx]
      obtain ⟨hn, hm⟩ := ih stems h
      refine ⟨hn, fun s => ?_⟩
      have : x ∈ stems := by simpa using hx
      rw [hm, mem_cons]
      constructor
      · tauto
      · rintro (hs | rfl | hs) <;> tauto
    · rw [if_neg hx]
      have hx' : x ∉ stems := by simpa using hx
      have hnd : (stems ++ [x]).Nodup := concat_eq_append ▸ h.concat hx'
      obtain ⟨hn, hm⟩ := ih _ hnd
      refine ⟨hn, fun s => ?_⟩
      rw [hm, mem_cons, mem_append, mem_singleton, or_assoc]

theorem nodup_stemsOf (inputs : List Path) : (stemsOf inputs).Nodup :=
  (nodup_foldl_add _ [] nodup_nil).1

variable {s : Text} {stems : List Text} {c : Class} {taken : List (Text × Text)} {l : Layout}

/-- The stems are those of the inputs. -/
theorem mem_stemsOf {inputs : List Path} : s ∈ stemsOf inputs ↔ ∃ i ∈ inputs, i.stem? = some s := by
  unfold stemsOf
  rw [(nodup_foldl_add _ [] nodup_nil).2]
  simp

theorem mem_of_stemAmong? {i : Path} (h : stemAmong? stems i = some s) : s ∈ stems := by
  have := (Option.filter_eq_some_iff.1 h).2
  simpa using this

/-- A class asks for one of the stems. -/
theorem mem_of_wantedStem? (h : wantedStem? stems c = some s) : s ∈ stems := by
  rcases Option.or_eq_some_iff.1 h with h | ⟨_, h⟩
  · exact mem_of_find?_eq_some h
  · obtain ⟨i, _, hi⟩ := Option.bind_eq_some_iff.1 h
    exact mem_of_stemAmong? hi

/-! ## Classes and their units -/

/-- Classes with their units, none listed twice, and all units are stems. -/
structure OneEach (stems : List Text) (taken : List (Text × Text)) : Prop where
  classes : (taken.map Prod.fst).Nodup
  units : (taken.map Prod.snd).Nodup
  stems : ∀ e ∈ taken, e.2 ∈ stems

/-- One more class with a new name takes a free unit or none. -/
theorem OneEach.addClass (h : OneEach stems taken) (hc : c.name ∉ taken.map Prod.fst) :
    OneEach stems (addClass stems taken c) := by
  unfold Layout.addClass
  split
  · exact h
  · rename_i s hs
    split
    · exact h
    · rename_i hfree
      refine ⟨?_, ?_, ?_⟩
      · rw [map_append, map_singleton, ← concat_eq_append]
        exact .concat hc h.classes
      · rw [map_append, map_singleton, ← concat_eq_append]
        refine .concat (fun hm => hfree ?_) h.units
        obtain ⟨e, he, hes⟩ := mem_map.1 hm
        exact any_eq_true.2 ⟨e, he, by simpa using hes⟩
      · intro e he
        rcases mem_append.1 he with he | he
        · exact h.stems e he
        · rw [mem_singleton.1 he]
          exact mem_of_wantedStem? hs

theorem fst_addClass_subset : ∀ n ∈ (addClass stems taken c).map Prod.fst, n ∈ taken.map Prod.fst ∨ n = c.name := by
  intro n hn
  unfold addClass at hn
  split at hn
  · exact .inl hn
  · split at hn
    · exact .inl hn
    · simpa using hn

theorem OneEach.foldl (cs : List Class) (h : OneEach stems taken) (hn : (cs.map Class.name).Nodup)
    (hd : ∀ c ∈ cs, c.name ∉ taken.map Prod.fst) : OneEach stems (cs.foldl (Layout.addClass stems) taken) := by
  induction cs generalizing taken with
  | nil => exact h
  | cons c cs ih =>
    rw [map_cons, nodup_cons] at hn
    refine ih (h.addClass (hd c mem_cons_self)) hn.2 ?_
    intro d hd' hm
    rcases fst_addClass_subset _ hm with hm | hm
    · exact hd d (mem_cons_of_mem _ hd') hm
    · exact hn.1 (hm ▸ mem_map_of_mem hd')

/-- In a layout of distinct class names nothing is listed twice. -/
theorem oneEach_ofInputs {p : Program} (h : (p.classes.map Class.name).Nodup) (inputs : List Path) :
    OneEach (ofInputs p inputs).stems (ofInputs p inputs).classStems :=
  OneEach.foldl p.classes ⟨by simp, by simp, by simp⟩ h (by simp)

/-- Where each unit is listed once, it leads back to its class. -/
theorem stemClass?_classStem? (h : OneEach l.stems l.classStems) {name : Text} (hs : l.classStem? name = some s) :
    l.stemClass? s = some name ∧ s ∈ l.stems := by
  obtain ⟨before, rest, hl, _⟩ := lookup_eq_some_iff.1 hs
  have hmem : (name, s) ∈ l.classStems := by simp [hl]
  refine ⟨?_, h.stems _ hmem⟩
  unfold stemClass?
  cases hf : l.classStems.find? (·.2 = s) with
  | none =>
    have := find?_eq_none.1 hf _ hmem
    simp at this
  | some e =>
    have he := find?_some hf
    have := inj_on_of_nodup_map h.units (mem_of_find?_eq_some hf) hmem (by simpa using he)
    simp [this]

/-! ## Homes -/

theorem functionStem_mem (l : Layout) (f : Callable) : l.functionStem f ∈ l.stems ∨ l.functionStem f = l.mainStem := by
  unfold functionStem
  cases h : f.definitionFile?.bind (stemAmong? l.stems) with
  | none => exact .inr rfl
  | some s =>
    obtain ⟨i, _, hi⟩ := Option.bind_eq_some_iff.1 h
    exact .inl (mem_of_stemAmong? hi)

theorem mem_units : s ∈ l.units ↔ s ∈ l.stems ∨ s = l.mainStem := by
  unfold units
  split
  · rename_i h
    have : l.mainStem ∈ l.stems := by simpa using h
    constructor
    · exact .inl
    · rintro (hs | rfl)
      · exact hs
      · exact this
  · simp

theorem nodup_units (h : l.stems.Nodup) : l.units.Nodup := by
  unfold units
  split
  · exact h
  · rename_i hc
    have hm : l.mainStem ∉ l.stems := by simpa using hc
    rw [← concat_eq_append]
    exact .concat hm h

end Layout

namespace Program

variable {p : Program} {o : OutputOptions} {source : Text} {l : Layout} {inputs : List Path}

theorem name_unitFile? {stem : Text} {f : GeneratedFile} (h : p.unitFile? o source l stem = some f) : f.name = stem ++ ".c" := by
  unfold unitFile? at h
  dsimp only at h
  split at h
  · cases h
  · cases h
    rfl

/-- The headers of classes are named after their units. -/
theorem names_classHeaders (cs : List Class) : (cs.filterMap (p.classHeader? o source l)).map GeneratedFile.name =
    ((cs.map Class.name).filterMap l.classStem?).map (· ++ (".h" : Text)) := by
  rw [map_filterMap, filterMap_map, map_filterMap]
  exact filterMap_congr fun c _ => by simp [classHeader?, Function.comp_def]

theorem nodup_names_classHeaders (h : (p.classes.map Class.name).Nodup) (source : Text) :
    ((p.orderedClasses.filterMap (p.classHeader? o source (.ofInputs p inputs))).map GeneratedFile.name).Nodup := by
  rw [names_classHeaders]
  have hone := Layout.oneEach_ofInputs h inputs
  refine .map (fun s s' he => append_cancel_right he) (.filterMap (fun n n' s hs hs' => ?_) ?_)
  · have hn := (Layout.stemClass?_classStem? hone hs).1
    rw [(Layout.stemClass?_classStem? hone hs').1] at hn
    exact (Option.some.inj hn).symm
  · exact ((orderedClasses_perm h).map Class.name).nodup_iff.2 h

theorem nodup_names_unitFiles (h : l.stems.Nodup) : ((l.units.filterMap (p.unitFile? o source l)).map GeneratedFile.name).Nodup := by
  rw [map_filterMap]
  refine .filterMap (fun s s' name hs hs' => ?_) (Layout.nodup_units h)
  obtain ⟨f, hf, rfl⟩ := Option.map_eq_some_iff.1 hs
  obtain ⟨f', hf', heq⟩ := Option.map_eq_some_iff.1 hs'
  rw [name_unitFile? hf, name_unitFile? hf'] at heq
  exact (append_cancel_right heq).symm

theorem mem_names_classHeaders {name : Text} :
    name ∈ (p.orderedClasses.filterMap (p.classHeader? o source l)).map GeneratedFile.name ↔
      ∃ c ∈ p.orderedClasses, ∃ stem, l.classStem? c.name = some stem ∧ name = stem ++ ".h" := by
  rw [names_classHeaders, mem_map]
  simp only [mem_filterMap, mem_map]
  constructor
  · rintro ⟨stem, ⟨-, ⟨c, hc, rfl⟩, hs⟩, rfl⟩
    exact ⟨c, hc, stem, hs, rfl⟩
  · rintro ⟨c, hc, stem, hs, rfl⟩
    exact ⟨stem, ⟨_, ⟨c, hc, rfl⟩, hs⟩, rfl⟩

theorem mem_names_unitFiles {name : Text} : name ∈ (l.units.filterMap (p.unitFile? o source l)).map GeneratedFile.name ↔
    ∃ stem ∈ l.units, (p.unitFile? o source l stem).isSome = true ∧ name = stem ++ ".c" := by
  simp only [mem_map, mem_filterMap, Option.isSome_iff_exists]
  constructor
  · rintro ⟨f, ⟨stem, hs, hf⟩, rfl⟩
    exact ⟨stem, hs, ⟨f, hf⟩, name_unitFile? hf⟩
  · rintro ⟨stem, hs, ⟨f, hf⟩, rfl⟩
    exact ⟨f, ⟨stem, hs, hf⟩, name_unitFile? hf⟩

/-- The files of a batch have different names just if the shared header has no name of a class's header or a unit's source
file. -/
theorem nodup_names_generateBatch_iff (p : Program) (h : (p.classes.map Class.name).Nodup) (o : OutputOptions) (inputs : List Path) :
    ((p.generateBatch o inputs).map GeneratedFile.name).Nodup ↔
      (∀ c ∈ p.classes, ∀ stem, (Layout.ofInputs p inputs).classStem? c.name = some stem → o.sharedHeader ≠ stem ++ ".h") ∧
      ∀ stem ∈ (Layout.ofInputs p inputs).units,
        (p.unitFile? o (sourceNames inputs) (.ofInputs p inputs) stem).isSome → o.sharedHeader ≠ stem ++ ".c" := by
  have hapart : ∀ stem stem' : Text, stem ++ ".h" ≠ stem' ++ ".c" := fun stem stem' he => by
    simpa using congrArg getLast? he
  unfold generateBatch
  dsimp only
  rw [cons_append, map_cons, nodup_cons, map_append, mem_append, mem_names_classHeaders, mem_names_unitFiles, nodup_append']
  constructor
  · rintro ⟨hnot, -⟩
    refine ⟨fun c hc stem hs he => hnot (.inl ⟨c, (orderedClasses_perm h).mem_iff.2 hc, stem, hs, he⟩), ?_⟩
    exact fun stem hs hf he => hnot (.inr ⟨stem, hs, hf, he⟩)
  · rintro ⟨hclass, hunit⟩
    refine ⟨?_, nodup_names_classHeaders h _, nodup_names_unitFiles (Layout.nodup_stemsOf inputs), fun name hn hn' => ?_⟩
    · rintro (⟨c, hc, stem, hs, he⟩ | ⟨stem, hs, hf, he⟩)
      · exact hclass c ((orderedClasses_perm h).mem_iff.1 hc) stem hs he
      · exact hunit stem hs hf he
    · obtain ⟨-, -, stem, -, rfl⟩ := mem_names_classHeaders.1 hn
      obtain ⟨stem', -, -, he⟩ := mem_names_unitFiles.1 hn'
      exact hapart stem stem' he

def loneClass : Program :=
  { classes := [⟨"Led", .classWord, [], [], [], false, none⟩] }

theorem nodup_names_generateBatch_loneClass :
    ((loneClass.generateBatch {} [⟨"led.cpp"⟩, ⟨"main.cpp"⟩]).map GeneratedFile.name).Nodup :=
  (nodup_names_generateBatch_iff loneClass (by decide) {} [⟨"led.cpp"⟩, ⟨"main.cpp"⟩]).2 ⟨by decide, by decide⟩

/-- A shared header may take the place of a class's header. -/
theorem shared_header_repeats_name : ∃ c : Config, c.validate = .ok c ∧
    (absorbAll {} [.record "Led" .classWord none]).finish = .ok loneClass ∧
    (loneClass.generateBatch c.outputOptions [⟨"led.cpp"⟩]).map GeneratedFile.name = ["led.h", "led.h", "led.c"] :=
  ⟨{ output := { sharedHeader := "led.h" } }, by decide, by decide, by decide⟩

end Program

end Declass
