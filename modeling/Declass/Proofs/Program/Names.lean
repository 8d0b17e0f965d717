import Declass.Proofs.Output.Partition
import Declass.Proofs.Program.Keyed
import Mathlib.Data.List.Pairwise

/-!
# C names of a finished program

The functions and constants of a program share one name space, but a program is finished with a look at constructors and functions
only. `finish_names_nodup_iff` says when a name is given twice nevertheless.
-/

namespace Declass

open List
open Callable (cName)
open Tag (suffix)

/-! ## The checks -/

namespace Callable

theorem clash?_eq_none_iff (fs : List Callable) : clash? fs = none ↔ (fs.map cName).Nodup := by
  induction fs with
  | nil => simp [clash?]
  | cons a fs ih =>
    rw [map_cons, nodup_cons, ← ih, clash?]
    cases h : fs.find? (·.cName = a.cName) with
    | some b =>
      have hb : b.cName = a.cName := by simpa using find?_some h
      have hmem := mem_map_of_mem (f := cName) (mem_of_find?_eq_some h)
      rw [hb] at hmem
      simp [hmem]
    | none =>
      have hnot : a.cName ∉ fs.map cName := by
        intro hm
        obtain ⟨b, hb, hba⟩ := mem_map.1 hm
        simpa [hba] using find?_eq_none.1 h b hb
      simp [hnot]

theorem repeat?_eq_none_iff (seen fs : List Callable) :
    repeat? seen fs = none ↔ (fs.map cName).Nodup ∧ ∀ a ∈ seen, a.cName ∉ fs.map cName := by
  induction fs generalizing seen with
  | nil => simp [repeat?]
  | cons b fs ih =>
    unfold repeat?
    cases h : seen.find? (·.cName = b.cName) with
    | some a =>
      have ha : a.cName = b.cName := by simpa using find?_some h
      simp only [reduceCtorEq, false_iff, not_and]
      intro _ hse
      exact hse a (mem_of_find?_eq_some h) (by simp [ha])
    | none =>
      have hnot : ∀ a ∈ seen, a.cName ≠ b.cName := by simpa using h
      rw [ih, map_cons, nodup_cons]
      simp only [mem_append, mem_singleton, mem_cons (a := cName _), not_or]
      constructor
      · rintro ⟨hn, hall⟩
        exact ⟨⟨hall b (.inr rfl), hn⟩, fun a ha => ⟨hnot a ha, hall a (.inl ha)⟩⟩
      · rintro ⟨⟨hb, hn⟩, hall⟩
        refine ⟨hn, ?_⟩
        rintro a (ha | rfl)
        · exact (hall a ha).2
        · exact hb

end Callable

namespace Program

/-- Without a collision constructors of a class and functions have distinct names. -/
theorem collision?_eq_none_iff (p : Program) : p.collision? = none ↔
      (∀ c ∈ p.classes, (c.constructors.map cName).Nodup) ∧ (p.signatures.map cName).Nodup := by
  simp only [collision?, Option.or_eq_none_iff, findSome?_eq_none_iff, Option.map_eq_none_iff,
    Callable.clash?_eq_none_iff, Callable.repeat?_eq_none_iff]
  constructor
  · rintro ⟨hc, _, hf, _⟩
    exact ⟨hc, hf⟩
  · rintro ⟨hc, hf⟩
    refine ⟨hc, ?_, hf, by simp⟩
    intro s hs
    rw [signatures, map_flatMap, nodup_flatMap] at hf
    exact hf.1 s hs

variable {p : Program}

theorem finish_eq_ok {q : Program} (h : p.finish = .ok q) :
    q = p.withoutPlain.named ∧ (∀ c ∈ q.classes, (c.constructors.map cName).Nodup) ∧ (q.signatures.map cName).Nodup := by
  simp only [finish] at h
  cases hc : p.withoutPlain.named.collision? with
  | some e =>
    rw [hc] at h
    nomatch h
  | none =>
    rw [hc] at h
    cases h
    exact ⟨rfl, (collision?_eq_none_iff _).1 hc⟩

/-- A program is finished unless constructors or functions get one C name. -/
theorem exists_finish_iff : (∃ q, p.finish = .ok q) ↔ (∀ c ∈ p.withoutPlain.named.classes, (c.constructors.map cName).Nodup) ∧
        (p.withoutPlain.named.signatures.map cName).Nodup := by
  rw [← collision?_eq_none_iff, finish]
  cases p.withoutPlain.named.collision? <;> simp

end Program

/-! ## The names that a program defines -/

namespace Class

/-- The C functions of a class, from its set-up to its clean-up. -/
def functionNames (c : Class) : List Text :=
  c.initName :: c.parameterized.map cName ++ c.methods.map cName ++ [c.cleanupName]

/-- What the C functions of the class are called within the class. -/
def members (c : Class) : List Text :=
  ("init" : Text) :: c.parameterized.map (fun f => "init" ++ suffix f.paramTypes) ++
    c.methods.map Callable.name ++ [("cleanup" : Text)]

/-- The C name of a member. -/
def memberName (c : Class) (m : Text) : Text :=
  c.name ++ "_" ++ m

theorem memberName_injective (c : Class) : Function.Injective c.memberName := by
  intro m n h
  exact append_cancel_left h

end Class

namespace Enumeration

/-- The C names of the constants. -/
def constantNames (e : Enumeration) : List Text :=
  e.constants.map EnumConstant.name

end Enumeration

namespace Program

variable (p : Program)

/-- The C functions of the program. -/
def functionNames : List Text :=
  p.classes.flatMap Class.functionNames ++ p.signatures.map cName ++ p.main.toList.map cName

/-- The names defined at file scope: functions and constants. -/
def fileScopeNames : List Text :=
  p.functionNames ++ p.enums.flatMap Enumeration.constantNames

/-- The names do not run into each other across the ways they are made. -/
structure NamesApart : Prop where
  /-- No method is called like a function that its class has anyway. -/
  methods : ∀ c ∈ p.classes, ∀ f ∈ c.methods, f.name ≠ "init".toList ∧ f.name ≠ "cleanup".toList ∧
    ∀ k ∈ c.parameterized, f.name ≠ "init" ++ suffix k.paramTypes
  /-- Where a class name continues another after `_`, no member of that is met. -/
  classes : ∀ c ∈ p.classes, ∀ d ∈ p.classes, ∀ rest, d.name = c.name ++ "_" ++ rest →
    ∀ m ∈ d.members, rest ++ "_" ++ m ∉ c.members
  /-- No function is called like a member of a class. -/
  functions : ∀ f ∈ p.signatures, ∀ c ∈ p.classes, ∀ m ∈ c.members, f.cName ≠ c.memberName m
  /-- No two enumerations have a constant of one name. -/
  enums : ∀ e ∈ p.enums, ∀ e' ∈ p.enums, e.name ≠ e'.name → ∀ n ∈ e.constantNames, n ∉ e'.constantNames
  /-- No constant is called like a function. -/
  constants : ∀ e ∈ p.enums, ∀ n ∈ e.constantNames, n ∉ p.functionNames

/-- What `finish` gives: C names made in known ways, distinct where compared. -/
structure Finished : Prop extends p.Keyed where
  constructorNames : ∀ c ∈ p.classes, (c.constructors.map cName).Nodup
  signatureNames : (p.signatures.map cName).Nodup
  parameterizedName : ∀ c ∈ p.classes, ∀ f ∈ c.parameterized,
    f.cName = c.memberName ("init" ++ suffix f.paramTypes)
  methodName : ∀ c ∈ p.classes, ∀ f ∈ c.methods, f.cName = c.memberName f.name
  signatureName : ∀ f ∈ p.signatures, f.cName ≠ "main".toList
  mainName : ∀ f ∈ p.main, f.cName = "main".toList

variable {p}

theorem suffix_ne_nil (types : List Text) : ∃ c t, suffix types = '_' :: c :: t := by
  cases types with
  | nil | cons => exact ⟨_, _, rfl⟩

theorem underscore_mem_mangled (base : Text) (types : List Text) : '_' ∈ Tag.mangled base types := by
  obtain ⟨c, t, h⟩ := suffix_ne_nil types
  simp [Tag.mangled, h]

theorem finished_of_finish {q : Program} (hp : p.Keyed) (h : p.finish = .ok q) : q.Finished := by
  obtain ⟨rfl, hc, hs⟩ := finish_eq_ok h
  refine ⟨hp.withoutPlain.named, hc, hs, ?_, ?_, ?_, ?_⟩
  · intro c hc f hf
    obtain ⟨c', _, rfl⟩ := mem_map.1 hc
    obtain ⟨hf, hps⟩ := mem_filter.1 hf
    obtain ⟨f', _, rfl⟩ := mem_map.1 hf
    have hne : ¬f'.params.isEmpty := by simpa using hps
    show (if f'.params.isEmpty then _ else Tag.mangled (c'.name ++ "_init") f'.paramTypes) = _
    rw [if_neg hne, Tag.mangled]
    simp [Class.memberName, Class.named, Callable.paramTypes]
  · intro c hc f hf
    obtain ⟨c', _, rfl⟩ := mem_map.1 hc
    obtain ⟨f', _, rfl⟩ := mem_map.1 hf
    rfl
  · intro f hf
    obtain ⟨s, hs, hfs⟩ := mem_flatMap.1 hf
    obtain ⟨s', hs', rfl⟩ := mem_map.1 hs
    obtain ⟨f', hf', rfl⟩ := mem_map.1 hfs
    show (if s'.isOverloaded then Tag.mangled f'.name f'.paramTypes else f'.name) ≠ _
    split
    · intro hm
      have hmem := underscore_mem_mangled f'.name f'.paramTypes
      rw [hm] at hmem
      exact absurd hmem (by decide)
    · exact hp.withoutPlain.functions f' (mem_flatMap.2 ⟨s', hs', hf'⟩)
  · intro f hf
    obtain ⟨f', _, rfl⟩ := Option.map_eq_some_iff.1 hf
    rfl

/-! ## When the names are distinct -/

/-- Lists from distinct keys have no repetition if none has one and no two meet. -/
theorem nodup_flatMap_keyed {α β γ : Type} {key : α → β} {f : α → List γ} {xs : List α} (hk : (xs.map key).Nodup) :
    (xs.flatMap f).Nodup ↔ (∀ x ∈ xs, (f x).Nodup) ∧ ∀ x ∈ xs, ∀ y ∈ xs, key x ≠ key y → ∀ n ∈ f x, n ∉ f y := by
  rw [nodup_flatMap]
  refine and_congr_right fun _ => ?_
  constructor
  · intro hp x hx y hy hne n hn hn'
    have : Std.Symm (Function.onFun List.Disjoint f) := ⟨fun _ _ h _ ha hb => h hb ha⟩
    exact hp.forall hx hy (fun e => hne (congrArg key e)) hn hn'
  · intro hall
    have hpr : xs.Pairwise fun x y => key x ≠ key y := pairwise_map.1 hk
    refine hpr.imp_of_mem ?_
    intro x y hx hy hne n hn hn'
    exact hall x hx y hy hne n hn hn'

/-- Member names of different classes meet only where class names do. -/
theorem memberName_eq_iff {c d : Class} (hne : c.name ≠ d.name) {m n : Text} : c.memberName m = d.memberName n ↔
      (∃ rest, d.name = c.name ++ "_" ++ rest ∧ m = rest ++ "_" ++ n) ∨
        ∃ rest, c.name = d.name ++ "_" ++ rest ∧ n = rest ++ "_" ++ m := by
  have hcases : ∀ a b u v : Text, a ≠ b → a ++ ('_' :: u) = b ++ ('_' :: v) →
      (∃ rest, b = a ++ '_' :: rest ∧ u = rest ++ '_' :: v) ∨ ∃ rest, a = b ++ '_' :: rest ∧ v = rest ++ '_' :: u := by
    intro a b u v hab h
    rcases append_eq_append_iff.1 h with ⟨l, hb, hu⟩ | ⟨l, ha, hv⟩
    · cases l with
      | nil => exact absurd (by simpa using hb.symm) hab
      | cons x l =>
        obtain ⟨rfl, hu'⟩ := List.cons.inj hu
        exact .inl ⟨l, hb, hu'⟩
    · cases l with
      | nil => exact absurd (by simpa using ha) hab
      | cons x l =>
        obtain ⟨rfl, hv'⟩ := List.cons.inj hv
        exact .inr ⟨l, ha, hv'⟩
  constructor
  · intro h
    have := hcases c.name d.name m n hne (by simpa [Class.memberName] using h)
    simpa using this
  · rintro (⟨rest, hd, rfl⟩ | ⟨rest, hc, rfl⟩)
    · simp [Class.memberName, hd]
    · simp [Class.memberName, hc]

/-- `main` is no member of a class. -/
theorem main_ne_memberName (c : Class) (m : Text) : c.memberName m ≠ "main".toList := by
  intro heq
  have hmem : '_' ∈ c.memberName m := by simp [Class.memberName]
  rw [heq] at hmem
  exact absurd hmem (by decide)

namespace Finished

variable (h : p.Finished) {c : Class}
include h

theorem functionNames_eq (hc : c ∈ p.classes) : c.functionNames = c.members.map c.memberName := by
  have hctors : c.parameterized.map cName =
      c.parameterized.map fun f => c.memberName ("init" ++ suffix f.paramTypes) :=
    map_congr_left fun f hf => h.parameterizedName c hc f hf
  have hms : c.methods.map cName = c.methods.map fun f => c.memberName f.name :=
    map_congr_left fun f hf => h.methodName c hc f hf
  rw [Class.functionNames, Class.members, hctors, hms]
  simp [Class.initName, Class.cleanupName, Class.memberName, Function.comp_def]

/-- The constructors of a class are called differently. -/
theorem nodup_constructorMembers (hc : c ∈ p.classes) : (c.parameterized.map fun f => "init" ++ suffix f.paramTypes).Nodup := by
  have hns : (c.parameterized.map cName).Nodup :=
    (h.constructorNames c hc).sublist (filter_sublist.map _)
  rw [map_congr_left fun f hf => h.parameterizedName c hc f hf] at hns
  exact List.Nodup.of_map c.memberName (by simpa [Function.comp_def] using hns)

/-- Members differ in name if no method takes another function's. -/
theorem nodup_members_iff (hc : c ∈ p.classes) :
    c.members.Nodup ↔ ∀ f ∈ c.methods, f.name ≠ "init".toList ∧ f.name ≠ "cleanup".toList ∧
      ∀ k ∈ c.parameterized, f.name ≠ "init" ++ suffix k.paramTypes := by
  have hin : ∀ f ∈ c.parameterized, "init" ++ suffix f.paramTypes ≠ "init" := by
    intro f _ heq
    obtain ⟨x, t, ht⟩ := suffix_ne_nil f.paramTypes
    simp [ht] at heq
  have hcleanup : ∀ f ∈ c.parameterized, "init" ++ suffix f.paramTypes ≠ "cleanup" := by
    intro f _ heq
    simp at heq
  have hctors := h.nodup_constructorMembers hc
  have hms : (c.methods.map Callable.name).Nodup := h.methods c hc
  simp only [Class.members, cons_append, nodup_cons, nodup_append, mem_append, mem_map, mem_singleton]
  constructor
  · rintro ⟨hi, ⟨⟨_, _, hcm⟩, _, hl⟩⟩ f hf
    refine ⟨?_, ?_, ?_⟩
    · intro heq
      exact hi (.inl (.inr ⟨f, hf, heq⟩))
    · exact hl f.name (.inr ⟨f, hf, rfl⟩) _ rfl
    · intro k hk
      exact (hcm _ ⟨k, hk, rfl⟩ _ ⟨f, hf, rfl⟩).symm
  · intro hall
    refine ⟨?_, ⟨⟨hctors, hms, ?_⟩, by simp, ?_⟩⟩
    · rintro ((⟨k, hk, heq⟩ | ⟨f, hf, heq⟩) | heq)
      · exact hin k hk heq
      · exact (hall f hf).1 heq
      · exact absurd heq (by decide)
    · rintro _ ⟨k, hk, rfl⟩ _ ⟨f, hf, rfl⟩
      exact ((hall f hf).2.2 k hk).symm
    · rintro _ (⟨k, hk, rfl⟩ | ⟨f, hf, rfl⟩) _ rfl
      · exact hcleanup k hk
      · exact (hall f hf).2.1

/-- All classes' function names are distinct if each class's are. -/
theorem nodup_classNames_iff : (p.classes.flatMap Class.functionNames).Nodup ↔
      (∀ c ∈ p.classes, c.members.Nodup) ∧ ∀ c ∈ p.classes, ∀ d ∈ p.classes, ∀ rest, d.name = c.name ++ "_" ++ rest →
        ∀ m ∈ d.members, rest ++ "_" ++ m ∉ c.members := by
  rw [nodup_flatMap_keyed h.classes]
  refine and_congr ?_ ?_
  · refine forall₂_congr fun c hc => ?_
    rw [h.functionNames_eq hc, nodup_map_iff c.memberName_injective]
  · constructor
    · intro hall c hc d hd rest hr m hm hmem
      have hne : c.name ≠ d.name := by
        intro heq
        have := congrArg List.length (heq.trans hr)
        simp at this
      have hdis := hall c hc d hd hne (c.memberName (rest ++ "_" ++ m))
      rw [h.functionNames_eq hc, h.functionNames_eq hd] at hdis
      refine hdis (mem_map_of_mem hmem) ?_
      rw [(memberName_eq_iff hne).2 (.inl ⟨rest, hr, rfl⟩)]
      exact mem_map_of_mem hm
    · intro hall c hc d hd hne n hn hn'
      rw [h.functionNames_eq hc] at hn
      rw [h.functionNames_eq hd] at hn'
      obtain ⟨m, hm, rfl⟩ := mem_map.1 hn
      obtain ⟨m', hm', heq⟩ := mem_map.1 hn'
      rcases (memberName_eq_iff hne).1 heq.symm with ⟨rest, hr, rfl⟩ | ⟨rest, hr, rfl⟩
      · exact hall c hc d hd rest hr m' hm' hm
      · exact hall d hd c hc rest hr m hm hm'

/-- All function names are distinct if those of classes are and none is taken. -/
theorem nodup_functionNames_iff : p.functionNames.Nodup ↔ (p.classes.flatMap Class.functionNames).Nodup ∧
      ∀ f ∈ p.signatures, ∀ c ∈ p.classes, ∀ m ∈ c.members, f.cName ≠ c.memberName m := by
  have hmem : ∀ n, n ∈ p.classes.flatMap Class.functionNames ↔ ∃ c ∈ p.classes, ∃ m ∈ c.members, c.memberName m = n := by
    intro n
    rw [mem_flatMap]
    refine exists_congr fun c => and_congr_right fun hc => ?_
    rw [h.functionNames_eq hc, mem_map]
  have hmn : (p.main.toList.map cName).Nodup := by
    cases p.main <;> simp
  rw [functionNames, nodup_append, nodup_append]
  constructor
  · rintro ⟨⟨hcls, _, hdis⟩, _, _⟩
    refine ⟨hcls, fun f hf c hc m hm heq => ?_⟩
    exact hdis _ ((hmem _).2 ⟨c, hc, m, hm, rfl⟩) _ (mem_map_of_mem hf) heq.symm
  · rintro ⟨hcls, hdis⟩
    refine ⟨⟨hcls, h.signatureNames, ?_⟩, hmn, ?_⟩
    · intro a ha b hb heq
      obtain ⟨c, hc, m, hm, rfl⟩ := (hmem a).1 ha
      obtain ⟨f, hf, rfl⟩ := mem_map.1 hb
      exact hdis f hf c hc m hm heq.symm
    · intro a ha b hb heq
      obtain ⟨g, hg, rfl⟩ := mem_map.1 hb
      rw [h.mainName g (by simpa using hg)] at heq
      subst heq
      rcases mem_append.1 ha with ha | ha
      · obtain ⟨c, _, m, _, heq⟩ := (hmem _).1 ha
        exact main_ne_memberName c m heq
      · obtain ⟨f, hf, heq⟩ := mem_map.1 ha
        exact h.signatureName f hf heq

/-- The names are distinct exactly if they do not run into each other across the ways they are made. -/
theorem nodup_fileScopeNames_iff : p.fileScopeNames.Nodup ↔ p.NamesApart := by
  have hconstants : (p.enums.flatMap Enumeration.constantNames).Nodup ↔
      ∀ e ∈ p.enums, ∀ e' ∈ p.enums, e.name ≠ e'.name → ∀ n ∈ e.constantNames, n ∉ e'.constantNames := by
    rw [nodup_flatMap_keyed h.enums]
    exact and_iff_right h.constants
  rw [fileScopeNames, nodup_append, h.nodup_functionNames_iff, h.nodup_classNames_iff, hconstants]
  constructor
  · rintro ⟨⟨⟨hmems, hcls⟩, hfuns⟩, hens, hdis⟩
    refine ⟨fun c hc => (h.nodup_members_iff hc).1 (hmems c hc), hcls, hfuns, hens, ?_⟩
    intro e he n hn hn'
    exact hdis n hn' n (mem_flatMap.2 ⟨e, he, hn⟩) rfl
  · rintro ⟨hms, hcls, hfuns, hens, hconst⟩
    refine ⟨⟨⟨fun c hc => (h.nodup_members_iff hc).2 (hms c hc), hcls⟩, hfuns⟩, hens, ?_⟩
    rintro n hn _ hn' rfl
    obtain ⟨e, he, hn'⟩ := mem_flatMap.1 hn'
    exact hconst e he n hn' hn

end Finished

end Program

/-! ## The names in the output -/

/-- The item is the definition of a function called `name`. -/
def Item.Defines (name : Text) (i : Item) : Prop :=
  ∃ ret params body, i = Item.function (ret ++ " " ++ name ++ "(" ++ params ++ ")") body

theorem Prepared.defines (g : Prepared) (body : List Text) : Item.Defines g.cName (.function g.signature body) :=
  ⟨_, _, body, rfl⟩

/-- A function on an object of a class, such as its set-up. -/
theorem defines_onObject (name object : Text) (body : List Text) :
    Item.Defines name (.function ("void " ++ name ++ "(" ++ object ++ "* self)") body) := by
  have hvoid : ("void " : Text) = "void" ++ " " := by decide
  have hs : ("* self)" : Text) = "* self" ++ ")" := by decide
  refine ⟨"void", object ++ "* self", body, congrArg (Item.function · body) ?_⟩
  rw [hvoid, hs]
  simp only [append_assoc]

namespace Definable

/-- The C functions that define `x`, by name. -/
def names : Definable → List Text
  | ofClass c => c.functionNames
  | ofFunction f => [f.cName]
  | ofMain f => [f.cName]

/-- The functions that are written for `x` have the names of `x`. -/
theorem defines_functionsOf (p : Program) (x : Definable) : List.Forall₂ Item.Defines x.names (p.functionsOf x) := by
  cases x with
  | ofClass c =>
    have hmap (f : Callable → Item) (fs : List Callable) (hf : ∀ k ∈ fs, Item.Defines k.cName (f k)) :
        List.Forall₂ Item.Defines (fs.map cName) (fs.map f) := by
      rw [forall₂_map_left_iff, forall₂_map_right_iff, forall₂_same]
      exact hf
    have hctors := hmap _ c.parameterized fun f _ =>
      (p.prepareConstructor c f).defines ((c.initName ++ "(self);") :: p.constructorLines c f)
    have hms := hmap _ c.methods fun f _ =>
      (p.prepareMethod c f).defines (Program.bodyLines (p.prepareMethod c f) f)
    have hi := defines_onObject c.initName c.name (p.initLines c)
    have hcleanup := defines_onObject c.cleanupName c.name ["(void)self;"]
    exact rel_append (rel_append (.cons hi hctors) hms) (.cons hcleanup .nil)
  | ofFunction f => exact .cons ((p.prepareFunction f).defines _) .nil
  | ofMain f => exact .cons ((p.prepareFunction f).defines _) .nil

end Definable

namespace Enumeration

/-- Every constant has its line, which starts with its name. -/
theorem constantLines_names (ks : List EnumConstant) : List.Forall₂ (fun k line => k.name <+: line) ks (constantLines ks) := by
  induction ks using constantLines.induct with
  | case1 => exact .nil
  | case2 k => exact .cons (prefix_append _ _) .nil
  | case3 k ks hne ih =>
    rw [constantLines]
    · exact .cons ((prefix_append _ _).trans (prefix_append _ _)) ih
    · exact hne

end Enumeration

namespace Program

variable {p : Program}

theorem functionNames_eq_flatMap : p.functionNames = p.definables.flatMap Definable.names := by
  rw [functionNames, definables, flatMap_append, flatMap_append, flatMap_map, flatMap_map,
    flatMap_map, map_eq_flatMap, map_eq_flatMap]
  rfl

/-- The source file defines the functions of the program. -/
theorem defines_sourceFunctions (h : (p.classes.map Class.name).Nodup) :
    ∃ names : List Text, names.Perm p.functionNames ∧ ∀ o stem source,
      List.Forall₂ Item.Defines names (GeneratedFile.sourceFunctions (p.generateUnit o stem source)) := by
  refine ⟨p.orderedDefinables.flatMap Definable.names, ?_, ?_⟩
  · rw [functionNames_eq_flatMap]
    exact (orderedDefinables_perm h).flatMap_right _
  · intro o stem source
    rw [sourceFunctions_generateUnit]
    exact rel_flatMap (forall₂_same.2 fun x _ => rfl) fun x _ hxy => hxy ▸ x.defines_functionsOf p

/-- Every enumeration has a line for each of its constants. -/
theorem block_mem_enumTypes {e : Enumeration} (he : e ∈ p.enums) : ∃ head lines foot, Item.block head lines foot ∈ p.enumTypes ∧
      List.Forall₂ (fun name line => name <+: line) e.constantNames lines := by
  refine ⟨_, _, _, mem_flatMap.2 ⟨e, he, mem_cons_self⟩, ?_⟩
  rw [Enumeration.constantNames, forall₂_map_left_iff]
  exact Enumeration.constantLines_names e.constants

/-- The names that a finished program defines in C are distinct exactly if no method, class name, function or constant takes a
name that is given already in another way. The functions are those that its source file defines, and the constants are written
in its enumerations. -/
theorem finish_names_nodup_iff (ds : List Declaration) (h : (absorbAll {} ds).finish = .ok p) :
    (p.fileScopeNames.Nodup ↔ p.NamesApart) ∧
    (∃ names : List Text, names.Perm p.functionNames ∧ ∀ o stem source,
      List.Forall₂ Item.Defines names (GeneratedFile.sourceFunctions (p.generateUnit o stem source))) ∧
    ∀ e ∈ p.enums, ∃ head lines foot, Item.block head lines foot ∈ p.enumTypes ∧
      List.Forall₂ (fun name line => name <+: line) e.constantNames lines := by
  have hfinished : p.Finished := finished_of_finish (Keyed.empty.absorbAll ds) h
  exact ⟨hfinished.nodup_fileScopeNames_iff, defines_sourceFunctions hfinished.classes,
    fun _ he => block_mem_enumTypes he⟩

/-- A class, an overloaded function and an enumeration. -/
def namesApartSample : List Declaration :=
  [.record "Led" .classWord none, .constructor "Led" { name := "Led", rawType := "void (int)" },
    .method "Led" { name := "on", rawType := "void ()" }, .function { name := "log", rawType := "void (int)" },
    .function { name := "log", rawType := "void (bool)" }, .enumeration "Mode" true, .constant "Mode" "Off" none]

/-- A test of the finished program. -/
theorem exists_ok_of_any {q : Program} {test : Program → Bool} (h : q.finish.toOption.any test) :
    ∃ p, q.finish = .ok p ∧ test p := by
  cases hf : q.finish with
  | error e =>
    rw [hf] at h
    nomatch h
  | ok p =>
    rw [hf] at h
    exact ⟨p, rfl, h⟩

theorem finish_names_nodup_iff_sample :
    ∃ p, (absorbAll {} namesApartSample).finish = .ok p ∧ p.fileScopeNames.length = 7 ∧ p.NamesApart := by
  have hok : ((absorbAll {} namesApartSample).finish.toOption.any fun p =>
      p.fileScopeNames.length = 7 ∧ p.fileScopeNames.Nodup) = true := by decide +kernel
  obtain ⟨p, hp, htest⟩ := exists_ok_of_any hok
  obtain ⟨hlength, hnodup⟩ := of_decide_eq_true htest
  exact ⟨p, hp, hlength, (finish_names_nodup_iff namesApartSample hp).1.1 hnodup⟩

/-- A class whose method is called `init`. -/
def initMethodSample : List Declaration :=
  [.record "Led" .classWord none, .method "Led" { name := "init", rawType := "void ()" }]

/-- The class is finished, though two functions are `Led_init`. -/
theorem finish_names_repeat_init :
    ∃ p, (absorbAll {} initMethodSample).finish = .ok p ∧
      p.fileScopeNames = ["Led_init".toList, "Led_init".toList, "Led_cleanup".toList] ∧ ¬p.fileScopeNames.Nodup := by
  have hok : ((absorbAll {} initMethodSample).finish.toOption.any fun p =>
      p.fileScopeNames = ["Led_init".toList, "Led_init".toList, "Led_cleanup".toList]) = true := by decide +kernel
  obtain ⟨p, hp, htest⟩ := exists_ok_of_any hok
  have hnames := of_decide_eq_true htest
  exact ⟨p, hp, hnames, by rw [hnames]; decide⟩

end Program

end Declass
