import Declass.Proofs.Program.Facts
import Declass.Proofs.Program.Names

/-!
# C names do not depend on the order of the dumps

A finished program is named by its facts alone, so the dumps of a program can be absorbed in any order (`Program.finish_perm`).
-/

namespace Declass

open Callable Declaration List

/-! ## Keys of callables -/

namespace Callable

/-- Parameter types tell the callables apart. -/
def Keyed (fs : List Callable) : Prop :=
  (fs.map paramTypes).Nodup

variable {fs : List Callable}

theorem Keyed.addSignature (h : Keyed fs) (f : Callable) : Keyed (addSignature fs f) :=
  Table.nodup_upsert (fun g => g.paramTypes_merge f) rfl h

/-- Names from parameter types are distinct if they tell the callables apart. -/
theorem Keyed.nodup_map_iff (h : Keyed fs) (name : List Text → Text) : (fs.map fun f => name f.paramTypes).Nodup ↔
      ∀ ts ∈ fs.map paramTypes, ∀ us ∈ fs.map paramTypes, name ts = name us → ts = us := by
  have hmap : (fs.map fun f => name f.paramTypes) = (fs.map paramTypes).map name := by
    rw [map_map]
    rfl
  rw [hmap, nodup_map_iff_inj_on h]

end Callable

namespace Program

/-- Constructors and functions are told apart by types, overload sets by names. -/
structure Merged (p : Program) : Prop where
  classes : (p.classes.map Class.name).Nodup
  constructors : ∀ c ∈ p.classes, Callable.Keyed c.constructors
  sets : (p.functions.map OverloadSet.name).Nodup
  signatures : ∀ s ∈ p.functions, Callable.Keyed s.signatures
  names : ∀ s ∈ p.functions, ∀ f ∈ s.signatures, f.name = s.name

namespace Merged

variable {p : Program}

theorem empty : Merged {} :=
  ⟨by simp, by simp, by simp, by simp, by simp⟩

theorem editClass (h : p.Merged) (name : Text) (keyword : RecordKeyword) {f : Class → Class} (hn : ∀ c, (f c).name = c.name)
    (hf : ∀ c, Callable.Keyed c.constructors → Callable.Keyed (f c).constructors) : (p.editClass name keyword f).Merged :=
  { h with
    classes := Table.nodup_upsert hn (hn _) h.classes
    constructors := Table.forall_mem_upsert h.constructors (fun c _ => hf c) (hf _ (by simp [Callable.Keyed])) }

theorem addFunction (h : p.Merged) (f : Callable) : (p.addFunction f).Merged := by
  unfold Program.addFunction
  split
  · exact ⟨h.classes, h.constructors, h.sets, h.signatures, h.names⟩
  · refine { h with sets := ?_, signatures := ?_, names := ?_ }
    · exact Table.nodup_upsert
        (fun _ => rfl) rfl h.sets
    · exact Table.forall_mem_upsert h.signatures (fun s _ hs => hs.addSignature f) (by simp [Callable.Keyed])
    · refine Table.forall_mem_upsert h.names ?_ (by simp)
      intro s hs hns
      exact Table.forall_mem_upsert hns (fun _ _ hg => hg) (of_decide_eq_true hs).symm

theorem absorb (h : p.Merged) (d : Declaration) : (p.absorb d).Merged := by
  cases d with
  | record name keyword origin => exact h.editClass name keyword (fun _ => rfl) fun _ hc => hc
  | field owner v =>
    refine h.editClass owner .classWord (fun c => c.name_addField v) fun c hc => ?_
    unfold Class.addField
    split <;> exact hc
  | method owner d => exact h.editClass owner .classWord (fun _ => rfl) fun _ hc => hc
  | constructor owner d => exact h.editClass owner .classWord (fun _ => rfl) fun _ hc => hc.addSignature _
  | destructor owner => exact h.editClass owner .classWord (fun _ => rfl) fun _ hc => hc
  | enumeration | constant => exact ⟨h.classes, h.constructors, h.sets, h.signatures, h.names⟩
  | function d => exact h.addFunction _
  | global v hasInit => exact ⟨h.classes, h.constructors, h.sets, h.signatures, h.names⟩

theorem absorbAll (h : p.Merged) (ds : List Declaration) : (p.absorbAll ds).Merged :=
  absorbAll_induction (fun _ d h => h.absorb d) h ds

end Merged

end Program

/-! ## Names from facts -/

/-- The class that a fact is about. -/
def Fact.class? : Fact → Option Text
  | .record name | .calledClass name | .field name _ | .method name _ | .constructor name _ => some name
  | _ => none

variable {c : Class} {x : Fact}

theorem Class.Holds.class? (h : c.Holds x) : x.class? = some c.name := by
  cases x with
  | record name => exact congrArg some (Eq.symm h)
  | calledClass _ | field _ _ | method _ _ | constructor _ _ => exact congrArg some h.1.symm
  | _ => nomatch h

/-- A class bears out the same with its C names. -/
theorem Class.holds_named : c.named.Holds x ↔ c.Holds x := by
  have hms : c.named.methods.map Callable.name = c.methods.map Callable.name := by
    simp [named]
  have hctors : c.named.constructors.map paramTypes = c.constructors.map paramTypes := by
    simp [named, paramTypes]
  cases x with
  | method owner name => rw [Holds, hms]; rfl
  | constructor owner types => rw [Holds, hctors]; rfl
  | _ => rfl

theorem OverloadSet.holds_named {s : OverloadSet} : s.named.Holds x ↔ s.Holds x := by
  have hsigs : s.named.signatures.map paramTypes = s.signatures.map paramTypes := by
    simp [named, paramTypes]
  cases x with
  | signature name types => rw [Holds, hsigs]; rfl
  | _ => rfl

namespace Program

variable {p p' : Program} {x : Fact} {name : Text} {c : Class} {types : List Text}

theorem holds_named : p.named.Holds x ↔ p.Holds x := by
  have hm : p.named.main.isSome = p.main.isSome := by simp [named]
  have hcls : (∃ c ∈ p.named.classes, c.Holds x) ↔ ∃ c ∈ p.classes, c.Holds x := by
    simp [named, Class.holds_named]
  have hfuns : (∃ s ∈ p.named.functions, s.Holds x) ↔ ∃ s ∈ p.functions, s.Holds x := by
    simp [named, OverloadSet.holds_named]
  unfold Holds
  rw [hm, hcls, hfuns]
  rfl

theorem holds_iff_of_class? (hx : x.class? = some name) : p.Holds x ↔ ∃ c ∈ p.classes, c.Holds x := by
  cases x with
  | record _ | calledClass _ | field _ _ | method _ _ | constructor _ _ =>
    simp [Holds, Enumeration.Holds, OverloadSet.Holds, GlobalVar.Holds]
  | _ => cases hx

theorem Merged.holds_iff (h : p.Merged) (hc : c ∈ p.classes) (hx : x.class? = some c.name) : p.Holds x ↔ c.Holds x := by
  rw [holds_iff_of_class? hx]
  refine ⟨?_, fun hcx => ⟨c, hc, hcx⟩⟩
  rintro ⟨d, hd, hdx⟩
  have hn : d.name = c.name := Option.some_inj.1 (hdx.class?.symm.trans hx)
  rwa [← inj_on_of_nodup_map h.classes hd hc hn]

/-- The facts call for a class of this name. -/
def Keeps (p : Program) (name : Text) : Prop :=
  p.Holds (.calledClass name) ∨ (∃ m, p.Holds (.method name m)) ∨ ∃ types, p.Holds (.constructor name types)

theorem Merged.keeps_iff (h : p.Merged) (hc : c ∈ p.classes) : p.Keeps c.name ↔ c.isPlain = false := by
  have hw : p.Holds (.calledClass c.name) ↔ c.keyword = .classWord :=
    (h.holds_iff hc rfl).trans (and_iff_right rfl)
  have hmet (m : Text) : p.Holds (.method c.name m) ↔ m ∈ c.methods.map Callable.name :=
    (h.holds_iff hc rfl).trans (and_iff_right rfl)
  have hconstructor (types : List Text) :
      p.Holds (.constructor c.name types) ↔ types ∈ c.constructors.map paramTypes :=
    (h.holds_iff hc rfl).trans (and_iff_right rfl)
  simp only [Keeps, hw, hmet, hconstructor, Class.isPlain]
  cases c.keyword <;> cases c.methods <;> cases c.constructors <;> simp

/-- Dropping the plain records drops their facts and no others. -/
theorem Merged.holds_withoutPlain (h : p.Merged) :
    p.withoutPlain.Holds x ↔ p.Holds x ∧ ∀ name, x.class? = some name → p.Keeps name := by
  cases hx : x.class? with
  | some name =>
    rw [holds_iff_of_class? hx, holds_iff_of_class? hx]
    simp only [withoutPlain, mem_filter, Bool.not_eq_true', Option.some.injEq, forall_eq']
    constructor
    · rintro ⟨c, ⟨hc, hpl⟩, hcx⟩
      have hn : c.name = name := Option.some_inj.1 (hcx.class?.symm.trans hx)
      exact ⟨⟨c, hc, hcx⟩, hn ▸ (h.keeps_iff hc).2 hpl⟩
    · rintro ⟨⟨c, hc, hcx⟩, hkp⟩
      have hn : c.name = name := Option.some_inj.1 (hcx.class?.symm.trans hx)
      exact ⟨c, ⟨hc, (h.keeps_iff hc).1 (hn ▸ hkp)⟩, hcx⟩
  | none =>
    have hcls (c : Class) : ¬c.Holds x := by
      intro hcx
      rw [hcx.class?] at hx
      nomatch hx
    simp [Holds, hcls, withoutPlain]

/-! ## Names of functions -/

/-- Two or more signatures share the name. -/
def overloads (p : Program) (name : Text) : Bool :=
  p.functions.any fun s => s.name = name && s.isOverloaded

/-- The C name of a function with these parameter types. -/
def functionName (p : Program) (name : Text) (types : List Text) : Text :=
  if p.overloads name then Tag.mangled name types else name

theorem holds_signature_iff :
    p.Holds (.signature name types) ↔ ∃ s ∈ p.functions, s.name = name ∧ types ∈ s.signatures.map paramTypes := by
  simp [Holds, Class.Holds, Enumeration.Holds, OverloadSet.Holds, GlobalVar.Holds]

/-- A name is overloaded if its signatures differ in their types. -/
theorem Merged.overloads_iff (h : p.Merged) :
    p.overloads name ↔ ∃ ts us, ts ≠ us ∧ p.Holds (.signature name ts) ∧ p.Holds (.signature name us) := by
  simp only [overloads, any_eq_true, Bool.and_eq_true, decide_eq_true_eq, holds_signature_iff]
  constructor
  · rintro ⟨s, hs, hn, hover⟩
    have hkeys := h.signatures s hs
    simp only [OverloadSet.isOverloaded] at hover
    obtain ⟨f, g, fs, hfg⟩ : ∃ f g fs, s.signatures = f :: g :: fs := by
      rcases hl : s.signatures with _ | ⟨f, _ | ⟨g, fs⟩⟩
      · simp [hl] at hover
      · simp [hl] at hover
      · exact ⟨f, g, fs, rfl⟩
    rw [Callable.Keyed, hfg] at hkeys
    refine ⟨f.paramTypes, g.paramTypes, ?_, ⟨s, hs, hn, by simp [hfg]⟩, ⟨s, hs, hn, by simp [hfg]⟩⟩
    simp only [map_cons, nodup_cons, mem_cons, not_or] at hkeys
    exact hkeys.1.1
  · rintro ⟨ts, us, hne, ⟨s, hs, hn, hts⟩, ⟨t, ht, hn', hus⟩⟩
    cases inj_on_of_nodup_map h.sets hs ht (hn.trans hn'.symm)
    refine ⟨s, hs, hn, ?_⟩
    rcases hl : s.signatures with _ | ⟨f, _ | ⟨g, fs⟩⟩
    · simp [hl] at hts
    · simp only [hl, map_cons, map_nil, mem_singleton] at hts hus
      exact absurd (hts.trans hus.symm) hne
    · simp [OverloadSet.isOverloaded, hl]

/-- The names and types of all functions, in their order. -/
theorem Merged.nodup_signatures (h : p.Merged) : (p.signatures.map fun f => (f.name, f.paramTypes)).Nodup := by
  rw [Program.signatures, map_flatMap]
  refine (nodup_flatMap_keyed h.sets).2 ⟨?_, ?_⟩
  · intro s hs
    refine List.Nodup.of_map Prod.snd ?_
    rw [map_map]
    exact h.signatures s hs
  · intro s hs t ht hne k hk hk'
    obtain ⟨f, hf, rfl⟩ := mem_map.1 hk
    obtain ⟨g, hg, heq⟩ := mem_map.1 hk'
    have hn : g.name = f.name := congrArg Prod.fst heq
    rw [h.names t ht g hg, h.names s hs f hf] at hn
    exact hne hn.symm

theorem Merged.mem_signatures_iff (h : p.Merged) :
    (name, types) ∈ p.signatures.map (fun f => (f.name, f.paramTypes)) ↔ p.Holds (.signature name types) := by
  simp only [holds_signature_iff, Program.signatures, mem_map, mem_flatMap, Prod.mk.injEq]
  constructor
  · rintro ⟨f, ⟨s, hs, hf⟩, hn, htys⟩
    exact ⟨s, hs, (h.names s hs f hf).symm.trans hn, f, hf, htys⟩
  · rintro ⟨s, hs, hn, f, hf, htys⟩
    exact ⟨f, ⟨s, hs, hf⟩, (h.names s hs f hf).trans hn, htys⟩

/-- The functions of a named program have names from its facts. -/
theorem Merged.signatures_named (h : p.Merged) :
    p.named.signatures = p.signatures.map fun f => { f with cName := p.functionName f.name f.paramTypes } := by
  simp only [Program.signatures, named, flatMap_map, map_flatMap]
  refine flatMap_congr ?_
  intro s hs
  refine map_congr_left ?_
  intro f hf
  have hover : p.overloads f.name = s.isOverloaded := by
    rw [h.names s hs f hf, Bool.eq_iff_iff, overloads, any_eq_true]
    simp only [Bool.and_eq_true, decide_eq_true_eq]
    refine ⟨?_, fun hs' => ⟨s, hs, rfl, hs'⟩⟩
    rintro ⟨t, ht, hn, ht'⟩
    rwa [← inj_on_of_nodup_map h.sets ht hs hn]
  simp only [functionName, hover]

/-! ## When a program can be finished -/

/-- The C name of a constructor of a class. -/
def constructorName (owner : Text) (types : List Text) : Text :=
  if types.isEmpty then owner ++ "_init" else Tag.mangled (owner ++ "_init") types

theorem constructors_named :
    c.named.constructors = c.constructors.map fun f => { f with cName := constructorName c.name f.paramTypes } := by
  refine map_congr_left ?_
  intro f _
  have hemp : f.paramTypes.isEmpty = f.params.isEmpty := isEmpty_map
  rw [constructorName, hemp]
  rfl

/-- No two constructors of a class and no two functions get one C name. -/
structure Apart (p : Program) : Prop where
  constructors : ∀ owner ts us, p.Holds (.constructor owner ts) → p.Holds (.constructor owner us) →
    constructorName owner ts = constructorName owner us → ts = us
  functions : ∀ n ts m us, p.Holds (.signature n ts) → p.Holds (.signature m us) →
    p.functionName n ts = p.functionName m us → n = m ∧ ts = us

theorem Merged.nodup_constructors_iff (h : p.Merged) : (∀ c ∈ p.withoutPlain.named.classes, (c.constructors.map cName).Nodup) ↔
      ∀ owner ts us, p.Holds (.constructor owner ts) → p.Holds (.constructor owner us) →
        constructorName owner ts = constructorName owner us → ts = us := by
  have hcls (c : Class) (hc : c ∈ p.classes) : (c.named.constructors.map cName).Nodup ↔
      ∀ ts us, p.Holds (.constructor c.name ts) → p.Holds (.constructor c.name us) →
        constructorName c.name ts = constructorName c.name us → ts = us := by
    rw [constructors_named, map_map]
    refine ((h.constructors c hc).nodup_map_iff (constructorName c.name)).trans ?_
    simp only [h.holds_iff hc (x := .constructor c.name _) rfl, Class.Holds, true_and]
    exact ⟨fun hall ts us hts hus => hall ts hts us hus, fun hall ts hts us hus => hall ts us hts hus⟩
  constructor
  · intro hall owner ts us hts hus
    obtain ⟨c, hc, rfl, hmem⟩ := (holds_iff_of_class? rfl).1 hts
    have hkp : p.Keeps c.name := .inr (.inr ⟨ts, hts⟩)
    have hpl := (h.keeps_iff hc).1 hkp
    have hnd : c.named ∈ p.withoutPlain.named.classes :=
      mem_map_of_mem (mem_filter.2 ⟨hc, by simp [hpl]⟩)
    exact (hcls c hc).1 (hall _ hnd) ts us hts hus
  · intro hall c hc
    obtain ⟨d, hd, rfl⟩ := mem_map.1 hc
    exact (hcls d (mem_of_mem_filter hd)).2 (hall d.name)

theorem Merged.nodup_functions_iff (h : p.Merged) : (p.withoutPlain.named.signatures.map cName).Nodup ↔
      ∀ n ts m us, p.Holds (.signature n ts) → p.Holds (.signature m us) →
        p.functionName n ts = p.functionName m us → n = m ∧ ts = us := by
  have hns : p.withoutPlain.named.signatures.map cName =
      (p.signatures.map fun f => (f.name, f.paramTypes)).map fun k => p.functionName k.1 k.2 := by
    have hsigs : p.withoutPlain.named.signatures = p.named.signatures := rfl
    rw [hsigs, h.signatures_named, map_map, map_map]
    rfl
  rw [hns, nodup_map_iff_inj_on h.nodup_signatures]
  simp only [Prod.forall, h.mem_signatures_iff, Prod.mk.injEq]
  exact ⟨fun hall n ts m us hn hm => hall n ts hn m us hm, fun hall n ts hn m us hm => hall n ts m us hn hm⟩

theorem Merged.finish_isOk_iff (h : p.Merged) : (∃ q, p.finish = .ok q) ↔ p.Apart := by
  rw [exists_finish_iff, h.nodup_constructors_iff, h.nodup_functions_iff]
  exact ⟨fun ha => ⟨ha.1, ha.2⟩, fun ha => ⟨ha.constructors, ha.functions⟩⟩

/-! ## Any order of the dumps -/

/-- Two finished programs hold the same names and C names. -/
structure SameNames (q q' : Program) : Prop where
  facts : ∀ x, q.Holds x ↔ q'.Holds x
  constructors : ∀ c ∈ q.classes, ∀ c' ∈ q'.classes, c.name = c'.name →
    ∀ f ∈ c.constructors, ∀ f' ∈ c'.constructors, f.paramTypes = f'.paramTypes → f.cName = f'.cName
  methods : ∀ c ∈ q.classes, ∀ c' ∈ q'.classes, c.name = c'.name →
    ∀ f ∈ c.methods, ∀ f' ∈ c'.methods, f.name = f'.name → f.cName = f'.cName
  functions : ∀ f ∈ q.signatures, ∀ f' ∈ q'.signatures, f.name = f'.name → f.paramTypes = f'.paramTypes →
    f.cName = f'.cName
  main : q.main.map cName = q'.main.map cName

theorem functionName_congr (h : p.Merged) (h' : p'.Merged) (hfac : ∀ x, p.Holds x ↔ p'.Holds x) :
    p.functionName name types = p'.functionName name types := by
  have hover : p.overloads name = p'.overloads name := by
    rw [Bool.eq_iff_iff, h.overloads_iff, h'.overloads_iff]
    simp only [hfac]
  rw [functionName, functionName, hover]

theorem Apart.of_facts (h : p.Merged) (h' : p'.Merged) (hfac : ∀ x, p.Holds x ↔ p'.Holds x) (ha : p.Apart) : p'.Apart where
  constructors owner ts us hts hus := ha.constructors owner ts us ((hfac _).2 hts) ((hfac _).2 hus)
  functions n ts m us hn hm := by
    rw [← functionName_congr h h' hfac, ← functionName_congr h h' hfac]
    exact ha.functions n ts m us ((hfac _).2 hn) ((hfac _).2 hm)

theorem holds_main_iff : p.Holds .main ↔ p.main.isSome := by
  simp [Holds, Class.Holds, Enumeration.Holds, OverloadSet.Holds, GlobalVar.Holds]

/-- Programs with the same facts have the same names when finished. -/
theorem sameNames_of_facts (h : p.Merged) (h' : p'.Merged) (hfac : ∀ x, p.Holds x ↔ p'.Holds x) :
    SameNames p.withoutPlain.named p'.withoutPlain.named where
  facts x := by
    rw [holds_named, holds_named, h.holds_withoutPlain, h'.holds_withoutPlain]
    simp only [Keeps, hfac]
  constructors := by
    intro c hc c' hc' hn f hf f' hf' htys
    obtain ⟨d, -, rfl⟩ := mem_map.1 hc
    obtain ⟨d', -, rfl⟩ := mem_map.1 hc'
    rw [constructors_named] at hf hf'
    obtain ⟨g, -, rfl⟩ := mem_map.1 hf
    obtain ⟨g', -, rfl⟩ := mem_map.1 hf'
    exact congrArg₂ constructorName hn htys
  methods := by
    intro c hc c' hc' hn f hf f' hf' hmet
    obtain ⟨d, -, rfl⟩ := mem_map.1 hc
    obtain ⟨d', -, rfl⟩ := mem_map.1 hc'
    obtain ⟨g, -, rfl⟩ := mem_map.1 hf
    obtain ⟨g', -, rfl⟩ := mem_map.1 hf'
    exact congrArg₂ (fun owner name : Text => owner ++ "_" ++ name) hn hmet
  functions := by
    intro f hf f' hf' hn htys
    have hf : f ∈ p.named.signatures := hf
    have hf' : f' ∈ p'.named.signatures := hf'
    rw [h.signatures_named] at hf
    rw [h'.signatures_named] at hf'
    obtain ⟨g, -, rfl⟩ := mem_map.1 hf
    obtain ⟨g', -, rfl⟩ := mem_map.1 hf'
    exact (functionName_congr h h' hfac).trans (congrArg₂ p'.functionName hn htys)
  main := by
    have hm : p.main.isSome = p'.main.isSome := by
      rw [Bool.eq_iff_iff, ← holds_main_iff, ← holds_main_iff, hfac]
    show (p.main.map _).map cName = (p'.main.map _).map cName
    cases hp : p.main <;> cases hp' : p'.main <;> simp [hp, hp'] at hm ⊢

/-- The dumps of a program can be absorbed in any order: it can be finished after the one just if after the other, and then it
has the same names. -/
theorem finish_perm {dumps dumps' : List (List Declaration)} (hperm : dumps.Perm dumps')
    (hopen : ∀ ds ∈ dumps, opensFirst ds = true) :
    ((∃ q, (absorbAll {} dumps.flatten).finish = .ok q) ↔ ∃ q', (absorbAll {} dumps'.flatten).finish = .ok q') ∧
      ∀ q q', (absorbAll {} dumps.flatten).finish = .ok q → (absorbAll {} dumps'.flatten).finish = .ok q' →
        SameNames q q' := by
  have hopen' : ∀ ds ∈ dumps', opensFirst ds = true := fun ds hds => hopen ds (hperm.mem_iff.2 hds)
  have hfacts (x : Fact) : (absorbAll {} dumps.flatten).Holds x ↔ (absorbAll {} dumps'.flatten).Holds x := by
    rw [holds_absorbAll_empty (opensFirst_flatten hopen),
      holds_absorbAll_empty (opensFirst_flatten hopen')]
    simp only [hperm.flatten.mem_iff]
  have h : (absorbAll {} dumps.flatten).Merged := Merged.empty.absorbAll _
  have h' : (absorbAll {} dumps'.flatten).Merged := Merged.empty.absorbAll _
  refine ⟨?_, ?_⟩
  · rw [h.finish_isOk_iff, h'.finish_isOk_iff]
    exact ⟨.of_facts h h' hfacts, .of_facts h' h fun x => (hfacts x).symm⟩
  · intro q q' hq hq'
    obtain ⟨rfl, -⟩ := finish_eq_ok hq
    obtain ⟨rfl, -⟩ := finish_eq_ok hq'
    exact sameNames_of_facts h h' hfacts

/-- A record and a function that two dumps tell differently. -/
def ledDumps : List (List Declaration) :=
  [[.record "Led" .structWord none, .field "Led" ⟨"pin", "int"⟩, .function { name := "log", rawType := "void (int)" }],
    [.record "Led" .classWord none, .constructor "Led" { name := "Led", rawType := "void (int)" },
      .enumeration "Mode" true, .constant "Mode" "on" none, .function { name := "log", rawType := "void (float)" }]]

theorem finish_perm_ledDumps :
    (∀ ds ∈ ledDumps, opensFirst ds = true) ∧
      ∃ q q', (absorbAll {} ledDumps.flatten).finish = .ok q ∧
        (absorbAll {} ledDumps.reverse.flatten).finish = .ok q' ∧ SameNames q q' := by
  have hopen : ∀ ds ∈ ledDumps, opensFirst ds = true := by decide +kernel
  have hperm : ledDumps.Perm ledDumps.reverse := (reverse_perm _).symm
  have hq : ∃ q, (absorbAll {} ledDumps.flatten).finish = .ok q := by
    have hc : (absorbAll {} ledDumps.flatten).withoutPlain.named.collision? = none := by decide +kernel
    exact ⟨(absorbAll {} ledDumps.flatten).withoutPlain.named, by simp only [finish, hc]⟩
  obtain ⟨q', hq'⟩ := (finish_perm hperm hopen).1.1 hq
  obtain ⟨q, hq⟩ := hq
  exact ⟨hopen, q, q', hq, hq', (finish_perm hperm hopen).2 q q' hq hq'⟩

end Program

end Declass
