import Declass.Proofs.Program.Growth

/-!
# What a program knows from its declarations

The names of a program come from facts that single declarations state. Where members come after their record and constants after
their enumeration, the facts of a program are those of its declarations (`holds_absorbAll_empty`).
-/

namespace Declass

variable (d : CallableDecl)

open Declaration List
open Callable (ofDecl paramTypes)

/-- What one declaration can say about the names of a program. -/
inductive Fact where
  | record (name : Text)
  /-- The record was introduced by the word `class`. -/
  | calledClass (name : Text)
  | field (owner name : Text)
  | method (owner name : Text)
  | constructor (owner : Text) (types : List Text)
  | enumeration (name : Text)
  | constant (owner name : Text)
  | signature (name : Text) (types : List Text)
  | global (name : Text)
  | main
deriving DecidableEq

/-- The fact is about a constructor or a function. -/
def Fact.isCallable : Fact → Bool
  | .constructor _ _ | .signature _ _ => true
  | _ => false

namespace Declaration

/-- The facts that a declaration states. -/
def facts : Declaration → List Fact
  | .record name keyword _ => if keyword = .classWord then [.record name, .calledClass name] else [.record name]
  | .field owner v => [.field owner v.name]
  | .method owner d => [.method owner d.name]
  | .constructor owner d => [.constructor owner (ofDecl d).paramTypes]
  | .destructor _ => []
  | .enumeration name _ => [.enumeration name]
  | .constant owner name _ => [.constant owner name]
  | .function d => if d.name = "main" then [.main] else [.signature d.name (ofDecl d).paramTypes]
  | .global v _ => [.global v.name]

/-- What a declaration needs: the record or enumeration of a member. -/
def needs : Declaration → Option Fact
  | .field owner _ | .method owner _ | .constructor owner _ | .destructor owner => some (.record owner)
  | .constant owner _ _ => some (.enumeration owner)
  | .record .. | .enumeration .. | .function _ | .global .. => none

/-- Every declaration finds what it needs among the facts before it. -/
def opensFrom (known : List Fact) : List Declaration → Bool
  | [] => true
  | d :: ds => d.needs.all (known.contains ·) && opensFrom (known ++ d.facts) ds

/-- Records and enumerations come before their members. -/
def opensFirst (ds : List Declaration) : Bool :=
  opensFrom [] ds

variable {known : List Fact} {ds : List Declaration}

theorem opensFrom_cons {d : Declaration} :
    opensFrom known (d :: ds) ↔ (∀ x, d.needs = some x → x ∈ known) ∧ opensFrom (known ++ d.facts) ds := by
  rw [opensFrom]
  cases d.needs <;> simp

/-- More known facts do no harm. -/
theorem opensFrom_mono {more : List Fact} (hsub : known ⊆ more) (h : opensFrom known ds) : opensFrom more ds := by
  induction ds generalizing known more with
  | nil => rfl
  | cons d ds ih =>
    obtain ⟨hnd, hr⟩ := opensFrom_cons.1 h
    refine opensFrom_cons.2 ⟨fun x hx => hsub (hnd x hx), ih ?_ hr⟩
    exact append_subset.2 ⟨List.Subset.trans hsub (subset_append_left _ _), subset_append_right _ _⟩

/-- Lists that know enough do so put together. -/
theorem opensFrom_append {es : List Declaration} (hds : opensFrom known ds) (hes : opensFrom known es) :
    opensFrom known (ds ++ es) := by
  induction ds generalizing known with
  | nil => exact hes
  | cons d ds ih =>
    obtain ⟨hnd, hr⟩ := opensFrom_cons.1 hds
    exact opensFrom_cons.2 ⟨hnd, ih hr (opensFrom_mono (subset_append_left _ _) hes)⟩

/-- Lists that open their records and enumerations do so put together. -/
theorem opensFirst_flatten {dumps : List (List Declaration)} (h : ∀ ds ∈ dumps, opensFirst ds) : opensFirst dumps.flatten := by
  induction dumps with
  | nil => rfl
  | cons ds dumps ih =>
    rw [forall_mem_cons] at h
    exact opensFrom_append h.1 (ih h.2)

end Declaration

/-! ## Facts of a program -/

/-- The class bears a fact out. -/
def Class.Holds (c : Class) : Fact → Prop
  | .record name => c.name = name
  | .calledClass name => c.name = name ∧ c.keyword = .classWord
  | .field owner name => c.name = owner ∧ name ∈ c.fields.map Var.name
  | .method owner name => c.name = owner ∧ name ∈ c.methods.map Callable.name
  | .constructor owner types => c.name = owner ∧ types ∈ c.constructors.map paramTypes
  | _ => False

/-- The enumeration bears a fact out. -/
def Enumeration.Holds (e : Enumeration) : Fact → Prop
  | .enumeration name => e.name = name
  | .constant owner name => e.name = owner ∧ name ∈ e.constants.map EnumConstant.name
  | _ => False

/-- The overload set bears a fact out. -/
def OverloadSet.Holds (s : OverloadSet) : Fact → Prop
  | .signature name types => s.name = name ∧ types ∈ s.signatures.map paramTypes
  | _ => False

/-- The variable bears a fact out. -/
def GlobalVar.Holds (g : GlobalVar) : Fact → Prop
  | .global name => g.name = name
  | _ => False

/-- Some part of the program bears the fact out. -/
def Program.Holds (p : Program) (x : Fact) : Prop :=
  (∃ c ∈ p.classes, c.Holds x) ∨ (∃ e ∈ p.enums, e.Holds x) ∨ (∃ s ∈ p.functions, s.Holds x) ∨
    (∃ g ∈ p.globals, g.Holds x) ∨ (x = .main ∧ p.main.isSome = true)

/-! ## One declaration -/

namespace Table

variable {α β : Type} {xs : List α}

/-- After an edit that adds `N`, an entry bears it out just if one did or `N` holds. -/
theorem exists_mem_upsert {p : α → Bool} {f : α → α} {fresh : α} {Q : α → Prop} {N : Prop}
    (hf : ∀ x, p x → (Q (f x) ↔ Q x ∨ N)) (hfr : (∀ x ∈ xs, p x = false) → (Q fresh ↔ N)) :
    (∃ x ∈ upsert p f fresh xs, Q x) ↔ (∃ x ∈ xs, Q x) ∨ N := by
  rcases first_or_none p xs with ⟨as, x, bs, rfl, hx, has⟩ | hno
  · rw [upsert_append has hx]
    grind
  · rw [upsert_of_forall hno]
    simp only [mem_append, mem_singleton, or_and_right, exists_or, exists_eq_left, hfr hno]

/-- An edit by key adds that key and no other. -/
theorem mem_map_upsert [DecidableEq β] {key : α → β} {k : β} {f : α → α} {fresh : α} (hf : ∀ x, key (f x) = key x)
    (hk : key fresh = k) {y : β} : y ∈ (upsert (fun x => key x = k) f fresh xs).map key ↔ y ∈ xs.map key ∨ y = k := by
  rw [map_upsert key _ f fresh hf, hk]
  split
  · rename_i hany
    obtain ⟨x, hx, hxk⟩ := any_eq_true.1 hany
    have hmem : k ∈ xs.map key := mem_map.2 ⟨x, hx, of_decide_eq_true hxk⟩
    exact ⟨.inl, fun h => h.elim id fun e => e ▸ hmem⟩
  · simp

end Table

namespace Callable

/-- A report adds its parameter types and no others. -/
theorem mem_paramTypes_addSignature {fs : List Callable} {f : Callable} {types : List Text} :
    types ∈ (addSignature fs f).map paramTypes ↔ types ∈ fs.map paramTypes ∨ types = f.paramTypes :=
  Table.mem_map_upsert (fun g => g.paramTypes_merge f) rfl

end Callable

namespace Class

variable {c : Class} {x : Fact}

/-- A record's report adds its facts to the class. -/
theorem holds_addRecord (keyword : RecordKeyword) (origin : Option Path) :
    (c.addRecord keyword origin).Holds x ↔ c.Holds x ∨ x ∈ (record c.name keyword origin).facts := by
  cases x with
  | record name => cases keyword <;> simp [Holds, addRecord, facts, eq_comm]
  | calledClass name =>
    cases keyword with
    | classWord =>
      simp only [Holds, addRecord, facts]
      grind
    | structWord => simp [Holds, addRecord, facts]
  | _ => cases keyword <;> simp [Holds, addRecord, facts]

theorem mem_fields_addField {v : Var} {name : Text} :
    name ∈ (c.addField v).fields.map Var.name ↔ name ∈ c.fields.map Var.name ∨ name = v.name := by
  unfold addField
  split
  · rename_i hfd
    obtain ⟨w, hw⟩ := Option.isSome_iff_exists.1 hfd
    have hmem : v.name ∈ c.fields.map Var.name :=
      mem_map.2 ⟨w, mem_of_find?_eq_some hw, by simpa using find?_some hw⟩
    exact ⟨.inl, fun h => h.elim id fun e => e ▸ hmem⟩
  · simp

/-- A field's report adds its facts to the class. -/
theorem holds_addField (v : Var) : (c.addField v).Holds x ↔ c.Holds x ∨ x ∈ (field c.name v).facts := by
  cases x with
  | field owner name =>
    rw [Holds, Holds, mem_fields_addField, name_addField, facts]
    grind
  | _ =>
    unfold addField
    split <;> simp [Holds, facts]

/-- A method's report adds its facts to the class. -/
theorem holds_addMethod : (c.addMethod (ofDecl d)).Holds x ↔ c.Holds x ∨ x ∈ (method c.name d).facts := by
  cases x with
  | method owner name =>
    have hmem : name ∈ (c.addMethod (ofDecl d)).methods.map Callable.name ↔
        name ∈ c.methods.map Callable.name ∨ name = d.name :=
      Table.mem_map_upsert (f := fun g : Callable => g.merge (ofDecl d)) (fun _ => rfl) rfl
    rw [Holds, Holds, facts]
    show c.name = owner ∧ _ ↔ _
    grind
  | _ => simp [Holds, addMethod, facts]

/-- A constructor's report adds its facts to the class. -/
theorem holds_addConstructor : (c.addConstructor (ofDecl d)).Holds x ↔ c.Holds x ∨ x ∈ (constructor c.name d).facts := by
  cases x with
  | constructor owner types =>
    have hmem : types ∈ (c.addConstructor (ofDecl d)).constructors.map paramTypes ↔
        types ∈ c.constructors.map paramTypes ∨ types = (ofDecl d).paramTypes :=
      Callable.mem_paramTypes_addSignature
    rw [Holds, Holds, facts]
    show c.name = owner ∧ _ ↔ _
    grind
  | _ => simp [Holds, addConstructor, facts]

theorem holds_destructor : { c with hasDestructor := true : Class }.Holds x ↔ c.Holds x := by
  cases x <;> rfl

/-- A new class bears out its name, and if it is called a class. -/
theorem holds_new (name : Text) (keyword : RecordKeyword) :
    ({ name, keyword } : Class).Holds x ↔ x ∈ (record name keyword none).facts := by
  cases keyword <;> cases x <;> simp [Holds, facts, eq_comm]

end Class

namespace Enumeration

variable {e : Enumeration} {x : Fact}

/-- A constant's report adds its fact to the enumeration. -/
theorem holds_addConstant (name : Text) (value : Option Int) :
    (e.addConstant { name, value }).Holds x ↔ e.Holds x ∨ x = .constant e.name name := by
  unfold addConstant
  split
  · rename_i hany
    obtain ⟨k, hk, hn⟩ := any_eq_true.1 hany
    have hmem : e.Holds (.constant e.name name) := ⟨rfl, mem_map.2 ⟨k, hk, of_decide_eq_true hn⟩⟩
    exact ⟨.inl, fun h => h.elim id fun heq => heq ▸ hmem⟩
  · cases x with
    | constant owner name' => simp [Holds]; grind
    | _ => simp [Holds]

end Enumeration

namespace Program

variable {p : Program} {x : Fact} {name : Text} {keyword : RecordKeyword} {f : Class → Class} {ds : List Declaration}

/-- A record is known just if there is a class of its name. -/
theorem holds_record_iff : p.Holds (.record name) ↔ ∃ c ∈ p.classes, c.name = name := by
  simp [Holds, Class.Holds, Enumeration.Holds, OverloadSet.Holds, GlobalVar.Holds]

theorem holds_enumeration_iff : p.Holds (.enumeration name) ↔ ∃ e ∈ p.enums, e.name = name := by
  simp [Holds, Class.Holds, Enumeration.Holds, OverloadSet.Holds, GlobalVar.Holds]

/-! What is added to one list is added to the facts of the program. -/

/-- What is added to the classes is added to the program. -/
theorem holds_classes {cs : List Class} {N : Prop} (h : (∃ c ∈ cs, c.Holds x) ↔ (∃ c ∈ p.classes, c.Holds x) ∨ N) :
    { p with classes := cs }.Holds x ↔ p.Holds x ∨ N := by
  simp only [Holds, h, or_assoc, or_comm]

theorem holds_enums {es : List Enumeration} {N : Prop} (h : (∃ e ∈ es, e.Holds x) ↔ (∃ e ∈ p.enums, e.Holds x) ∨ N) :
    { p with enums := es }.Holds x ↔ p.Holds x ∨ N := by
  simp only [Holds, h, or_assoc, or_comm, or_left_comm]

theorem holds_functions {ss : List OverloadSet} {N : Prop} (h : (∃ s ∈ ss, s.Holds x) ↔ (∃ s ∈ p.functions, s.Holds x) ∨ N) :
    { p with functions := ss }.Holds x ↔ p.Holds x ∨ N := by
  simp only [Holds, h, or_comm, or_left_comm]

theorem holds_globals {gs : List GlobalVar} {N : Prop} (h : (∃ g ∈ gs, g.Holds x) ↔ (∃ g ∈ p.globals, g.Holds x) ∨ N) :
    { p with globals := gs }.Holds x ↔ p.Holds x ∨ N := by
  simp only [Holds, h, or_assoc, or_comm, or_left_comm]

theorem holds_main (f : Callable) : { p with main := some f }.Holds x ↔ p.Holds x ∨ x = .main := by
  have hso : (x = .main ∧ p.main.isSome) ∨ x = .main ↔ x = .main := or_iff_right_of_imp And.left
  simp only [Holds, Option.isSome_some, and_true, or_assoc, hso]

/-- An edit that adds `N` to each class of a name adds it to the program. -/
theorem holds_editClass {N : Prop} (hf : ∀ c : Class, c.name = name → ((f c).Holds x ↔ c.Holds x ∨ N))
    (hfr : ¬p.Holds (.record name) → ((f { name, keyword }).Holds x ↔ N)) :
    (p.editClass name keyword f).Holds x ↔ p.Holds x ∨ N := by
  refine holds_classes (Table.exists_mem_upsert (fun c hc => hf c (of_decide_eq_true hc)) fun hno => hfr ?_)
  rw [holds_record_iff]
  rintro ⟨c, hc, hn⟩
  exact absurd (hno c hc) (by simp [hn])

/-- An edit of a class adds the same to the program. -/
theorem holds_editClass_member {N : Prop} (hkn : p.Holds (.record name) ∨ x.isCallable)
    (hf : ∀ c : Class, c.name = name → ((f c).Holds x ↔ c.Holds x ∨ N)) :
    (p.editClass name keyword f).Holds x ↔ p.Holds x ∨ N := by
  refine holds_editClass hf fun hno => (hf _ rfl).trans (or_iff_right ?_)
  rw [Class.holds_new]
  cases x <;> cases keyword <;> simp_all [Fact.isCallable, facts]

/-- A record's report adds its facts. -/
theorem holds_absorb_record (origin : Option Path) :
    (p.absorb (.record name keyword origin)).Holds x ↔ p.Holds x ∨ x ∈ (record name keyword origin).facts := by
  refine holds_editClass ?_ fun _ => ?_
  · rintro c rfl
    exact c.holds_addRecord keyword origin
  · rw [Class.holds_addRecord, Class.holds_new]
    exact or_self_iff

/-- An enumeration's report adds its facts. -/
theorem holds_absorb_enumeration (isScoped : Bool) :
    (p.absorb (.enumeration name isScoped)).Holds x ↔ p.Holds x ∨ x ∈ (enumeration name isScoped).facts := by
  refine holds_enums (Table.exists_mem_upsert ?_ fun _ => ?_)
  · intro e he
    have hn : e.name = name := of_decide_eq_true he
    rw [facts, mem_singleton]
    refine ⟨.inl, ?_⟩
    rintro (h | rfl)
    · exact h
    · exact hn
  · cases x <;> simp [Enumeration.Holds, facts, eq_comm]

/-- A constant's report adds its facts if its owner is known. -/
theorem holds_absorb_constant {owner : Text} (hkn : p.Holds (.enumeration owner) ∨ x.isCallable) (value : Option Int) :
    (p.absorb (.constant owner name value)).Holds x ↔ p.Holds x ∨ x ∈ (constant owner name value).facts := by
  have hent (e : Enumeration) : (if e.name = owner then e.addConstant { name, value } else e).Holds x ↔
      e.Holds x ∨ (e.name = owner ∧ x = .constant owner name) := by
    by_cases he : e.name = owner
    · subst he
      rw [if_pos rfl, Enumeration.holds_addConstant]
      simp
    · simp [he]
  refine holds_enums ?_
  rw [facts, mem_singleton]
  simp only [mem_map, exists_exists_and_eq_and, hent]
  constructor
  · rintro ⟨e, he, h | ⟨-, h⟩⟩
    · exact .inl ⟨e, he, h⟩
    · exact .inr h
  · rintro (⟨e, he, h⟩ | rfl)
    · exact ⟨e, he, .inl h⟩
    · obtain ⟨e, he, hn⟩ := holds_enumeration_iff.1 (hkn.resolve_right nofun)
      exact ⟨e, he, .inr ⟨hn, rfl⟩⟩

/-- A function's report adds its facts. -/
theorem holds_absorb_function : (p.absorb (.function d)).Holds x ↔ p.Holds x ∨ x ∈ (function d).facts := by
  show (p.addFunction (ofDecl d)).Holds x ↔ _
  have hn : (ofDecl d).name = d.name := rfl
  rw [addFunction, facts, hn]
  by_cases hm : d.name = "main"
  · rw [if_pos hm, if_pos hm, mem_singleton]
    exact holds_main _
  · rw [if_neg hm, if_neg hm]
    refine holds_functions (Table.exists_mem_upsert ?_ fun _ => ?_)
    · intro s hs
      cases x with
      | signature name types =>
        simp only [OverloadSet.Holds, Callable.mem_paramTypes_addSignature]
        grind
      | _ => simp [OverloadSet.Holds]
    · cases x <;> simp [OverloadSet.Holds, eq_comm]

/-- A variable's report adds its facts. -/
theorem holds_absorb_global (v : Var) (hasInit : Bool) :
    (p.absorb (.global v hasInit)).Holds x ↔ p.Holds x ∨ x ∈ (global v hasInit).facts := by
  refine holds_globals (Table.exists_mem_upsert ?_ fun _ => ?_)
  · intro g hg
    have hn : g.name = v.name := of_decide_eq_true hg
    cases x <;> simp [GlobalVar.Holds, facts, hn, eq_comm]
  · cases x <;> simp [GlobalVar.Holds, facts, eq_comm]

/-- A declaration that finds what it needs adds its facts. -/
theorem holds_absorb {d : Declaration} (hd : ∀ y, d.needs = some y → p.Holds y ∨ x.isCallable) :
    (p.absorb d).Holds x ↔ p.Holds x ∨ x ∈ d.facts := by
  cases d with
  | record name keyword origin => exact holds_absorb_record origin
  | field owner v => exact holds_editClass_member (hd _ rfl) fun c hc => hc ▸ c.holds_addField v
  | method owner d => exact holds_editClass_member (hd _ rfl) fun c hc => hc ▸ c.holds_addMethod d
  | constructor owner d => exact holds_editClass_member (hd _ rfl) fun c hc => hc ▸ c.holds_addConstructor d
  | destructor owner =>
    refine holds_editClass_member (hd _ rfl) fun c _ => ?_
    rw [Class.holds_destructor, facts]
    simp
  | enumeration name isScoped => exact holds_absorb_enumeration isScoped
  | constant owner name value => exact holds_absorb_constant (hd _ rfl) value
  | function d => exact holds_absorb_function d
  | global v hasInit => exact holds_absorb_global v hasInit

/-! ## All declarations -/

/-- A program holds just what the declarations say. -/
theorem holds_absorbAll {known : List Fact} (hkn : ∀ y ∈ known, p.Holds y) (hds : opensFrom known ds) :
    (p.absorbAll ds).Holds x ↔ p.Holds x ∨ ∃ d ∈ ds, x ∈ d.facts := by
  induction ds generalizing p known with
  | nil => simp [absorbAll]
  | cons d ds ih =>
    obtain ⟨hnd, hr⟩ := opensFrom_cons.1 hds
    have hs {y : Fact} : (p.absorb d).Holds y ↔ p.Holds y ∨ y ∈ d.facts :=
      holds_absorb fun y hy => .inl (hkn y (hnd y hy))
    have hkn' : ∀ y ∈ known ++ d.facts, (p.absorb d).Holds y := by
      intro y hy
      exact hs.2 ((mem_append.1 hy).imp_left (hkn y))
    calc (p.absorbAll (d :: ds)).Holds x
        ↔ (p.absorb d).Holds x ∨ ∃ e ∈ ds, x ∈ e.facts := ih hkn' hr
      _ ↔ p.Holds x ∨ ∃ e ∈ d :: ds, x ∈ e.facts := by
          rw [hs, or_assoc, exists_mem_cons_iff]

/-- The empty program holds nothing. -/
theorem not_holds_empty : ¬({} : Program).Holds x := by
  simp [Holds]

/-- The facts of a program are those of its declarations. -/
theorem holds_absorbAll_empty (hds : opensFirst ds) : (absorbAll {} ds).Holds x ↔ ∃ d ∈ ds, x ∈ d.facts := by
  have hkn : ∀ y ∈ ([] : List Fact), ({} : Program).Holds y := by simp
  rw [holds_absorbAll hkn hds]
  exact or_iff_right not_holds_empty

end Program

end Declass
