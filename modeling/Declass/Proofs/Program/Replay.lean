import Declass.Proofs.Program.Growth

/-!
# Declarations reported again

Absorbing a declaration fills gaps: done twice it does what it does once, also when the program grows in between (`Lasting`). Main
statement: `Program.absorbAll_again`.
-/

namespace Declass

variable (f : Callable)

open Declass.Class List Table

/-- An edit that adds what is missing: twice is once. -/
structure Lasting {α : Type} (R : α → α → Prop) (f : α → α) : Prop where
  again : ∀ x, f (f x) = f x
  lasts : ∀ x y, R x y → f x = x → f y = y

/-! ## Parts of an entry -/

/-- A gap that `b` has nothing to fill in stays such a gap. -/
theorem Fills.or_eq_self {α : Type} {a a' b : Option α} (h : Fills a a') (hab : a.or b = a) : a'.or b = a' := by
  cases a with
  | some x => rw [h x rfl, Option.some_or]
  | none =>
    rw [Option.none_or] at hab
    rw [hab, Option.or_none]

theorem flag_eq_self {a a' b : Bool} (h : a → a') (hab : (a || b) = a) : (a' || b) = a' := by
  cases a <;> cases a' <;> cases b <;> simp_all

/-- A list that grew at its end keeps its names. -/
theorem any_of_grown {α : Type} {xs ys : List α} (h : xs <+: ys) {p : α → Bool} (hx : xs.any p) : ys.any p := by
  obtain ⟨x, hx, hp⟩ := any_eq_true.1 hx
  exact any_eq_true.2 ⟨x, h.subset hx, hp⟩

namespace Table

variable {α β : Type}

/-- An edit by key adds what is missing if that of the entry does. -/
theorem lasting_upsert [DecidableEq β] (key : α → β) (k : β) {R : α → α → Prop} {f : α → α} (fresh : α)
    (hf : Lasting R f) (hkey : ∀ x, key (f x) = key x) (hk : key fresh = k) (hfr : f fresh = fresh) :
    Lasting (Grows key R) (upsert (fun x => key x = k) f fresh) where
  again xs := by
    rcases first_or_none (fun x => key x = k) xs with ⟨as, x, bs, rfl, hx, has⟩ | hxs
    · have hfx : decide (key (f x) = k) := by rwa [hkey]
      rw [upsert_append has hx, upsert_append has hfx, hf.again]
    · rw [upsert_of_forall hxs, upsert_append hxs (decide_eq_true hk), hfr]
  lasts xs ys h hxs := by
    rcases first_or_none (fun x => key x = k) xs with ⟨as, x, bs, rfl, hx, has⟩ | hno
    · rw [upsert_append has hx] at hxs
      have hfx : f x = x := by simpa using hxs
      obtain ⟨y, hy, hxy⟩ := h.find?
        (find?_eq_some_iff_append.2 ⟨hx, as, bs, rfl, by simpa using has⟩)
      obtain ⟨hky, as', bs', rfl, has'⟩ := find?_eq_some_iff_append.1 hy
      have hbef : ∀ a ∈ as', decide (key a = k) = false := by simpa using has'
      rw [upsert_append hbef hky, hf.lasts x y hxy hfx]
    · rw [upsert_of_forall hno] at hxs
      simp at hxs

end Table

/-! ## Callables -/

namespace Callable

theorem fillNames_again (ps qs : List Param) : fillNames (fillNames ps qs) qs = fillNames ps qs := by
  fun_induction fillNames ps qs with
  | case1 p ps q qs ih => rw [fillNames, ih, Option.or_assoc, Option.or_self]
  | case2 ps qs h => exact fillNames.eq_2 ps qs h

theorem fillNames_lasts {ps ps' : List Param} (h : List.Forall₂ Param.Grows ps ps') (qs : List Param)
    (hps : fillNames ps qs = ps) : fillNames ps' qs = ps' := by
  induction h generalizing qs with
  | nil => exact fillNames.eq_2 _ _ nofun
  | @cons p p' ps ps' hp _ ih =>
    cases qs with
    | nil => exact fillNames.eq_2 _ _ nofun
    | cons q qs =>
      rw [fillNames] at hps ⊢
      obtain ⟨hn, hr⟩ := cons.inj hps
      rw [ih qs hr, hp.name.or_eq_self (congrArg Param.name hn)]

theorem addLocals_cons (locals : List Var) (l : Var) (more : List Var) : addLocals locals (l :: more) =
      addLocals (if locals.any (·.name = l.name) then locals else locals ++ [l]) more := rfl

/-- Only locals with new names are added. -/
theorem addLocals_eq_self_iff {locals more : List Var} :
    addLocals locals more = locals ↔ ∀ l ∈ more, locals.any (·.name = l.name) := by
  induction more with
  | nil => simp [addLocals]
  | cons l more ih =>
    rw [addLocals_cons, forall_mem_cons]
    split
    · rename_i hl
      rw [ih]
      simp only [hl, true_and]
    · rename_i hl
      refine ⟨fun h => ?_, fun h => absurd h.1 hl⟩
      have hlen := (h ▸ prefix_addLocals (locals ++ [l]) more).length_le
      rw [length_append, length_singleton] at hlen
      omega

theorem any_addLocals (locals more : List Var) : ∀ l ∈ more, (addLocals locals more).any (·.name = l.name) := by
  induction more generalizing locals with
  | nil => nofun
  | cons l more ih =>
    rw [forall_mem_cons]
    refine ⟨?_, fun m hm => ih _ m hm⟩
    rw [addLocals_cons]
    refine any_of_grown (prefix_addLocals _ more) ?_
    split
    · assumption
    · simp

/-- A report that was merged adds nothing later. -/
theorem lasting_merge (g : Callable) : Lasting Grows (·.merge g) where
  again f := by
    have hloc := addLocals_eq_self_iff.2 (any_addLocals f.locals g.locals)
    simp only [merge, fillNames_again, hloc, Option.or_assoc, Option.or_self, Bool.or_assoc, Bool.or_self]
  lasts f f' h hf := by
    have hps : fillNames f.params g.params = f.params := congrArg Callable.params hf
    have hloc : addLocals f.locals g.locals = f.locals := congrArg Callable.locals hf
    have hb : f.body.or g.body = f.body := congrArg Callable.body hf
    have hstatic : (f.isStatic || g.isStatic) = f.isStatic := congrArg Callable.isStatic hf
    have hori : f.origin.or g.origin = f.origin := congrArg Callable.origin hf
    have hdefined : f.definedIn.or g.definedIn = f.definedIn := congrArg Callable.definedIn hf
    have hloc' : addLocals f'.locals g.locals = f'.locals :=
      addLocals_eq_self_iff.2 fun l hl => any_of_grown h.locals (addLocals_eq_self_iff.1 hloc l hl)
    simp only [merge, fillNames_lasts h.params g.params hps, hloc', h.body.or_eq_self hb,
      h.origin.or_eq_self hori, h.definedIn.or_eq_self hdefined, flag_eq_self h.isStatic hstatic]

theorem merge_self : f.merge f = f := by
  have hps : ∀ ps : List Param, fillNames ps ps = ps := by
    intro ps
    induction ps with
    | nil => rfl
    | cons p ps ih => rw [fillNames, ih, Option.or_self]
  have hloc : addLocals f.locals f.locals = f.locals := by
    refine addLocals_eq_self_iff.2 fun l hl => any_eq_true.2 ⟨l, hl, by simp⟩
  simp only [merge, hps, hloc, Option.or_self, Bool.or_self]

theorem lasting_addSignature : Lasting (Table.Grows paramTypes Grows) (addSignature · f) :=
  lasting_upsert _ _ _ (lasting_merge f) (fun g => g.paramTypes_merge f) rfl f.merge_self

end Callable

/-! ## Classes and enumerations -/

namespace Class

theorem lasting_addRecord (keyword : RecordKeyword) (origin : Option Path) : Lasting Grows (·.addRecord keyword origin) where
  again c := by
    simp only [addRecord, Option.or_assoc, Option.or_self]
    split <;> rfl
  lasts c d h hc := by
    have hkw : (if keyword = .classWord then .classWord else c.keyword) = c.keyword :=
      congrArg Class.keyword hc
    have hori : c.origin.or origin = c.origin := congrArg Class.origin hc
    simp only [addRecord, h.origin.or_eq_self hori]
    split
    · rename_i hk
      rw [if_pos hk] at hkw
      rw [← h.keyword hkw.symm]
    · rfl

variable {c : Class}

theorem isSome_field?_of_addField {v : Var} (h : c.addField v = c) : (c.field? v.name).isSome := by
  unfold addField at h
  split at h
  · assumption
  · have hlen := congrArg (length ∘ fields) h
    simp at hlen

theorem isSome_field?_mono {d : Class} (h : c.fields <+: d.fields) {name : Text} (hc : (c.field? name).isSome) :
    (d.field? name).isSome := by
  simp only [field?, isSome_find?] at hc ⊢
  exact any_of_grown h hc

theorem lasting_addField (v : Var) : Lasting Grows (·.addField v) where
  again c := by
    by_cases h : (c.field? v.name).isSome
    · simp only [addField, h, if_true]
    · have hnew : (({ c with fields := c.fields ++ [v] } : Class).field? v.name).isSome := by
        simp [field?]
      simp only [addField, h, hnew, if_true, if_false, Bool.false_eq_true]
  lasts c d h hc := by
    unfold addField
    rw [if_pos (isSome_field?_mono h.fields (isSome_field?_of_addField hc))]

theorem lasting_addMethod : Lasting Grows (·.addMethod f) := by
  have hms := lasting_upsert Callable.name f.name _ (Callable.lasting_merge f)
    (fun _ => rfl) rfl f.merge_self
  refine ⟨fun c => ?_, fun c d h hc => ?_⟩
  · simp only [addMethod, hms.again]
  · have hd := hms.lasts _ _ h.methods (congrArg methods hc)
    simp only [addMethod, hd]

theorem lasting_addConstructor : Lasting Grows (·.addConstructor f) := by
  refine ⟨fun c => ?_, fun c d h hc => ?_⟩
  · simp only [addConstructor, (Callable.lasting_addSignature f).again]
  · have hd := (Callable.lasting_addSignature f).lasts _ _ h.constructors (congrArg constructors hc)
    simp only [addConstructor, hd]

theorem lasting_destructor : Lasting Grows fun c => { c with hasDestructor := true } where
  again _ := rfl
  lasts c d h hc := by
    have hd := h.hasDestructor (congrArg hasDestructor hc).symm
    cases d
    cases hd
    rfl

end Class

namespace Enumeration

theorem any_of_addConstant {e : Enumeration} {k : EnumConstant} (h : e.addConstant k = e) :
    e.constants.any (·.name = k.name) := by
  unfold addConstant at h
  split at h
  · assumption
  · have hlen := congrArg (length ∘ Enumeration.constants) h
    simp at hlen

theorem lasting_addConstant (k : EnumConstant) : Lasting Grows (·.addConstant k) where
  again e := by
    by_cases h : e.constants.any (·.name = k.name)
    · simp only [addConstant, h, if_true]
    · have hnew : (e.constants ++ [k]).any (·.name = k.name) := by simp
      simp only [addConstant, h, hnew, if_true, if_false, Bool.false_eq_true]
  lasts e e' h he := by
    unfold addConstant
    rw [if_pos (any_of_grown h.constants (any_of_addConstant he))]

end Enumeration

namespace OverloadSet

theorem lasting_addSignature :
    Lasting Grows fun s => { s with signatures := Callable.addSignature s.signatures f } where
  again s := by simp only [(Callable.lasting_addSignature f).again]
  lasts s t h hs := by
    have ht := (Callable.lasting_addSignature f).lasts _ _ h.signatures (congrArg OverloadSet.signatures hs)
    simp only [ht]

end OverloadSet

namespace GlobalVar

theorem lasting_hasInit (hasInit : Bool) : Lasting Grows fun v => { v with hasInit := v.hasInit || hasInit } where
  again v := by simp only [Bool.or_assoc, Bool.or_self]
  lasts v w h hv := by
    have hw := flag_eq_self h.hasInit (congrArg GlobalVar.hasInit hv)
    simp only [hw]

end GlobalVar

/-! ## Programs -/

namespace Program

theorem lasting_editClass (name : Text) (keyword : RecordKeyword) {f : Class → Class} (hf : Lasting Class.Grows f)
    (hn : ∀ c, (f c).name = c.name) : Lasting Grows (·.editClass name keyword f) := by
  have hcls := lasting_upsert Class.name name (f { name, keyword }) hf hn
    (hn _) (hf.again _)
  refine ⟨fun p => ?_, fun p q h hp => ?_⟩
  · simp only [editClass, hcls.again]
  · have hq := hcls.lasts _ _ h.classes (congrArg Program.classes hp)
    simp only [editClass, hq]

/-- `main` is one callable. -/
theorem lasting_addMain {f : Callable} (hm : f.name = "main".toList) : Lasting Grows (·.addFunction f) where
  again p := by
    cases hp : p.main with
    | none => simp [addFunction, hm, hp, f.merge_self]
    | some g => simp [addFunction, hm, hp, (Callable.lasting_merge f).again g]
  lasts p q h hp := by
    simp only [addFunction, hm, if_true] at hp ⊢
    have hpm : some (p.main.elim f (·.merge f)) = p.main := congrArg main hp
    cases hp' : p.main with
    | none => simp [hp'] at hpm
    | some g =>
      obtain ⟨g', hg', hgg'⟩ := h.main g hp'
      have hg : g.merge f = g := by simpa [hp'] using hpm
      rw [hg', Option.elim_some, (Callable.lasting_merge f).lasts g g' hgg' hg, ← hg']

theorem lasting_addFunction : Lasting Grows (·.addFunction f) := by
  by_cases hm : f.name = "main"
  · exact lasting_addMain hm
  · have hfr : Callable.addSignature [f] f = [f] := by
      simp [Callable.addSignature, upsert, f.merge_self]
    have hfuns := lasting_upsert OverloadSet.name f.name
      { name := f.name, signatures := [f] } (OverloadSet.lasting_addSignature f) (fun _ => rfl) rfl
      (by simp only [hfr])
    refine ⟨fun p => ?_, fun p q h hp => ?_⟩
    · simp only [addFunction, hm, if_false, hfuns.again]
    · simp only [addFunction, hm, if_false] at hp ⊢
      have hq := hfuns.lasts _ _ h.functions (congrArg Program.functions hp)
      simp only [hq]

/-- The enumeration that a constant belongs to is there. -/
def Places (p : Program) : Declaration → Prop
  | .constant enumeration _ _ => ∃ e ∈ p.enums, e.name = enumeration
  | _ => True

/-- The program has a place for the declaration and learns nothing. -/
structure Knows (p : Program) (d : Declaration) : Prop where
  absorb_eq : p.absorb d = p
  places : p.Places d

variable {p q : Program} {d : Declaration} {enumeration name : Text} {value : Option Int} {ds : List Declaration}

theorem Places.grows (h : p.Places d) (hpq : p.Grows q) : q.Places d := by
  cases d with
  | constant enumeration name value =>
    obtain ⟨e, he, hn⟩ := h
    obtain ⟨i, hi⟩ := mem_iff_getElem?.1 he
    obtain ⟨e', he', hkey, -⟩ := hpq.enums.kept i e hi
    exact ⟨e', mem_of_getElem? he', hkey.trans hn⟩
  | _ => trivial

theorem absorb_constant_eq_iff : p.absorb (.constant enumeration name value) = p ↔
      ∀ e ∈ p.enums, e.name = enumeration → e.addConstant { name, value } = e := by
  have hens : p.absorb (.constant enumeration name value) = p ↔
      p.enums.map (fun e => if e.name = enumeration then e.addConstant { name, value } else e) = p.enums.map id := by
    rw [map_id]
    exact ⟨congrArg enums, fun h => by simp only [absorb, h]⟩
  rw [hens, map_inj_left]
  refine forall₂_congr fun e _ => ?_
  by_cases hn : e.name = enumeration <;> simp

/-- The enumerations of a known constant stay those when it grows. -/
theorem Knows.grows_constant (h : p.Knows (.constant enumeration name value)) (hpq : p.Grows q) :
    q.Knows (.constant enumeration name value) := by
  refine ⟨absorb_constant_eq_iff.2 ?_, h.places.grows hpq⟩
  intro e he hn
  obtain ⟨i, hi⟩ := mem_iff_getElem?.1 he
  cases hi' : p.enums[i]? with
  | some e₀ =>
    obtain ⟨e', he', hkey, hgr⟩ := hpq.enums.kept i e₀ hi'
    cases hi.symm.trans he'
    have he₀ := absorb_constant_eq_iff.1 h.absorb_eq e₀ (mem_of_getElem? hi') (hkey.symm.trans hn)
    exact (Enumeration.lasting_addConstant _).lasts e₀ e hgr he₀
  | none =>
    obtain ⟨e₀, he₀, hname₀⟩ := h.places
    exact absurd (hn.trans hname₀.symm) (hpq.enums.new i e hi hi' e₀ he₀)

/-- Every other declaration is an edit of one entry. -/
theorem lasting_absorb (hd : ∀ enumeration name value, d ≠ .constant enumeration name value) : Lasting Grows (·.absorb d) := by
  cases d with
  | record name keyword origin => exact lasting_editClass _ _ (lasting_addRecord _ _) fun _ => rfl
  | field owner v => exact lasting_editClass _ _ (lasting_addField v) fun c => c.name_addField v
  | method owner d => exact lasting_editClass _ _ (lasting_addMethod _) fun _ => rfl
  | constructor owner d => exact lasting_editClass _ _ (lasting_addConstructor _) fun _ => rfl
  | destructor owner => exact lasting_editClass _ _ lasting_destructor fun _ => rfl
  | enumeration name isScoped =>
    have hens := lasting_upsert (R := Enumeration.Grows) (f := id) Enumeration.name name
      { name, isScoped } ⟨fun _ => rfl, fun _ _ _ _ => rfl⟩ (fun _ => rfl) rfl rfl
    refine ⟨fun p => ?_, fun p q h hp => ?_⟩
    · simp only [absorb, hens.again]
    · have hq := hens.lasts _ _ h.enums (congrArg enums hp)
      simp only [absorb, hq]
  | constant enumeration name value => exact absurd rfl (hd enumeration name value)
  | function d => exact lasting_addFunction _
  | global v hasInit =>
    have hglob := lasting_upsert GlobalVar.name v.name
      { name := v.name, type := v.type, hasInit } (GlobalVar.lasting_hasInit hasInit) (fun _ => rfl) rfl
      (by simp only [Bool.or_self])
    refine ⟨fun p => ?_, fun p q h hp => ?_⟩
    · simp only [absorb, hglob.again]
    · have hq := hglob.lasts _ _ h.globals (congrArg globals hp)
      simp only [absorb, hq]

/-- What a program knows it knows when it has grown. -/
theorem Knows.grows (h : p.Knows d) (hpq : p.Grows q) : q.Knows d := by
  cases d with
  | constant enumeration name value => exact h.grows_constant hpq
  | _ => exact ⟨(lasting_absorb (by simp)).lasts p q hpq h.absorb_eq, h.places.grows hpq⟩

/-- A declaration that was absorbed where it has a place is known. -/
theorem knows_absorb (h : p.Places d) : (p.absorb d).Knows d := by
  refine ⟨?_, h.grows (p.grows_absorb d)⟩
  cases d with
  | constant enumeration name value =>
    refine absorb_constant_eq_iff.2 fun e he hn => ?_
    obtain ⟨e₀, -, rfl⟩ := mem_map.1 he
    by_cases hname₀ : e₀.name = enumeration
    · rw [if_pos hname₀, (Enumeration.lasting_addConstant _).again]
    · rw [if_neg hname₀] at hn
      exact absurd hn hname₀
  | _ => exact (lasting_absorb (by simp)).again p

theorem places_absorb_enumeration (isScoped : Bool) :
    (p.absorb (.enumeration enumeration isScoped)).Places (.constant enumeration name value) := by
  rcases first_or_none (fun e : Enumeration => e.name = enumeration) p.enums with ⟨as, e, bs, heq, he, has⟩ | hno
  · have hens : (p.absorb (.enumeration enumeration isScoped)).enums = as ++ e :: bs := by
      simp only [absorb, heq, upsert_append has he, id]
    exact ⟨e, by simp [hens], of_decide_eq_true he⟩
  · have hens : (p.absorb (.enumeration enumeration isScoped)).enums = p.enums ++ [{ name := enumeration, isScoped }] := by
      simp only [absorb, upsert_of_forall hno]
    exact ⟨{ name := enumeration, isScoped }, by simp [hens], rfl⟩

/-! ## Lists of declarations -/

theorem absorbAll_append (p : Program) (ds es : List Declaration) : p.absorbAll (ds ++ es) = (p.absorbAll ds).absorbAll es :=
  foldl_append

/-- Every constant comes after a report of its enumeration. -/
def EnumsFirst (ds : List Declaration) : Prop :=
  ∀ before after enumeration name value, ds = before ++ .constant enumeration name value :: after →
    ∃ isScoped, .enumeration enumeration isScoped ∈ before

theorem places_absorbAll {isScoped : Bool} (h : .enumeration enumeration isScoped ∈ ds) :
    (p.absorbAll ds).Places (.constant enumeration name value) := by
  obtain ⟨before, after, rfl⟩ := append_of_mem h
  rw [absorbAll_append]
  exact (places_absorb_enumeration isScoped).grows (grows_absorbAll _ after)

/-- The declarations of a list that opens every enumeration are known after it. -/
theorem knows_absorbAll (h : EnumsFirst ds) : ∀ d ∈ ds, (p.absorbAll ds).Knows d := by
  intro d hd
  obtain ⟨before, after, rfl⟩ := append_of_mem hd
  have hplaces : (p.absorbAll before).Places d := by
    cases d with
    | constant enumeration name value =>
      obtain ⟨isScoped, hmem⟩ := h before after enumeration name value rfl
      exact places_absorbAll hmem
    | _ => trivial
  rw [absorbAll_append]
  exact (knows_absorb hplaces).grows (grows_absorbAll _ after)

theorem absorbAll_of_knows (h : ∀ d ∈ ds, p.Knows d) : p.absorbAll ds = p := by
  induction ds with
  | nil => rfl
  | cons d ds ih =>
    rw [forall_mem_cons] at h
    have hs : p.absorbAll (d :: ds) = (p.absorb d).absorbAll ds := rfl
    rw [hs, h.1.absorb_eq, ih h.2]

/-- Declarations that were absorbed once change nothing again. -/
theorem absorbAll_again (p : Program) (es fs : List Declaration) (h : EnumsFirst es) :
    ((p.absorbAll es).absorbAll fs).absorbAll es = (p.absorbAll es).absorbAll fs :=
  absorbAll_of_knows fun d hd => (knows_absorbAll h d hd).grows (grows_absorbAll _ fs)

/-- A header, and declarations that fill in what it leaves open. -/
def headerDeclarations : List Declaration :=
  [.enumeration "Mode" true, .constant "Mode" "on" (some 1), .record "Led" .structWord none,
    .method "Led" { name := "set", rawType := "void (int)" }]

theorem absorbAll_again_header :
    EnumsFirst headerDeclarations ∧
      let fs : List Declaration :=
        [.constant "Mode" "off" none, .record "Led" .classWord (some "led.h"),
          .method "Led" { name := "set", rawType := "void (int)", params := [⟨some "v", "int"⟩], isDefinition := true }]
      ((({} : Program).absorbAll headerDeclarations).absorbAll fs).absorbAll headerDeclarations =
        (({} : Program).absorbAll headerDeclarations).absorbAll fs := by
  have h : EnumsFirst headerDeclarations := by
    intro before after enumeration name value heq
    simp only [headerDeclarations] at heq
    rcases before with _ | ⟨d₁, _ | ⟨d₂, _ | ⟨d₃, _ | ⟨d₄, before⟩⟩⟩⟩ <;> simp at heq
    obtain ⟨rfl, ⟨rfl, -⟩, -⟩ := heq
    exact ⟨true, by simp⟩
  exact ⟨h, absorbAll_again {} headerDeclarations _ h⟩

end Program

end Declass
