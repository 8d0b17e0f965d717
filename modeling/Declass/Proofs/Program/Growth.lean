import Declass.Proofs.Program.Keyed
import Mathlib.Data.List.Forall2

/-!
# Programs that grow

`Program.Grows` says that the entries of every list keep their places, new ones come after them, and within an entry a gap may be
filled, a list may get longer and a flag may be set. Main statement: `Program.grows_absorbAll`.
-/

namespace Declass

open List Table

/-! ## Gaps and tables -/

/-- A gap may be filled; what is there stays. -/
def Fills {α : Type} (a b : Option α) : Prop :=
  ∀ x, a = some x → b = some x

namespace Fills

variable {α : Type}

theorem refl (a : Option α) : Fills a a :=
  fun _ h => h

theorem trans {a b c : Option α} (h : Fills a b) (h' : Fills b c) : Fills a c :=
  fun x hx => h' x (h x hx)

theorem or_right (a b : Option α) : Fills a (a.or b) := by
  rintro x rfl
  rfl

end Fills

namespace Table

variable {α β : Type}

/-- Entries keep places and keys and grow by `R`; later ones have new keys. -/
structure Grows (key : α → β) (R : α → α → Prop) (xs ys : List α) : Prop where
  kept : ∀ (i : Nat) (x : α), xs[i]? = some x → ∃ y, ys[i]? = some y ∧ key y = key x ∧ R x y
  new : ∀ (i : Nat) (y : α), ys[i]? = some y → xs[i]? = none → ∀ x ∈ xs, key y ≠ key x

namespace Grows

variable {key : α → β} {R : α → α → Prop} {xs ys zs : List α}

theorem refl (hR : ∀ x, R x x) (xs : List α) : Grows key R xs xs where
  kept _ x hx := ⟨x, hx, rfl, hR x⟩
  new i y hy hn := by
    rw [hy] at hn
    nomatch hn

/-- Growth on growth is growth. -/
theorem trans (hR : ∀ x y z, R x y → R y z → R x z) (h : Grows key R xs ys) (h' : Grows key R ys zs) : Grows key R xs zs where
  kept i x hx := by
    obtain ⟨y, hy, hky, hxy⟩ := h.kept i x hx
    obtain ⟨z, hz, hkz, hyz⟩ := h'.kept i y hy
    exact ⟨z, hz, hkz.trans hky, hR x y z hxy hyz⟩
  new i z hz hn x hx := by
    cases hy : ys[i]? with
    | some y =>
      obtain ⟨z', hz', hk, -⟩ := h'.kept i y hy
      cases hz.symm.trans hz'
      exact hk ▸ h.new i y hy hn x hx
    | none =>
      obtain ⟨j, hj⟩ := mem_iff_getElem?.1 hx
      obtain ⟨y, hy', hk, -⟩ := h.kept j x hj
      exact hk ▸ h'.new i z hz hy y (mem_of_getElem? hy')

/-- One entry grows, the others stay. -/
theorem entry (hR : ∀ x, R x x) {as bs : List α} {x y : α} (hk : key y = key x) (hxy : R x y) :
    Grows key R (as ++ x :: bs) (as ++ y :: bs) where
  kept i a ha := by
    by_cases hi : i < as.length
    · rw [getElem?_append_left hi] at ha ⊢
      exact ⟨a, ha, rfl, hR a⟩
    · rw [getElem?_append_right (by omega)] at ha ⊢
      cases hn : i - as.length with
      | zero =>
        rw [hn] at ha
        cases ha
        exact ⟨y, rfl, hk, hxy⟩
      | succ n =>
        rw [hn] at ha
        exact ⟨a, ha, rfl, hR a⟩
  new i z hz hn := by
    have := (List.getElem?_eq_some_iff.1 hz).1
    rw [List.getElem?_eq_none_iff] at hn
    simp only [length_append, length_cons] at this hn
    omega

/-- An entry with a new key comes after the others. -/
theorem concat (hR : ∀ x, R x x) {y : α} (hy : ∀ x ∈ xs, key y ≠ key x) : Grows key R xs (xs ++ [y]) where
  kept i x hx := ⟨x, by rw [getElem?_append_left (List.getElem?_eq_some_iff.1 hx).1, hx], rfl, hR x⟩
  new i z hz hn := by
    rw [List.getElem?_eq_none_iff] at hn
    rw [getElem?_append_right hn] at hz
    cases mem_singleton.1 (mem_of_getElem? hz)
    exact hy

/-- All entries grow in their places. -/
theorem map {f : α → α} (hkey : ∀ x, key (f x) = key x) (hf : ∀ x, R x (f x)) (xs : List α) : Grows key R xs (xs.map f) where
  kept i x hx := ⟨f x, by rw [getElem?_map, hx]; rfl, hkey x, hf x⟩
  new i y hy hn := by
    rw [getElem?_map, hn] at hy
    nomatch hy

/-- The first entry with a key has grown and is still first. -/
theorem find? [DecidableEq β] (h : Grows key R xs ys) {k : β} {x : α} (hx : xs.find? (fun x => key x = k) = some x) :
    ∃ y, ys.find? (fun y => key y = k) = some y ∧ R x y := by
  obtain ⟨hkx, i, hi, hxi, hbef⟩ := find?_eq_some_iff_getElem.1 hx
  obtain ⟨y, hy, hk, hxy⟩ := h.kept i x (List.getElem?_eq_some_iff.2 ⟨hi, hxi⟩)
  obtain ⟨hiy, rfl⟩ := List.getElem?_eq_some_iff.1 hy
  refine ⟨_, find?_eq_some_iff_getElem.2 ⟨?_, i, hiy, rfl, ?_⟩, hxy⟩
  · simpa [hk] using hkx
  · intro j hj
    obtain ⟨z, hz, hkz, -⟩ := h.kept j xs[j] (getElem?_eq_getElem (by omega))
    obtain ⟨hjy, rfl⟩ := List.getElem?_eq_some_iff.1 hz
    simpa [hkz] using hbef j hj

end Grows

/-- An edit finds the first entry of its key. -/
theorem upsert_append {p : α → Bool} {as : List α} {x : α} (has : ∀ a ∈ as, p a = false) (hx : p x)
    (f : α → α) (fresh : α) (bs : List α) : upsert p f fresh (as ++ x :: bs) = as ++ f x :: bs := by
  induction as with
  | nil => rw [nil_append, upsert, if_pos hx, nil_append]
  | cons a as ih =>
    rw [forall_mem_cons] at has
    rw [cons_append, upsert, if_neg (by simp [has.1]), ih has.2, cons_append]

/-- Without an entry of the key an edit adds one. -/
theorem upsert_of_forall {p : α → Bool} {xs : List α} (hxs : ∀ x ∈ xs, p x = false) (f : α → α) (fresh : α) :
    upsert p f fresh xs = xs ++ [fresh] := by
  induction xs with
  | nil => rfl
  | cons x xs ih =>
    rw [forall_mem_cons] at hxs
    rw [upsert, if_neg (by simp [hxs.1]), ih hxs.2, cons_append]

/-- An entry is the first that satisfies `p`, or there is none. -/
theorem first_or_none (p : α → Bool) (xs : List α) :
    (∃ as x bs, xs = as ++ x :: bs ∧ p x ∧ ∀ a ∈ as, p a = false) ∨ ∀ x ∈ xs, p x = false := by
  cases h : xs.find? p with
  | none => exact .inr (by simpa using h)
  | some x =>
    obtain ⟨hx, as, bs, rfl, has⟩ := find?_eq_some_iff_append.1 h
    exact .inl ⟨as, x, bs, rfl, hx, by simpa using has⟩

/-- A table grows by an edit that keeps the key. -/
theorem grows_upsert [DecidableEq β] {key : α → β} {R : α → α → Prop} {k : β} {f : α → α} {fresh : α}
    (hR : ∀ x, R x x) (hkey : ∀ x, key (f x) = key x) (hf : ∀ x, R x (f x)) (hk : key fresh = k) (xs : List α) :
    Grows key R xs (upsert (fun x => key x = k) f fresh xs) := by
  rcases first_or_none (fun x => key x = k) xs with ⟨as, x, bs, rfl, hx, has⟩ | hxs
  · rw [upsert_append has hx]
    exact .entry hR (hkey x) (hf x)
  · rw [upsert_of_forall hxs]
    refine .concat hR ?_
    intro x hx hkx
    exact absurd (hkx.symm.trans hk) (by simpa using hxs x hx)

end Table

/-! ## Callables -/

/-- The parameter keeps its type; a missing name may be filled. -/
structure Param.Grows (p q : Param) : Prop where
  type : q.type = p.type
  name : Fills p.name q.name

theorem Param.Grows.refl (p : Param) : p.Grows p :=
  ⟨rfl, Fills.refl p.name⟩

variable {ps qs : List Param} (f : Callable)

theorem Param.Grows.trans_list {rs : List Param} (h : List.Forall₂ Param.Grows ps qs) (h' : List.Forall₂ Param.Grows qs rs) :
    List.Forall₂ Param.Grows ps rs := by
  induction h generalizing rs with
  | nil => exact h'
  | cons hpq _ ih =>
    cases h' with
    | cons hqr h' => exact .cons ⟨hqr.type.trans hpq.type, hpq.name.trans hqr.name⟩ (ih h')

/-- Parameters that get names keep their types. -/
theorem Param.Grows.map_type (h : List.Forall₂ Param.Grows ps qs) : qs.map Param.type = ps.map Param.type := by
  induction h with
  | nil => rfl
  | cons hpq _ ih => rw [map_cons, map_cons, ih, hpq.type]

namespace Callable

/-- The callable is the same; parameters may get names, locals more entries. -/
structure Grows (f g : Callable) : Prop where
  name : g.name = f.name
  rawType : g.rawType = f.rawType
  params : List.Forall₂ Param.Grows f.params g.params
  locals : f.locals <+: g.locals
  body : Fills f.body g.body
  isStatic : f.isStatic = true → g.isStatic = true
  origin : Fills f.origin g.origin
  definedIn : Fills f.definedIn g.definedIn
  cName : g.cName = f.cName

namespace Grows

theorem refl : f.Grows f where
  name := rfl
  rawType := rfl
  params := forall₂_same.2 fun p _ => .refl p
  locals := prefix_refl _
  body := Fills.refl _
  isStatic := id
  origin := Fills.refl _
  definedIn := Fills.refl _
  cName := rfl

/-- A callable that grows twice grows. -/
theorem trans (f g h : Callable) (hfg : f.Grows g) (hgh : g.Grows h) : f.Grows h where
  name := hgh.name.trans hfg.name
  rawType := hgh.rawType.trans hfg.rawType
  params := Param.Grows.trans_list hfg.params hgh.params
  locals := hfg.locals.trans hgh.locals
  body := hfg.body.trans hgh.body
  isStatic := hgh.isStatic ∘ hfg.isStatic
  origin := hfg.origin.trans hgh.origin
  definedIn := hfg.definedIn.trans hgh.definedIn
  cName := hgh.cName.trans hfg.cName

/-- A callable that grows keeps its parameter types. -/
theorem paramTypes {f g : Callable} (h : f.Grows g) : g.paramTypes = f.paramTypes := by
  have htys := congrArg (map Text.squeeze) (Param.Grows.map_type h.params)
  rwa [map_map, map_map] at htys

end Grows

/-- New locals go after those there are. -/
theorem prefix_addLocals (locals more : List Var) : locals <+: addLocals locals more := by
  unfold addLocals
  induction more generalizing locals with
  | nil => exact prefix_refl _
  | cons l more ih =>
    rw [foldl_cons]
    split
    · exact ih locals
    · exact (prefix_append _ _).trans (ih _)

/-- Names are only given to parameters without one. -/
theorem forall₂_fillNames (ps qs : List Param) : List.Forall₂ Param.Grows ps (fillNames ps qs) := by
  fun_induction fillNames ps qs with
  | case1 p ps q qs ih => exact .cons ⟨rfl, Fills.or_right _ _⟩ ih
  | case2 ps qs _ => exact forall₂_same.2 fun p _ => .refl p

/-- A later report adds to a callable. -/
theorem grows_merge (f g : Callable) : f.Grows (f.merge g) where
  name := rfl
  rawType := rfl
  params := forall₂_fillNames f.params g.params
  locals := prefix_addLocals f.locals g.locals
  body := Fills.or_right _ _
  isStatic := by
    intro h
    simp [merge, h]
  origin := Fills.or_right _ _
  definedIn := Fills.or_right _ _
  cName := rfl

/-- A merge keeps the parameter types. -/
theorem paramTypes_merge (f g : Callable) : (f.merge g).paramTypes = f.paramTypes :=
  (f.grows_merge g).paramTypes

/-- One more report of a signature adds to the list. -/
theorem grows_addSignature (fs : List Callable) (f : Callable) : Table.Grows paramTypes Grows fs (addSignature fs f) :=
  grows_upsert Grows.refl (fun g => g.paramTypes_merge f) (fun g => g.grows_merge f) rfl fs

end Callable

/-! ## Classes, enumerations, overload sets and variables -/

namespace Class

variable (c : Class)

/-- The class is the same one, and what is known of it stays. -/
structure Grows (c d : Class) : Prop where
  name : d.name = c.name
  keyword : c.keyword = .classWord → d.keyword = .classWord
  fields : c.fields <+: d.fields
  methods : Table.Grows Callable.name Callable.Grows c.methods d.methods
  constructors : Table.Grows Callable.paramTypes Callable.Grows c.constructors d.constructors
  hasDestructor : c.hasDestructor = true → d.hasDestructor = true
  origin : Fills c.origin d.origin

namespace Grows

theorem refl : c.Grows c where
  name := rfl
  keyword := id
  fields := prefix_refl _
  methods := .refl Callable.Grows.refl _
  constructors := .refl Callable.Grows.refl _
  hasDestructor := id
  origin := Fills.refl _

/-- A class that grows twice grows. -/
theorem trans (c d e : Class) (hcd : c.Grows d) (hde : d.Grows e) : c.Grows e where
  name := hde.name.trans hcd.name
  keyword := hde.keyword ∘ hcd.keyword
  fields := hcd.fields.trans hde.fields
  methods := hcd.methods.trans Callable.Grows.trans hde.methods
  constructors := hcd.constructors.trans Callable.Grows.trans hde.constructors
  hasDestructor := hde.hasDestructor ∘ hcd.hasDestructor
  origin := hcd.origin.trans hde.origin

end Grows

theorem grows_addRecord (keyword : RecordKeyword) (origin : Option Path) : c.Grows (c.addRecord keyword origin) :=
  { Grows.refl c with
    keyword := by
      intro h
      simp [addRecord, h]
    origin := Fills.or_right _ _ }

/-- A class grows by a field. -/
theorem grows_addField (v : Var) : c.Grows (c.addField v) := by
  unfold addField
  split
  · exact .refl c
  · exact { Grows.refl c with fields := prefix_append _ _ }

theorem grows_addMethod : c.Grows (c.addMethod f) :=
  { Grows.refl c with
    methods := grows_upsert (f := (·.merge f)) Callable.Grows.refl (fun _ => rfl) (fun g => g.grows_merge f) rfl _ }

theorem grows_addConstructor : c.Grows (c.addConstructor f) :=
  { Grows.refl c with constructors := Callable.grows_addSignature _ f }

theorem grows_destructor : c.Grows { c with hasDestructor := true } :=
  { Grows.refl c with hasDestructor := fun _ => rfl }

end Class

namespace Enumeration

/-- The enumeration is the same one and keeps its constants. -/
structure Grows (e e' : Enumeration) : Prop where
  name : e'.name = e.name
  isScoped : e'.isScoped = e.isScoped
  constants : e.constants <+: e'.constants

theorem Grows.refl (e : Enumeration) : e.Grows e :=
  ⟨rfl, rfl, prefix_refl _⟩

theorem Grows.trans (e e' e'' : Enumeration) (h : e.Grows e') (h' : e'.Grows e'') : e.Grows e'' :=
  ⟨h'.name.trans h.name, h'.isScoped.trans h.isScoped, h.constants.trans h'.constants⟩

/-- An enumeration grows by a constant. -/
theorem grows_addConstant (e : Enumeration) (k : EnumConstant) : e.Grows (e.addConstant k) := by
  unfold addConstant
  split
  · exact .refl e
  · exact ⟨rfl, rfl, prefix_append _ _⟩

end Enumeration

namespace OverloadSet

/-- The set keeps its signatures. -/
structure Grows (s t : OverloadSet) : Prop where
  name : t.name = s.name
  signatures : Table.Grows Callable.paramTypes Callable.Grows s.signatures t.signatures

theorem Grows.refl (s : OverloadSet) : s.Grows s :=
  ⟨rfl, .refl Callable.Grows.refl _⟩

theorem Grows.trans (s t u : OverloadSet) (h : s.Grows t) (h' : t.Grows u) : s.Grows u :=
  ⟨h'.name.trans h.name, h.signatures.trans Callable.Grows.trans h'.signatures⟩

end OverloadSet

namespace GlobalVar

/-- The variable is the same; an initializer may be reported. -/
structure Grows (v w : GlobalVar) : Prop where
  name : w.name = v.name
  type : w.type = v.type
  hasInit : v.hasInit = true → w.hasInit = true
  initArgs : w.initArgs = v.initArgs

theorem Grows.refl (v : GlobalVar) : v.Grows v :=
  ⟨rfl, rfl, id, rfl⟩

theorem Grows.trans (u v w : GlobalVar) (h : u.Grows v) (h' : v.Grows w) : u.Grows w :=
  ⟨h'.name.trans h.name, h'.type.trans h.type, h'.hasInit ∘ h.hasInit, h'.initArgs.trans h.initArgs⟩

end GlobalVar

/-! ## Programs -/

namespace Program

variable (p : Program)

/-- All that the program holds stays, each list in its order. -/
structure Grows (p q : Program) : Prop where
  classes : Table.Grows Class.name Class.Grows p.classes q.classes
  enums : Table.Grows Enumeration.name Enumeration.Grows p.enums q.enums
  functions : Table.Grows OverloadSet.name OverloadSet.Grows p.functions q.functions
  globals : Table.Grows GlobalVar.name GlobalVar.Grows p.globals q.globals
  main : ∀ f, p.main = some f → ∃ g, q.main = some g ∧ f.Grows g

namespace Grows

theorem refl : p.Grows p where
  classes := .refl Class.Grows.refl _
  enums := .refl Enumeration.Grows.refl _
  functions := .refl OverloadSet.Grows.refl _
  globals := .refl GlobalVar.Grows.refl _
  main f hf := ⟨f, hf, .refl f⟩

/-- A program that grows twice grows. -/
theorem trans {p q r : Program} (h : p.Grows q) (h' : q.Grows r) : p.Grows r where
  classes := h.classes.trans Class.Grows.trans h'.classes
  enums := h.enums.trans Enumeration.Grows.trans h'.enums
  functions := h.functions.trans OverloadSet.Grows.trans h'.functions
  globals := h.globals.trans GlobalVar.Grows.trans h'.globals
  main f hf := by
    obtain ⟨g, hg, hfg⟩ := h.main f hf
    obtain ⟨k, hk, hgk⟩ := h'.main g hg
    exact ⟨k, hk, .trans f g k hfg hgk⟩

end Grows

/-- A program grows where a class does. -/
theorem grows_editClass (name : Text) (keyword : RecordKeyword) {f : Class → Class}
    (hf : ∀ c : Class, c.Grows (f c)) : p.Grows (p.editClass name keyword f) :=
  { Grows.refl p with
    classes := grows_upsert Class.Grows.refl (fun c => (hf c).name) hf
      (hf { name, keyword }).name _ }

/-- A program grows by a function. -/
theorem grows_addFunction : p.Grows (p.addFunction f) := by
  unfold addFunction
  split
  · refine { Grows.refl p with main := ?_ }
    intro g hg
    exact ⟨g.merge f, by simp [hg], g.grows_merge f⟩
  · refine { Grows.refl p with functions := ?_ }
    exact grows_upsert (k := f.name) (f := fun s : OverloadSet => { s with signatures := Callable.addSignature s.signatures f })
      OverloadSet.Grows.refl (fun s => rfl) (fun s => ⟨rfl, Callable.grows_addSignature s.signatures f⟩) rfl _

/-- A program grows by one declaration. -/
theorem grows_absorb (d : Declaration) : p.Grows (p.absorb d) := by
  cases d with
  | record name keyword origin => exact p.grows_editClass _ _ fun c => c.grows_addRecord keyword origin
  | field owner v => exact p.grows_editClass _ _ fun c => c.grows_addField v
  | method owner d => exact p.grows_editClass _ _ fun c => c.grows_addMethod _
  | constructor owner d => exact p.grows_editClass _ _ fun c => c.grows_addConstructor _
  | destructor owner => exact p.grows_editClass _ _ Class.grows_destructor
  | enumeration name isScoped =>
    exact { Grows.refl p with
      enums := grows_upsert (k := name) Enumeration.Grows.refl (fun _ => rfl) Enumeration.Grows.refl rfl _ }
  | constant enumeration name value =>
    have hgr (e : Enumeration) : e.Grows (if e.name = enumeration then e.addConstant { name, value } else e) := by
      split
      · exact e.grows_addConstant _
      · exact .refl e
    exact { Grows.refl p with enums := Table.Grows.map (fun e => (hgr e).name) hgr _ }
  | function d => exact p.grows_addFunction _
  | global v hasInit =>
    exact { Grows.refl p with
      globals := grows_upsert (k := v.name) (f := fun g => { g with hasInit := g.hasInit || hasInit })
        GlobalVar.Grows.refl (fun _ => rfl) (fun g => ⟨rfl, rfl, fun h => by simp [h], rfl⟩) rfl _ }

/-- A program grows by any number of declarations. -/
theorem grows_absorbAll (ds : List Declaration) : p.Grows (p.absorbAll ds) := by
  induction ds generalizing p with
  | nil => exact .refl p
  | cons d ds ih => exact (p.grows_absorb d).trans (ih _)

end Program

end Declass
