import Declass.Proofs.Dump.Step

/-!
# Truncated dumps

No line takes back what an earlier one said, and none moves a report. Main statement: a dump whose last lines are missing has the
first declarations of the whole dump, as far as they were read (`declarations_truncated`).
-/

namespace Declass

variable {d : Declaration} {line : DumpLine}

/-! ## Reports that were read in part -/

/-- A callable as far as it was read: its last parts can be missing. -/
structure CallableDecl.Approximates (a b : CallableDecl) : Prop where
  name : a.name = b.name
  rawType : a.rawType = b.rawType
  isStatic : a.isStatic = b.isStatic
  origin : a.origin = b.origin
  params : a.params <+: b.params
  locals : a.locals <+: b.locals
  isDefinition : a.isDefinition = true → b.isDefinition = true

/-- A declaration as far as it was read: parts or a value can be missing. -/
inductive Declaration.Approximates : Declaration → Declaration → Prop
  | same (d : Declaration) : Approximates d d
  | method (owner : Text) {a b : CallableDecl} (h : a.Approximates b) : Approximates (.method owner a) (.method owner b)
  | constructor (owner : Text) {a b : CallableDecl} (h : a.Approximates b) :
      Approximates (.constructor owner a) (.constructor owner b)
  | function {a b : CallableDecl} (h : a.Approximates b) : Approximates (.function a) (.function b)
  | constant (enumeration name : Text) {v w : Option Int} (h : ∀ n, v = some n → w = some n) :
      Approximates (.constant enumeration name v) (.constant enumeration name w)

namespace CallableDecl.Approximates

variable {a b c : CallableDecl}

theorem refl (a : CallableDecl) : a.Approximates a :=
  ⟨rfl, rfl, rfl, rfl, List.prefix_refl _, List.prefix_refl _, id⟩

theorem trans (h : a.Approximates b) (h' : b.Approximates c) : a.Approximates c where
  name := h.name.trans h'.name
  rawType := h.rawType.trans h'.rawType
  isStatic := h.isStatic.trans h'.isStatic
  origin := h.origin.trans h'.origin
  params := h.params.trans h'.params
  locals := h.locals.trans h'.locals
  isDefinition := h'.isDefinition ∘ h.isDefinition

end CallableDecl.Approximates

namespace Declaration.Approximates

theorem trans {d e f : Declaration} (h : d.Approximates e) (h' : e.Approximates f) : d.Approximates f := by
  cases h with
  | same d => exact h'
  | method owner h =>
    cases h' with
    | same d => exact .method owner h
    | method _ h' => exact .method owner (h.trans h')
  | constructor owner h =>
    cases h' with
    | same d => exact .constructor owner h
    | constructor _ h' => exact .constructor owner (h.trans h')
  | function h =>
    cases h' with
    | same d => exact .function h
    | function h' => exact .function (h.trans h')
  | constant enumeration name h =>
    cases h' with
    | same d => exact .constant enumeration name h
    | constant _ _ h' => exact .constant enumeration name fun n hn => h' n (h n hn)

end Declaration.Approximates

namespace Dump

/-! ## Parts -/

theorem approximates_addPart (decl : CallableDecl) : decl.Approximates (addPart line decl) := by
  unfold addPart
  split
  · exact { CallableDecl.Approximates.refl decl with params := List.prefix_append _ _ }
  split
  · exact { CallableDecl.Approximates.refl decl with isDefinition := fun _ => rfl }
  · exact .refl decl

theorem approximates_addLocal (decl : CallableDecl) : decl.Approximates (addLocal line decl) := by
  unfold addLocal
  split
  · split
    · exact { CallableDecl.Approximates.refl decl with locals := List.prefix_append _ _ }
    · exact .refl decl
  · exact .refl decl

theorem approximates_editCallable {f : CallableDecl → CallableDecl}
    (hf : ∀ decl : CallableDecl, decl.Approximates (f decl)) : d.Approximates (editCallable f d) := by
  cases d with
  | method owner decl => exact .method owner (hf decl)
  | constructor owner decl => exact .constructor owner (hf decl)
  | function decl => exact .function (hf decl)
  | record | field | destructor | enumeration | constant | global => exact .same _

/-- A value stays when another one is read. -/
theorem approximates_addValue (value : Option Int) : d.Approximates (addValue value d) := by
  cases d with
  | constant enumeration name v =>
    refine .constant enumeration name fun n hn => ?_
    rw [hn, Option.some_or]
  | method | constructor | function | record | field | destructor | enumeration | global => exact .same _

theorem approximates_addTo (part : Part) (d : Declaration) : d.Approximates (part.addTo d) := by
  cases part with
  | member line => exact approximates_editCallable approximates_addPart
  | nested line => exact approximates_editCallable approximates_addLocal
  | value direct line => exact approximates_addValue _

/-- Parts only add to a report. -/
theorem approximates_addAll (parts : List Part) (d : Declaration) : d.Approximates (Part.addAll parts d) := by
  induction parts generalizing d with
  | nil => exact .same d
  | cons part parts ih => exact (approximates_addTo part d).trans (ih (part.addTo d))

/-! ## Reports -/

/-- Reports with more read after them: each says no less than before. -/
def Extended (short long : List Declaration) : Prop :=
  ∀ (i : Nat) (d : Declaration), short[i]? = some d → ∃ e, long[i]? = some e ∧ d.Approximates e

namespace Extended

theorem refl (ds : List Declaration) : Extended ds ds :=
  fun _ d h => ⟨d, h, .same d⟩

theorem trans {ds es fs : List Declaration} (h : Extended ds es) (h' : Extended es fs) : Extended ds fs := by
  intro i d hd
  obtain ⟨e, he, hde⟩ := h i d hd
  obtain ⟨f, hf, hef⟩ := h' i e he
  exact ⟨f, hf, hde.trans hef⟩

end Extended

/-- Parts that are added to one report leave all reports at their places. -/
theorem extended_addAt (position : Option Nat) (parts : List Part) (reports : List Declaration) :
    Extended reports (addAt position parts reports) := by
  cases position with
  | none => exact .refl reports
  | some k =>
    intro i d hd
    simp only [addAt, Option.elim_some, List.getElem?_modify, hd]
    split
    · exact ⟨_, rfl, approximates_addAll parts d⟩
    · exact ⟨_, rfl, .same d⟩

theorem extended_visit (r : Reader) (line : DumpLine) : Extended r.reports (r.visit line).reports := by
  rw [r.reports_visit line]
  intro i d hd
  obtain ⟨e, he, hde⟩ := extended_addAt (position? (r.pathTo line)) (r.reading line).part.toList r.reports i d hd
  exact ⟨e, List.getElem?_append_left (getElem?_eq_some_iff.1 he).1 ▸ he, hde⟩

theorem extended_foldl_visit (lines : List DumpLine) (r : Reader) : Extended r.reports (lines.foldl Reader.visit r).reports := by
  induction lines generalizing r with
  | nil => exact .refl _
  | cons line lines ih => exact (extended_visit r line).trans (ih (r.visit line))

/-! ## Dumps -/

/-- A dump cut off after some lines reports the first declarations of the whole one, each with the same names, owner, types,
static flag and origin. At most the last parameters and locals, the body, or the value are missing. -/
theorem declarations_truncated (origins : Option (List Path)) (part dump : Text)
    (h : Text.lines part <+: Text.lines dump) : Extended (declarations origins part) (declarations origins dump) := by
  obtain ⟨rest, hrest⟩ : readLines part <+: readLines dump := h.filterMap _
  have hlines : Reader.ofLines origins (readLines dump) =
      rest.foldl Reader.visit (Reader.ofLines origins (readLines part)) := by
    rw [← hrest]
    exact List.foldl_append
  rw [declarations_eq_reports, declarations_eq_reports, hlines]
  exact extended_foldl_visit rest _

/-- The first lines of a dump: a constant whose value was not read yet. -/
def modeStart : Text :=
  "|-EnumDecl 0x2 <a.cpp:1:1> Mode\n" ++
    "| `-EnumConstantDecl 0x3 <col:13> on 'Mode'\n"

/-- The whole dump: the value of the constant, and a function after it. -/
def modeDump : Text :=
  modeStart ++
    "|   `-ConstantExpr 0x4 <col:18> 'int'\n" ++
    "|     `-value: Int 1\n" ++
    "`-FunctionDecl 0x5 <line:2:1> run 'void (int)'\n"

theorem declarations_truncated_modeDump :
    Text.lines modeStart <+: Text.lines modeDump ∧
      declarations none modeStart = [.enumeration "Mode" false, .constant "Mode" "on" none] ∧
      Extended (declarations none modeStart) (declarations none modeDump) ∧
      (declarations none modeDump)[1]? = some (.constant "Mode" "on" (some 1)) := by
  have h : Text.lines modeStart <+: Text.lines modeDump := by decide +kernel
  exact ⟨h, by decide +kernel, declarations_truncated none modeStart modeDump h, by decide +kernel⟩

end Dump

end Declass
