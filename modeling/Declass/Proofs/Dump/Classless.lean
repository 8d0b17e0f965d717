import Declass.Proofs.Dump.Step
import Declass.Proofs.Program.Plain

/-!
# Dumps without classes

The dump of a C file has structures with fields, and nothing else that belongs to a record. Main statement: the program of such
dumps has no classes, and is finished unless two functions get one C name (`Dump.finish_of_classless`).
-/

namespace Declass

open Declaration (PlainAfter PlainFrom KeepsPlain recordNames)

/-- The line is no member function, and no record that is called a class. -/
structure DumpLine.Classless (line : DumpLine) : Prop where
  kind : line.kind ∉ Dump.memberKinds
  keyword : line.kind = "CXXRecordDecl" ∨ line.kind = "RecordDecl" → ∀ r ∈ line.record?, r.1 ≠ "class".toList

instance (line : DumpLine) : Decidable line.Classless :=
  decidable_of_iff (line.kind ∉ Dump.memberKinds ∧
      (line.kind = "CXXRecordDecl" ∨ line.kind = "RecordDecl" → ∀ r ∈ line.record?, r.1 ≠ "class".toList))
    ⟨fun h => ⟨h.1, h.2⟩, fun h => ⟨h.kind, h.keyword⟩⟩

/-- A record is introduced by one of three words. -/
theorem DumpLine.keyword_of_record? {line : DumpLine} {keyword : Text} {name : Option Text}
    (h : line.record? = some (keyword, name)) : keyword = "class" ∨ keyword = "struct" ∨ keyword = "union" := by
  unfold record? at h
  split at h
  · cases h
  next word rest hwords =>
    cases h
    have hfst := List.head?_dropWhile_not (fun w : Text => !(w == "class" || w == "struct" || w == "union")) line.head
    rw [hwords] at hfst
    simpa [or_iff_not_imp_left] using hfst

namespace Dump

/-! ## Edits of reports -/

theorem keepsPlain_editCallable (f : CallableDecl → CallableDecl) : KeepsPlain (editCallable f) := by
  constructor
  · intro d
    cases d <;> rfl
  · intro known d hd
    cases d <;> exact hd

theorem keepsPlain_addValue (value : Option Int) : KeepsPlain (addValue value) := by
  constructor
  · intro d
    cases d <;> rfl
  · intro known d hd
    cases d <;> exact hd

/-! ## Visits -/

/-- A visit that leaves records plain: a record is opened by its report only. -/
structure Visit.Plain (known : List Text) (v : Visit) : Prop where
  report : ∀ d, v.report = some d → d.PlainAfter known
  record : ∀ n name, v.role n = .record name → ∃ d, v.report = some d ∧ d.recordName? = some name

/-- The role is not that of a record. -/
def Role.isNoRecord : Role → Bool
  | record _ => false
  | _ => true

section Visits

variable {known : List Text} {line : DumpLine} {role : Role}

theorem plain_silent (h : role.isNoRecord) : (Visit.silent role).Plain known := by
  constructor
  · intro d hd
    nomatch hd
  · rintro n name rfl
    nomatch h

theorem plain_reporting {d : Declaration} {role : Nat → Role} (hd : d.PlainAfter known)
    (h : ∀ n, (role n).isNoRecord) : (Visit.reporting d role).Plain known := by
  constructor
  · intro e he
    cases he
    exact hd
  · intro n name hn
    have hro := h n
    rw [show role n = .record name from hn] at hro
    nomatch hro

theorem plain_idle (h : role.isIdle) : (Visit.silent role).Plain known := by
  cases role with
  | ignored | other => exact plain_silent rfl
  | _ => exact absurd h Bool.false_ne_true

variable {ctx : Context} {v : Visit}

/-- Below a record, such a line reports a field or nothing. -/
theorem Visit.OfMember.plain {owner : Text} (h : v.OfMember ctx owner line) (hown : owner ∈ known)
    (hl : line.Classless) : v.Plain known := by
  cases h with
  | silent role h => exact plain_idle h
  | field name type => exact plain_reporting hown fun _ => rfl
  | method name hk => exact absurd (hk ▸ by decide) hl.kind
  | constructor hk => exact absurd (hk ▸ by decide) hl.kind
  | destructor hk => exact absurd (hk ▸ by decide) hl.kind

theorem Visit.OfEnumerator.plain {enumeration : Text} (h : v.OfEnumerator enumeration line) : v.Plain known := by
  cases h with
  | silent => exact plain_silent rfl
  | constant name => exact plain_reporting trivial fun _ => rfl

/-- A record that is not called a class is a structure. -/
theorem Visit.OfTopLevel.plain (h : v.OfTopLevel ctx line) (hl : line.Classless) : v.Plain known := by
  cases h with
  | silent role h => exact plain_idle h
  | block => exact plain_silent rfl
  | member hki => exact absurd hki hl.kind
  | @record keyword name h =>
    have hstr : keyword = "struct" := by
      rcases DumpLine.keyword_of_record? h.record with hk | hk | hk
      · exact absurd hk (hl.keyword h.kind _ h.record)
      · exact hk
      · exact absurd hk h.noUnion
    constructor
    · intro d hd
      cases hd
      exact if_pos hstr
    · intro n other hro
      cases hro
      exact ⟨_, rfl, rfl⟩
  | known h =>
    constructor
    · intro d hd
      cases hd
    · intro n other hro
      cases hro
  | function | global | enumeration => exact plain_reporting trivial fun _ => rfl

end Visits

/-! ## Lines -/

namespace Reader

/-- The reports leave records plain, and every open record was reported. -/
structure Plain (r : Reader) : Prop where
  reports : PlainFrom [] r.reports
  records : ∀ f ∈ r.stack, ∀ name, f.role = .record name → name ∈ recordNames r.reports

variable {r : Reader} {line : DumpLine}

theorem Plain.edit (h : r.Plain) (i : Nat) {f : Declaration → Declaration} (hf : KeepsPlain f) : (r.edit i f).Plain := by
  constructor
  · exact hf.plainFrom_modify h.reports i
  · intro g hg name hn
    rw [Reader.edit, hf.recordNames_modify]
    exact h.records g hg name hn

theorem Plain.nested (h : r.Plain) (line : DumpLine) : (r.nested line).Plain := by
  unfold Reader.nested
  split
  · exact h.edit _ (keepsPlain_editCallable _)
  · exact h.edit _ (keepsPlain_addValue _)
  · exact h

theorem Plain.take (h : r.Plain) {v : Visit} (hv : v.Plain (recordNames r.reports)) :
    (r.take v).1.Plain ∧ ∀ name, (r.take v).2 = .record name → name ∈ recordNames (r.take v).1.reports := by
  have hns : recordNames (r.take v).1.reports = recordNames r.reports ++ recordNames v.report.toList :=
    List.filterMap_append
  refine ⟨⟨Declaration.plainFrom_append.2 ⟨h.reports, ?_⟩, ?_⟩, ?_⟩
  · cases hrep : v.report with
    | none => trivial
    | some d => exact ⟨hv.report d hrep, trivial⟩
  · intro f hf name hn
    rw [hns]
    exact List.mem_append_left _ (h.records f hf name hn)
  · intro name hro
    obtain ⟨d, hd, hn⟩ := hv.record _ name hro
    rw [hns, hd]
    simp [recordNames, hn]

/-- One line below a node of the given role, where an open record was reported. -/
theorem Plain.visitBelow (h : r.Plain) {parent : Role}
    (hpar : ∀ name, parent = .record name → name ∈ recordNames r.reports) (hl : line.Classless) :
    (r.visitBelow parent line).1.Plain ∧
      ∀ name, (r.visitBelow parent line).2 = .record name → name ∈ recordNames (r.visitBelow parent line).1.reports := by
  cases parent with
  | topLevel => exact h.take ((ofTopLevel_visitTopLevel _ _).plain hl)
  | ignored => exact ⟨h, fun name hro => nomatch hro⟩
  | record name => exact h.take ((ofMember_visitMember _ _ _).plain (hpar name rfl) hl)
  | enumeration name => exact h.take (ofEnumerator_visitEnumerator _ _).plain
  | constant i => exact ⟨h.edit i (keepsPlain_addValue _), fun name hro => nomatch hro⟩
  | callable i => exact ⟨h.edit i (keepsPlain_editCallable _), fun name hro => nomatch hro⟩
  | other => exact ⟨h.nested line, fun name hro => nomatch hro⟩

theorem stack_visitBelow (parent : Role) : (r.visitBelow parent line).1.stack = r.stack := by
  cases parent with
  | other =>
    simp only [Reader.visitBelow, Reader.nested]
    split <;> rfl
  | _ => rfl

theorem mem_of_parentRole {stack : List Frame} {depth : Nat} {name : Text} (h : parentRole stack depth = .record name) :
    ∃ f ∈ stack, f.role = .record name := by
  unfold parentRole at h
  split at h
  · split at h <;> nomatch h
  next f rest =>
    split at h
    · exact ⟨f, List.mem_cons_self, h⟩
    · nomatch h

/-- A node is opened below the open ones; the root closes them all. -/
theorem Plain.opened (h : r.Plain) (role : Role) (hro : ∀ name, role = .record name → name ∈ recordNames r.reports)
    (depth : Nat) : Plain { r with stack := if depth = 0 then [] else { depth, role } :: r.stack } := by
  refine ⟨h.reports, fun f hf name hn => ?_⟩
  split at hf
  · nomatch hf
  · rcases List.mem_cons.1 hf with rfl | hf
    · exact hro name hn
    · exact h.records f hf name hn

theorem Plain.visit (h : r.Plain) (hl : line.Classless) : (r.visit line).Plain := by
  have hat : Plain { r with
      stack := r.stack.dropWhile fun f => line.depth ≤ f.depth
      context := { r.context with file := line.files.getLast?.or r.context.file } } :=
    ⟨h.reports, fun f hf => h.records f ((List.dropWhile_suffix _).subset hf)⟩
  unfold Reader.visit
  dsimp only
  split
  · exact hat.opened .ignored (fun name hn => nomatch hn) line.depth
  · have hpar : ∀ name, parentRole (r.stack.dropWhile fun f => line.depth ≤ f.depth) line.depth = .record name →
        name ∈ recordNames r.reports := by
      intro name hn
      obtain ⟨f, hf, hro⟩ := mem_of_parentRole hn
      exact hat.records f hf name hro
    obtain ⟨hbelow, hro⟩ := hat.visitBelow hpar hl
    have hnx := hbelow.opened _ hro line.depth
    rwa [stack_visitBelow] at hnx

theorem Plain.foldl_visit (h : r.Plain) {lines : List DumpLine} (hlines : ∀ line ∈ lines, line.Classless) :
    (lines.foldl Reader.visit r).Plain :=
  List.foldlRecOn lines Reader.visit h fun _ hr line hl => hr.visit (hlines line hl)

end Reader

/-! ## Dumps -/

/-- No line of the dump is a member function, and no record in it is called a class. -/
def Classless (dump : Text) : Prop :=
  ∀ line ∈ readLines dump, line.Classless

instance (dump : Text) : Decidable (Classless dump) :=
  inferInstanceAs (Decidable (∀ line ∈ readLines dump, line.Classless))

theorem plainFrom_declarations {dump : Text} (h : Classless dump) (origins : Option (List Path)) :
    PlainFrom [] (declarations origins dump) := by
  have hst : Reader.Plain { context := { origins := origins.map (·.filterMap Path.fileName?) } } :=
    ⟨trivial, fun f hf => nomatch hf⟩
  exact (hst.foldl_visit h).reports

/-- The program of some dumps, each with the files to which it is restricted. -/
def programOf (dumps : List (Option (List Path) × Text)) : Program :=
  Program.absorbAll {} (dumps.flatMap fun dump => declarations dump.1 dump.2)

/-- The program of dumps without classes has none when finished, and it is finished just when no two functions get one C name. -/
theorem finish_of_classless (dumps : List (Option (List Path) × Text)) (h : ∀ dump ∈ dumps, Classless dump.2) :
    (∀ q, (programOf dumps).finish = .ok q → q.classes = []) ∧
      ((∃ q, (programOf dumps).finish = .ok q) ↔ ((programOf dumps).named.signatures.map Callable.cName).Nodup) ∧
      ((∀ a b, .function a ∈ dumps.flatMap (fun dump => declarations dump.1 dump.2) →
          .function b ∈ dumps.flatMap (fun dump => declarations dump.1 dump.2) → a.name = b.name →
          a.identity = b.identity) →
        ∃ q, (programOf dumps).finish = .ok q) := by
  have hempty : Program.AllPlain {} := fun c hc => nomatch hc
  have hplain : (programOf dumps).AllPlain := by
    rw [programOf, List.flatMap]
    refine hempty.absorbAll_flatten fun ds hds => ?_
    obtain ⟨dump, hdump, rfl⟩ := List.mem_map.mp hds
    exact plainFrom_declarations (h dump hdump) dump.1
  refine ⟨fun q => hplain.classes_finish, hplain.finish_isOk_iff, fun hsame => ?_⟩
  exact hplain.finish_isOk_iff.mpr (Program.nodup_cNames_of_same hsame)

/-- A structure, its field, and a function that takes it. -/
def pointDump : Text :=
  "TranslationUnitDecl 0x1\n|-RecordDecl 0x2 <p.c:1:1> col:8 struct Point definition\n" ++
    "| `-FieldDecl 0x3 <col:16> col:20 x 'int'\n`-FunctionDecl 0x4 <line:2:1> line:2:5 shift 'int (struct Point *)'\n"

/-- The dump twice, the second time restricted to its file. -/
def pointDumps : List (Option (List Path) × Text) :=
  [(none, pointDump), (some ["p.c"], pointDump)]

theorem finish_of_classless_pointDumps :
    (∀ dump ∈ pointDumps, Classless dump.2) ∧ ∃ q, (programOf pointDumps).finish = .ok q ∧ q.classes = [] := by
  have hdumps : ∀ dump ∈ pointDumps, Classless dump.2 := by decide +kernel
  obtain ⟨hclasses, hfinish, -⟩ := finish_of_classless pointDumps hdumps
  obtain ⟨q, hq⟩ := hfinish.mpr (by decide +kernel)
  exact ⟨hdumps, q, hq, hclasses q hq⟩

/-- Two functions of one name that take whole numbers. -/
def overloadedDump : Text :=
  "TranslationUnitDecl 0x1\n|-FunctionDecl 0x2 <f.c:1:1> col:6 f 'void (int)'\n" ++
    "`-FunctionDecl 0x3 <line:2:1> line:2:6 f 'void (short)'\n"

/-- A dump without classes whose program is not finished. -/
theorem finish_error_overloadedDump :
    Classless overloadedDump ∧ (programOf [(none, overloadedDump)]).finish =
      .error { name := "f", cName := "f_i", first := "(int)", second := "(short)" } := by
  decide +kernel

end Dump

end Declass
