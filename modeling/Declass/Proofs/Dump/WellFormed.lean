import Declass.Proofs.Dump.Truncation
import Mathlib.Data.List.Induction
import Mathlib.Data.List.Nodup

/-!
# Well-formed reports

What a report refers to came before it, no name of the toolchain gets through, and the locals of a callable have distinct names.
`Reader.Informed` carries this from line to line. Main statement: `declarations_wellFormed`.
-/

namespace Declass

open List

/-- One of the lines introduces a record called `name`. -/
def Introduced (lines : List DumpLine) (name : Text) : Prop :=
  ∃ line ∈ lines, ∃ keyword, line.Introduces keyword name

/-- The locals of a callable have distinct names. -/
def CallableDecl.DistinctLocals (decl : CallableDecl) : Prop :=
  (decl.locals.map Var.name).Nodup

namespace Declaration

/-- The report is of the program, with a fitting name and distinct locals. -/
def Admitted : Declaration → Prop
  | .record name _ _ => Noise.isIgnoredClass name = false
  | .field owner v => Noise.isIgnoredClass owner = false ∧ Noise.isRegisterField v.name = false
  | .method owner decl =>
    Noise.isIgnoredClass owner = false ∧ Text.startsWith decl.name "operator" = false ∧ decl.DistinctLocals
  | .constructor owner decl => Noise.isIgnoredClass owner = false ∧ decl.name = owner ∧ decl.DistinctLocals
  | .destructor owner => Noise.isIgnoredClass owner = false
  | .enumeration _ _ => True
  | .constant _ _ _ => True
  | .function decl => Noise.isReservedFunction decl.name = false ∧ decl.DistinctLocals
  | .global v _ => Noise.isSystemVariable v.name v.type = false

/-- The report refers to what is among the lines and the reports before it. -/
def Supported (earlier : List DumpLine) (before : List Declaration) : Declaration → Prop
  | .field owner _ => ∃ word origin, .record owner word origin ∈ before
  | .constant owner _ _ => ∃ isScoped, .enumeration owner isScoped ∈ before
  | .method owner _ | .constructor owner _ | .destructor owner => Introduced earlier owner
  | _ => True

end Declaration

variable {lines : List DumpLine} {name : Text}

theorem Introduced.kept (h : Introduced lines name) : Noise.isIgnoredClass name = false := by
  obtain ⟨line, _, keyword, hl⟩ := h
  exact hl.kept

theorem Introduced.concat (h : Introduced lines name) (line : DumpLine) : Introduced (lines ++ [line]) name := by
  obtain ⟨l, hl, hn⟩ := h
  exact ⟨l, mem_append_left _ hl, hn⟩

namespace Dump

variable {short long : List Declaration} {name : Text} {earlier : List DumpLine} {d : Declaration} {decl : CallableDecl}
  {i : Nat}

/-! ## Reports that grow -/

section

variable (h : Extended short long)

include h

/-- A report to which nothing can be added. -/
theorem Extended.mem (hd : ∀ e, d.Approximates e → e = d) (hm : d ∈ short) : d ∈ long := by
  obtain ⟨i, hi⟩ := mem_iff_getElem?.1 hm
  obtain ⟨e, he, happ⟩ := h i _ hi
  exact hd e happ ▸ mem_of_getElem? he

theorem Extended.mem_record {word : RecordKeyword} {origin : Option Path} :
    .record name word origin ∈ short → .record name word origin ∈ long :=
  h.mem (by rintro _ ⟨⟩; rfl)

theorem Extended.mem_enumeration {isScoped : Bool} : .enumeration name isScoped ∈ short → .enumeration name isScoped ∈ long :=
  h.mem (by rintro _ ⟨⟩; rfl)

theorem Extended.take (n : Nat) : Extended (short.take n) (long.take n) := by
  intro i d hd
  rw [getElem?_take] at hd
  split at hd
  next hi =>
    obtain ⟨e, he, hde⟩ := h i d hd
    exact ⟨e, by rw [getElem?_take, if_pos hi, he], hde⟩
  · cases hd

end

/-- What a report refers to stays before it when more is read. -/
theorem supported_of_extended {before after : List Declaration} (h : Extended before after) {e : Declaration}
    (hde : d.Approximates e) (hd : d.Supported earlier before) : e.Supported earlier after := by
  cases hde with
  | same =>
    cases d with
    | field owner v =>
      obtain ⟨word, origin, hm⟩ := hd
      exact ⟨word, origin, h.mem_record hm⟩
    | constant enumeration name value =>
      obtain ⟨isScoped, hm⟩ := hd
      exact ⟨isScoped, h.mem_enumeration hm⟩
    | method | constructor | destructor | record | enumeration | function | global => exact hd
  | method | constructor | function => exact hd
  | constant enumeration name =>
    obtain ⟨isScoped, hm⟩ := hd
    exact ⟨isScoped, h.mem_enumeration hm⟩

/-! ## Parts of a report -/

theorem distinctLocals_addPart (line : DumpLine) (h : decl.DistinctLocals) : (addPart line decl).DistinctLocals := by
  unfold addPart
  split
  · exact h
  split
  · exact h
  · exact h

/-- A local is added only under a new name. -/
theorem distinctLocals_addLocal (line : DumpLine) (h : decl.DistinctLocals) : (addLocal line decl).DistinctLocals := by
  unfold addLocal
  split
  next name type _ _ =>
    split
    next hnew =>
      have hfr : name ∉ decl.locals.map Var.name := by simpa using (Bool.and_eq_true_iff.1 hnew).2
      rw [CallableDecl.DistinctLocals, map_append, map_singleton, ← concat_eq_append]
      exact .concat hfr h
    · exact h
  · exact h

theorem admitted_editCallable {f : CallableDecl → CallableDecl} (hn : ∀ decl, (f decl).name = decl.name)
    (hloc : ∀ decl, decl.DistinctLocals → (f decl).DistinctLocals) (h : d.Admitted) : (editCallable f d).Admitted := by
  cases d with
  | method owner decl =>
    obtain ⟨hown, hoperator, hdist⟩ := h
    exact ⟨hown, (hn decl).symm ▸ hoperator, hloc decl hdist⟩
  | constructor owner decl =>
    obtain ⟨hown, hdecl, hdist⟩ := h
    exact ⟨hown, (hn decl).trans hdecl, hloc decl hdist⟩
  | function decl =>
    obtain ⟨hreserved, hdist⟩ := h
    exact ⟨(hn decl).symm ▸ hreserved, hloc decl hdist⟩
  | record | field | destructor | enumeration | constant | global => exact h

theorem admitted_addTo (part : Part) (h : d.Admitted) : (part.addTo d).Admitted := by
  cases part with
  | member line =>
    exact admitted_editCallable (fun decl => (approximates_addPart decl).name.symm)
      (fun _ => distinctLocals_addPart line) h
  | nested line =>
    exact admitted_editCallable (fun decl => (approximates_addLocal decl).name.symm)
      (fun _ => distinctLocals_addLocal line) h
  | value direct line =>
    cases d with
    | constant enumeration name value => trivial
    | _ => exact h

theorem admitted_addAll (parts : List Part) (h : d.Admitted) : (Part.addAll parts d).Admitted := by
  induction parts generalizing d with
  | nil => exact h
  | cons part parts ih => exact ih (admitted_addTo part h)

/-! ## What one line reports -/

/-- The reader's records and enumerations come from `lines` and reports so far. -/
structure Reader.Informed (lines : List DumpLine) (r : Reader) : Prop where
  records : ∀ a name, (a, name) ∈ r.context.records →
    ∃ line ∈ lines, line.address = some a ∧ ∃ keyword, line.Introduces keyword name
  record : ∀ f ∈ r.stack, ∀ name, f.role.standing = .record name →
    Introduced lines name ∧ ∃ word origin, .record name word origin ∈ r.reports
  enumeration : ∀ f ∈ r.stack, ∀ name, f.role.standing = .enumeration name →
    ∃ isScoped, .enumeration name isScoped ∈ r.reports

/-- The node has the name of a record or of an enumeration. -/
def Standing.isNamed : Standing → Bool
  | record _ | enumeration _ => true
  | _ => false

/-- What a line does is founded on the lines and reports before it. -/
structure Reading.Founded (lines : List DumpLine) (reports : List Declaration) (line : DumpLine) (own : Reading) : Prop
    where
  report : ∀ d, own.report = some d → d.Admitted ∧ d.Supported lines reports
  record : ∀ name, own.standing = .record name →
    (∃ keyword, line.Introduces keyword name) ∧ ∃ word origin, own.report = some (.record name word origin)
  enumeration : ∀ name, own.standing = .enumeration name → ∃ isScoped, own.report = some (.enumeration name isScoped)
  address : ∀ a name, own.address = some (a, name) →
    line.address = some a ∧ ∃ keyword, line.Introduces keyword name

section Visits

variable {lines : List DumpLine} {reports : List Declaration} {line : DumpLine} {ctx : Context} {v : Visit} {role : Role}

/-- A line that opens neither a record nor an enumeration. -/
theorem founded_plain {own : Reading} (hrep : ∀ d, own.report = some d → d.Admitted ∧ d.Supported lines reports)
    (hpl : own.standing.isNamed = false) (haddr : own.address = none) : own.Founded lines reports line := by
  refine ⟨hrep, ?_, ?_, ?_⟩
  · intro name h
    rw [h] at hpl
    cases hpl
  · intro name h
    rw [h] at hpl
    cases hpl
  · intro a name h
    rw [haddr] at h
    cases h

theorem founded_silent (h : role.standing.isNamed = false) : (Reading.ofVisit (.silent role)).Founded lines reports line := by
  refine founded_plain ?_ h rfl
  intro d hd
  cases hd

theorem founded_idle (h : role.isIdle) : (Reading.ofVisit (.silent role)).Founded lines reports line := by
  refine founded_silent ?_
  cases role with
  | ignored => rfl
  | other => rfl
  | _ => exact absurd h Bool.false_ne_true

/-- A report of a line that is neither a record nor an enumeration. -/
theorem founded_reporting {d : Declaration} {role : Nat → Role} (hd : d.Admitted ∧ d.Supported lines reports)
    (hpl : (role 0).standing.isNamed = false) : (Reading.ofVisit (.reporting d role)).Founded lines reports line := by
  refine founded_plain ?_ hpl rfl
  intro e he
  cases he
  exact hd

theorem distinctLocals_callableDecl : (callableDecl ctx line name).DistinctLocals :=
  nodup_nil

theorem Visit.OfMember.founded {owner : Text} (h : v.OfMember ctx owner line) (hown : Introduced lines owner)
    (hfld : line.kind = "FieldDecl" → ∃ word origin, .record owner word origin ∈ reports) :
    (Reading.ofVisit v).Founded lines reports line := by
  cases h with
  | silent role h => exact founded_idle h
  | field name type hki _ _ hk =>
    exact founded_reporting ⟨⟨hown.kept, hk⟩, hfld hki⟩ rfl
  | method name _ _ hk =>
    exact founded_reporting ⟨⟨hown.kept, hk, distinctLocals_callableDecl⟩, hown⟩ rfl
  | constructor =>
    exact founded_reporting ⟨⟨hown.kept, rfl, distinctLocals_callableDecl⟩, hown⟩ rfl
  | destructor =>
    exact founded_reporting ⟨hown.kept, hown⟩ rfl

theorem Visit.OfEnumerator.founded {enumeration : Text} (h : v.OfEnumerator enumeration line)
    (hrep : ∃ isScoped, .enumeration enumeration isScoped ∈ reports) : (Reading.ofVisit v).Founded lines reports line := by
  cases h with
  | silent => exact founded_idle rfl
  | constant name =>
    exact founded_reporting ⟨trivial, hrep⟩ rfl

theorem Visit.OfTopLevel.founded (h : v.OfTopLevel ctx line) (hrecs : ∀ a name, (a, name) ∈ ctx.records →
      ∃ line ∈ lines, line.address = some a ∧ ∃ keyword, line.Introduces keyword name) :
    (Reading.ofVisit v).Founded lines reports line := by
  cases h with
  | silent role h => exact founded_idle h
  | block => exact founded_silent rfl
  | @member a owner v hki _ hown h =>
    obtain ⟨l, hl, _, hn⟩ := hrecs a owner hown
    exact h.founded ⟨l, hl, hn⟩ fun hfld => absurd hfld (kind_ne_field hki)
  | @record keyword name h =>
    refine ⟨?_, ?_, ?_, ?_⟩
    · intro d hd
      cases hd
      exact ⟨h.kept, trivial⟩
    · intro other hoth
      cases hoth
      exact ⟨⟨keyword, h⟩, _, _, rfl⟩
    · intro other hoth
      cases hoth
    · intro a other ha
      obtain ⟨haddr, rfl⟩ := address_of_map ha
      exact ⟨haddr, keyword, h⟩
  | @known keyword name h =>
    refine ⟨?_, ?_, ?_, ?_⟩
    · intro d hd
      cases hd
    · intro other hoth
      cases hoth
    · intro other hoth
      cases hoth
    · intro a other ha
      obtain ⟨haddr, rfl⟩ := address_of_map ha
      exact ⟨haddr, keyword, h⟩
  | function name _ hk =>
    exact founded_reporting ⟨⟨hk, distinctLocals_callableDecl⟩, trivial⟩ rfl
  | global name type _ _ _ hk =>
    exact founded_reporting ⟨hk, trivial⟩ rfl
  | enumeration name isScoped =>
    refine ⟨?_, ?_, ?_, ?_⟩
    · intro d hd
      cases hd
      exact ⟨trivial, trivial⟩
    · intro other hoth
      cases hoth
    · intro other hoth
      cases hoth
      exact ⟨isScoped, rfl⟩
    · intro a other ha
      cases ha

end Visits

/-! ## Lines -/

/-- A parent other than the root is an open node. -/
theorem exists_frame_of_head? {path : List Frame} {depth : Nat} {s : Standing}
    (h : (ancestorsAt (path.map Frame.node) depth).head? = some s) (hnd : s.isNamed) : ∃ f ∈ path, f.role.standing = s := by
  have htop : s ≠ .topLevel := by
    rintro rfl
    cases hnd
  have hoth : s ≠ .other := by
    rintro rfl
    cases hnd
  obtain ⟨n, hn, hs⟩ := (mem_ancestorsAt htop hoth).1 (mem_of_head? h)
  obtain ⟨f, hf, rfl⟩ := mem_map.1 hn
  exact ⟨f, hf, hs⟩

namespace Reader

variable {lines : List DumpLine} {r : Reader} {line : DumpLine} {f : Frame}

theorem mem_stack_of_mem_pathTo (h : f ∈ r.pathTo line) : f ∈ r.stack :=
  (dropWhile_suffix _).subset h

theorem Informed.founded (h : r.Informed lines) (line : DumpLine) : (r.reading line).Founded lines r.reports line := by
  rcases ofNode_cases (ancestorsAt ((r.pathTo line).map Frame.node) line.depth) (r.context.enter line) line with
    hown | ⟨part, hown⟩ | ⟨_, hown⟩ | ⟨name, hpar, hown⟩ | ⟨name, hpar, hown⟩
  · rw [reading, hown]
    exact founded_plain (by simp) rfl rfl
  · rw [reading, hown]
    exact founded_plain (by simp) rfl rfl
  · rw [reading, hown]
    exact (ofTopLevel_visitTopLevel _ _).founded h.records
  · obtain ⟨f, hf, hn⟩ := exists_frame_of_head? hpar rfl
    obtain ⟨hintro, hrep⟩ := h.record f (mem_stack_of_mem_pathTo hf) name hn
    rw [reading, hown]
    exact (ofMember_visitMember _ _ _).founded hintro fun _ => hrep
  · obtain ⟨f, hf, hn⟩ := exists_frame_of_head? hpar rfl
    rw [reading, hown]
    exact (ofEnumerator_visitEnumerator _ _).founded (h.enumeration f (mem_stack_of_mem_pathTo hf) name hn)

/-- An open node after a line is that of the line, or it was open before. -/
theorem mem_stack_visit (h : f ∈ (r.visit line).stack) : f.role.standing = (r.reading line).standing ∨ f ∈ r.stack := by
  obtain ⟨role, hm, hv⟩ := r.visit_eq line
  rw [hv] at h
  split at h
  · cases h
  · rcases mem_cons.1 h with rfl | h
    · exact .inl hm.standing
    · exact .inr (mem_stack_of_mem_pathTo h)

theorem mem_reports_visit {d : Declaration} (h : (r.reading line).report = some d) : d ∈ (r.visit line).reports := by
  rw [r.reports_visit line, h]
  exact mem_append_right _ mem_cons_self

theorem Informed.visit (h : r.Informed lines) (line : DumpLine) : (r.visit line).Informed (lines ++ [line]) := by
  have hown := h.founded line
  refine ⟨?_, ?_, ?_⟩
  · intro a name hm
    rw [r.context_visit line] at hm
    rcases mem_append.1 hm with hm | hm
    · obtain ⟨haddr, hn⟩ := hown.address a name (Option.mem_toList.1 hm)
      exact ⟨line, by simp, haddr, hn⟩
    · obtain ⟨l, hl, hn⟩ := h.records a name hm
      exact ⟨l, mem_append_left _ hl, hn⟩
  · intro f hf name hn
    rcases mem_stack_visit hf with hs | hf
    · obtain ⟨hintroduces, word, origin, hrep⟩ := hown.record name (hs.symm.trans hn)
      exact ⟨⟨line, by simp, hintroduces⟩, word, origin, mem_reports_visit hrep⟩
    · obtain ⟨hintro, word, origin, hm⟩ := h.record f hf name hn
      exact ⟨hintro.concat line, word, origin, (extended_visit r line).mem_record hm⟩
  · intro f hf name hn
    rcases mem_stack_visit hf with hs | hf
    · obtain ⟨isScoped, hrep⟩ := hown.enumeration name (hs.symm.trans hn)
      exact ⟨isScoped, mem_reports_visit hrep⟩
    · obtain ⟨isScoped, hm⟩ := h.enumeration f hf name hn
      exact ⟨isScoped, (extended_visit r line).mem_enumeration hm⟩

theorem informed_ofLines (origins : Option (List Path)) (lines : List DumpLine) : (ofLines origins lines).Informed lines := by
  induction lines using reverseRecOn with
  | nil => exact ⟨by simp [ofLines, start], by simp [ofLines, start], by simp [ofLines, start]⟩
  | append_singleton lines line ih =>
    rw [ofLines_concat]
    exact ih.visit line

end Reader

/-! ## Dumps -/

/-- The declaration at position `i` is reported by the line after `earlier`. -/
structure ReportedAfter (origins : Option (List Path)) (lines earlier : List DumpLine) (i : Nat) : Prop where
  line : ∃ line later, lines = earlier ++ line :: later ∧
    (Reader.ofLines origins (earlier ++ [line])).reports.length = i + 1
  before : (Reader.ofLines origins earlier).reports.length = i

theorem ReportedAfter.concat {origins : Option (List Path)} {lines : List DumpLine}
    (h : ReportedAfter origins lines earlier i) (last : DumpLine) : ReportedAfter origins (lines ++ [last]) earlier i := by
  obtain ⟨line, later, rfl, hlen⟩ := h.line
  exact ⟨⟨line, later ++ [last], by simp, hlen⟩, h.before⟩

/-- Each report is admitted, and what it refers to came before. -/
theorem wellFormed_ofLines (origins : Option (List Path))
    (h : (Reader.ofLines origins lines).reports[i]? = some d) : d.Admitted ∧ ∃ earlier, ReportedAfter origins lines earlier i ∧
      d.Supported earlier ((Reader.ofLines origins lines).reports.take i) := by
  induction lines using reverseRecOn generalizing d with
  | nil => simp [Reader.ofLines, Reader.start] at h
  | append_singleton lines line ih =>
    have hlat := extended_visit (.ofLines origins lines) line
    rw [Reader.ofLines_concat] at h ⊢
    rcases Reader.getElem?_visit h with ⟨e, he, hd⟩ | ⟨rfl, hrep⟩
    · obtain ⟨hadm, earlier, hreported, hsupp⟩ := ih he
      have happ : e.Approximates d := by
        rcases hd with rfl | rfl
        · exact .same d
        · exact approximates_addAll _ e
      refine ⟨?_, earlier, hreported.concat line, supported_of_extended (hlat.take i) happ hsupp⟩
      rcases hd with rfl | rfl
      · exact hadm
      · exact admitted_addAll _ hadm
    · obtain ⟨hadm, hsupp⟩ := ((Reader.informed_ofLines origins lines).founded line).report d hrep
      refine ⟨hadm, lines, ⟨⟨line, [], rfl, ?_⟩, rfl⟩, ?_⟩
      · rw [Reader.ofLines_concat, Reader.reports_visit, hrep]
        simp [length_addAt]
      · have hbef := hlat.take (Reader.ofLines origins lines).reports.length
        rw [take_length] at hbef
        exact supported_of_extended hbef (.same d) hsupp

/-- The reports of any dump are well-formed, restricted or not: each is admitted, one line reports it, and it refers to reports
and lines before it. -/
theorem declarations_wellFormed (origins : Option (List Path)) (dump : Text) (i : Nat) (d : Declaration)
    (h : (declarations origins dump)[i]? = some d) :
    d.Admitted ∧ ∃ earlier, ReportedAfter origins (readLines dump) earlier i ∧
      d.Supported earlier ((declarations origins dump).take i) :=
  wellFormed_ofLines origins h

/-- A record only declared, a member written outside with two locals of one name, an operator, and too deep a line. -/
def strayDump : Text :=
  "|-CXXRecordDecl 0x2 <a.cpp:1:1> class Led\n" ++
    "|-CXXMethodDecl 0x3 parent 0x2 <line:2:1> on 'void ()'\n" ++
    "| `-CompoundStmt 0x4 <col:12>\n" ++
    "|     `-VarDecl 0x5 <col:14> n 'int'\n" ++
    "|   `-VarDecl 0x6 <col:14> n 'char'\n" ++
    "`-CXXMethodDecl 0x7 parent 0x2 <line:3:1> operator+ 'void ()'\n"

theorem declarations_wellFormed_strayDump :
    ∃ d, declarations none strayDump = [d] ∧
      d = .method "Led" { name := "on", rawType := "void ()", locals := [⟨"n", "int"⟩], isDefinition := true,
                          origin := some ⟨"a.cpp"⟩ } ∧
      d.Admitted ∧ ∃ earlier, ReportedAfter none (readLines strayDump) earlier 0 ∧
        d.Supported earlier ((declarations none strayDump).take 0) := by
  have hdump : declarations none strayDump =
      [.method "Led" { name := "on", rawType := "void ()", locals := [⟨"n", "int"⟩], isDefinition := true,
                       origin := some ⟨"a.cpp"⟩ }] := by decide +kernel
  exact ⟨_, hdump, rfl, declarations_wellFormed none strayDump 0 _ (by rw [hdump]; rfl)⟩

end Dump

end Declass
