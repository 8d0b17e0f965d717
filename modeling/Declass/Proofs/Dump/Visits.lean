import Declass.Dump.Reader

/-!
# What a line can declare

The cases of a visit, each with what the line says then: a line at top level, below a record or below an enumeration is
passed over, or it reports one declaration. What a visit preserves is proved case by case.
-/

namespace Declass

/-- The line is a record of the program called `name`, introduced by `keyword`. -/
structure DumpLine.Introduces (line : DumpLine) (keyword name : Text) : Prop where
  kind : line.kind = "CXXRecordDecl" ∨ line.kind = "RecordDecl"
  record : line.record? = some (keyword, some name)
  noUnion : keyword ≠ "union".toList
  kept : Noise.isIgnoredClass name = false

namespace Dump

variable (ctx : Context)

/-- The node gives nothing to the nodes below it. -/
def Role.isIdle : Role → Bool
  | ignored | other => true
  | _ => false

/-- Visits of a line below the record `owner`, or of a member written elsewhere. -/
inductive Visit.OfMember (ctx : Context) (owner : Text) (line : DumpLine) : Visit → Prop
  | silent (role : Role) (h : role.isIdle = true) : OfMember ctx owner line (.silent role)
  | field (name type : Text) (hkind : line.kind = "FieldDecl") (hname : line.name? = some name)
      (htype : line.type = some type) (hkept : Noise.isRegisterField name = false) :
      OfMember ctx owner line (.reporting (.field owner { name, type }) fun _ => .other)
  | method (name : Text) (hkind : line.kind = "CXXMethodDecl") (hname : line.name? = some name)
      (hkept : Text.startsWith name "operator" = false) :
      OfMember ctx owner line (.reporting (.method owner (callableDecl ctx line name)) .callable)
  | constructor (hkind : line.kind = "CXXConstructorDecl") :
      OfMember ctx owner line (.reporting (.constructor owner (callableDecl ctx line owner)) .callable)
  | destructor (hkind : line.kind = "CXXDestructorDecl") :
      OfMember ctx owner line (.reporting (.destructor owner) fun _ => .ignored)

/-- Visits of a line below an enumeration. -/
inductive Visit.OfEnumerator (enumeration : Text) (line : DumpLine) : Visit → Prop
  | silent : OfEnumerator enumeration line (.silent .other)
  | constant (name : Text) (hname : line.name? = some name) :
      OfEnumerator enumeration line (.reporting (.constant enumeration name none) .constant)

/-- Visits of a line at top level. -/
inductive Visit.OfTopLevel (ctx : Context) (line : DumpLine) : Visit → Prop
  | silent (role : Role) (h : role.isIdle = true) : OfTopLevel ctx line (.silent role)
  | block (hkind : line.kind = "LinkageSpecDecl" ∨ line.kind = "NamespaceDecl") : OfTopLevel ctx line (.silent .topLevel)
  | member {a owner : Text} {v : Visit} (hkind : line.kind ∈ memberKinds) (hparent : line.parent = some a)
      (howner : (a, owner) ∈ ctx.records) (h : v.OfMember ctx owner line) : OfTopLevel ctx line v
  | record {keyword name : Text} (h : line.Introduces keyword name) :
      OfTopLevel ctx line
        { role := fun _ => .record name
          report := some (.record name (if keyword = "struct" then .structWord else .classWord) ctx.origin)
          address := line.address.map fun a => (a, name) }
  | known {keyword name : Text} (h : line.Introduces keyword name) :
      OfTopLevel ctx line { role := fun _ => .other, address := line.address.map fun a => (a, name) }
  | function (name : Text) (hname : line.name? = some name) (hkept : Noise.isReservedFunction name = false) :
      OfTopLevel ctx line (.reporting (.function (callableDecl ctx line name)) .callable)
  | global (name type : Text) (hasInit : Bool) (hname : line.name? = some name) (htype : line.type = some type)
      (hkept : Noise.isSystemVariable name type = false) :
      OfTopLevel ctx line (.reporting (.global { name, type } hasInit) fun _ => .other)
  | enumeration (name : Text) (isScoped : Bool)
      (h : (visitEnumeration line).report = some (.enumeration name isScoped)) :
      OfTopLevel ctx line (.reporting (.enumeration name isScoped) fun _ => .enumeration name)

theorem ofMember_visitMember (owner : Text) (line : DumpLine) : (visitMember ctx owner line).OfMember ctx owner line := by
  unfold visitMember
  split
  · exact .silent _ rfl
  split
  next hki =>
    split
    next name type hn hty =>
      split
      · exact .silent _ rfl
      next hk => exact .field name type hki hn hty (Bool.eq_false_iff.2 hk)
    · exact .silent _ rfl
  split
  next hki =>
    split
    next name hn =>
      split
      · exact .silent _ rfl
      next hk => exact .method name hki hn (Bool.eq_false_iff.2 hk)
    · exact .silent _ rfl
  split
  next hki => exact .constructor hki
  split
  next hki => exact .destructor hki
  split
  · exact .silent _ rfl
  · exact .silent _ rfl

theorem ofEnumerator_visitEnumerator (enumeration : Text) (line : DumpLine) :
    (visitEnumerator enumeration line).OfEnumerator enumeration line := by
  unfold visitEnumerator
  split
  · split
    next name hn => exact .constant name hn
    · exact .silent
  · exact .silent

theorem ofTopLevel_visitRecord (line : DumpLine)
    (hki : line.kind = "CXXRecordDecl" ∨ line.kind = "RecordDecl") : (visitRecord ctx line).OfTopLevel ctx line := by
  unfold visitRecord
  split
  · exact .silent _ rfl
  · exact .silent _ rfl
  next keyword name hrec =>
    split
    · exact .silent _ rfl
    next hk =>
      rw [Bool.or_eq_true, decide_eq_true_eq, not_or] at hk
      have hn : line.Introduces keyword name := ⟨hki, hrec, hk.1, Bool.eq_false_iff.2 hk.2⟩
      split
      · exact .record hn
      · exact .known hn

theorem ofTopLevel_visitFunction (line : DumpLine) : (visitFunction ctx line).OfTopLevel ctx line := by
  unfold visitFunction
  split
  next name hn =>
    split
    · exact .silent _ rfl
    next hk => exact .function name hn (Bool.eq_false_iff.2 hk)
  · exact .silent _ rfl

theorem ofTopLevel_visitGlobal (line : DumpLine) : (visitGlobal line).OfTopLevel ctx line := by
  unfold visitGlobal
  split
  next name type hn hty =>
    split
    · exact .silent _ rfl
    next hk =>
      rw [Bool.or_eq_true, not_or] at hk
      exact .global name type _ hn hty (Bool.eq_false_iff.2 hk.1)
  · exact .silent _ rfl

theorem ofTopLevel_visitEnumeration (line : DumpLine) : (visitEnumeration line).OfTopLevel ctx line := by
  have hs := @Visit.OfTopLevel.enumeration ctx line
  unfold visitEnumeration at hs ⊢
  dsimp only at hs ⊢
  split
  next name hn =>
    rw [hn] at hs
    exact hs name _ rfl
  · exact .silent _ rfl

variable {line : DumpLine} {name a : Text}

/-- The address that the line of a record gives to its name. -/
theorem address_of_map {other : Text} (h : (line.address.map fun a => (a, name)) = some (a, other)) :
    line.address = some a ∧ name = other := by
  obtain ⟨b, hb, he⟩ := Option.map_eq_some_iff.1 h
  obtain ⟨rfl, rfl⟩ := Prod.mk.inj he
  exact ⟨hb, rfl⟩

/-- A field is not written outside its record. -/
theorem kind_ne_field (h : line.kind ∈ memberKinds) : line.kind ≠ "FieldDecl".toList := by
  intro hfld
  rw [hfld] at h
  exact absurd h (by decide)

theorem mem_records_of_lookup {ctx : Context} (h : ctx.records.lookup a = some name) : (a, name) ∈ ctx.records := by
  obtain ⟨before, rest, hspl, _⟩ := List.lookup_eq_some_iff.1 h
  rw [hspl]
  exact List.mem_append_right _ List.mem_cons_self

/-- Every visit at top level is one of these. -/
theorem ofTopLevel_visitTopLevel (line : DumpLine) : (visitTopLevel ctx line).OfTopLevel ctx line := by
  unfold visitTopLevel
  split
  · exact .silent _ rfl
  split
  next hk => exact .block (.inl hk)
  split
  next hk =>
    split
    · exact .silent _ rfl
    · exact .block (.inr hk)
  split
  next hk =>
    split
    next owner hown =>
      obtain ⟨a, hpar, hlook⟩ := Option.bind_eq_some_iff.1 hown
      exact .member (List.contains_iff_mem.1 hk) hpar (mem_records_of_lookup hlook)
        (ofMember_visitMember ctx owner line)
    · exact .silent _ rfl
  split
  · exact .silent _ rfl
  split
  · exact .silent _ rfl
  split
  next hk =>
    rw [Bool.or_eq_true, decide_eq_true_eq, decide_eq_true_eq] at hk
    exact ofTopLevel_visitRecord ctx line hk
  split
  · exact ofTopLevel_visitFunction ctx line
  split
  · exact ofTopLevel_visitGlobal ctx line
  split
  · exact ofTopLevel_visitEnumeration ctx line
  · exact .silent _ rfl

end Dump

end Declass
