import Declass.Proofs.Dump.Simulation

/-!
# Attribution of declarations

What a report says of other nodes of the tree is true of them: owners stand above, or have the address that is named; parameters,
locals and values stand below. Main statement: reading a dump is reading its tree (`declarations_eq_tree`).
-/

namespace Declass

open List
open Option (mem_def mem_some mem_toList)

namespace Dump

/-- A node in its tree: labels of its ancestors, its own, and the nodes below it. -/
structure Site where
  above : List Text
  label : Text
  below : Forest

namespace Site

/-- The parts of the line that shows the node. -/
def line (s : Site) : DumpLine :=
  labelLine s.label

end Site

namespace Forest

/-- The labels of the topmost nodes. -/
def tops : Forest → List Text
  | .empty => []
  | .node label _ after => label :: after.tops

/-- The sites of sibling nodes with the ancestors `above`. -/
inductive Holds : List Text → Forest → Site → Prop
  | here (above : List Text) (label : Text) (below after : Forest) :
      Holds above (.node label below after) ⟨above, label, below⟩
  | inside {above : List Text} {label : Text} {below : Forest} {s : Site} (after : Forest)
      (h : Holds (label :: above) below s) : Holds above (.node label below after) s
  | later {above : List Text} {after : Forest} {s : Site} (label : Text) (below : Forest) (h : Holds above after s) :
      Holds above (.node label below after) s

end Forest

/-! ## What a report may say -/

/-- The label is that of a record called `name`. -/
def NamesRecord (label name : Text) : Prop :=
  ∃ word, (labelLine label).record? = some (word, some name)

/-- The label is that of an enumeration called `name`. -/
def NamesEnumeration (label name : Text) : Prop :=
  ∃ isScoped, (visitEnumeration (labelLine label)).report = some (.enumeration name isScoped)

/-- One of the labels is that of a record called `name` at the address. -/
def HasAddress (labels : List Text) (address name : Text) : Prop :=
  ∃ l ∈ labels, (labelLine l).address = some address ∧ NamesRecord l name

namespace Site

/-- The parent of the node is a record called `name`. -/
def InRecord (s : Site) (name : Text) : Prop :=
  ∃ parent ∈ s.above.head?, NamesRecord parent name

/-- The node is a member of `owner`: it stands there, or names its address. -/
def OwnedBy (labels : List Text) (s : Site) (owner : Text) : Prop :=
  s.InRecord owner ∨ ∃ address ∈ s.line.parent, HasAddress labels address owner

end Site

namespace Forest

/-- Parameters and body stand directly below a callable, locals anywhere below. -/
structure Collected (below : Forest) (decl : CallableDecl) : Prop where
  params : ∀ q ∈ decl.params, ∃ l ∈ below.tops, (labelLine l).kind = "ParmVarDecl" ∧
    q = { name := (labelLine l).name?, type := (labelLine l).type.getD [] }
  locals : ∀ v ∈ decl.locals, ∃ l ∈ below.labels, (labelLine l).kind = "VarDecl" ∧
    (labelLine l).name? = some v.name ∧ (labelLine l).type = some v.type
  body : decl.isDefinition = true → ∃ l ∈ below.tops, (labelLine l).kind = "CompoundStmt"

end Forest

/-- The report says what is true of the node in a tree with these `labels`. -/
def Attributed (labels : List Text) (s : Site) : Declaration → Prop
  | .record name _ _ => NamesRecord s.label name
  | .field owner v => s.InRecord owner ∧ s.line.name? = some v.name ∧ s.line.type = some v.type
  | .method owner decl => s.OwnedBy labels owner ∧ s.line.name? = some decl.name ∧ s.below.Collected decl
  | .constructor owner decl => s.OwnedBy labels owner ∧ decl.name = owner ∧ s.below.Collected decl
  | .destructor owner => s.OwnedBy labels owner
  | .enumeration name _ => NamesEnumeration s.label name
  | .constant enumeration name value =>
    (∃ parent ∈ s.above.head?, NamesEnumeration parent enumeration) ∧ s.line.name? = some name ∧
      ∀ n ∈ value, ∃ l ∈ s.below.labels, ∃ direct, valueOf? direct (labelLine l) = some n
  | .function decl => s.line.name? = some decl.name ∧ s.below.Collected decl
  | .global v _ => s.line.name? = some v.name ∧ s.line.type = some v.type

/-! ## What one node does -/

/-- The role is neither that of a record nor that of an enumeration. -/
def Role.isNameless : Role → Bool
  | record _ | enumeration _ => false
  | _ => true

/-- A visit is true to its node: its report, the names it gives, and its address. -/
structure Visit.Honest (labels : List Text) (s : Site) (v : Visit) : Prop where
  report : ∀ d ∈ v.report, Attributed labels s d
  record : ∀ n name, v.role n = .record name → NamesRecord s.label name
  enumeration : ∀ n name, v.role n = .enumeration name → NamesEnumeration s.label name
  address : ∀ a name, v.address = some (a, name) → s.line.address = some a ∧ NamesRecord s.label name

section Visits

variable {labels : List Text} {s : Site} {role : Role}

theorem honest_silent (h : role.isNameless) : (Visit.silent role).Honest labels s := by
  refine ⟨by simp [Visit.silent], ?_, ?_, by simp [Visit.silent]⟩
  · rintro _ name rfl
    exact absurd h Bool.false_ne_true
  · rintro _ name rfl
    exact absurd h Bool.false_ne_true

theorem honest_reporting {d : Declaration} {role : Nat → Role} (hd : Attributed labels s d)
    (h : ∀ n, (role n).isNameless) : (Visit.reporting d role).Honest labels s := by
  refine ⟨?_, ?_, ?_, by simp [Visit.reporting]⟩
  · intro e he
    simp only [Visit.reporting, mem_def, Option.some.injEq] at he
    exact he ▸ hd
  · intro n name hn
    have := h n
    rw [show role n = .record name from hn] at this
    exact absurd this Bool.false_ne_true
  · intro n name hn
    have := h n
    rw [show role n = .enumeration name from hn] at this
    exact absurd this Bool.false_ne_true

theorem collected_callableDecl (below : Forest) (ctx : Context) (line : DumpLine) (name : Text) :
    below.Collected (callableDecl ctx line name) :=
  ⟨by simp [callableDecl], by simp [callableDecl], by simp [callableDecl]⟩

theorem honest_idle (h : role.isIdle) : (Visit.silent role).Honest labels s := by
  cases role with
  | ignored | other => exact honest_silent rfl
  | _ => exact absurd h Bool.false_ne_true

variable {ctx : Context} {v : Visit}

/-- A member is attributed to the record that its visit is given. -/
theorem Visit.OfMember.honest {owner : Text} (h : v.OfMember ctx owner s.line) (ho : s.OwnedBy labels owner)
    (hf : s.line.kind = "FieldDecl" → s.InRecord owner) : v.Honest labels s := by
  cases h with
  | silent role h => exact honest_idle h
  | field name type hk hn hty => exact honest_reporting ⟨hf hk, hn, hty⟩ fun _ => rfl
  | method name _ hn => exact honest_reporting ⟨ho, hn, collected_callableDecl _ _ _ _⟩ fun _ => rfl
  | constructor => exact honest_reporting ⟨ho, rfl, collected_callableDecl _ _ _ _⟩ fun _ => rfl
  | destructor => exact honest_reporting ho fun _ => rfl

theorem Visit.OfEnumerator.honest {enumeration : Text} (h : v.OfEnumerator enumeration s.line)
    (he : ∃ parent ∈ s.above.head?, NamesEnumeration parent enumeration) : v.Honest labels s := by
  cases h with
  | silent => exact honest_silent rfl
  | constant name hn => exact honest_reporting ⟨he, hn, by simp⟩ fun _ => rfl

theorem address_of_introduces {keyword name : Text} (h : s.line.Introduces keyword name) {a other : Text}
    (ha : (s.line.address.map fun a => (a, name)) = some (a, other)) : s.line.address = some a ∧ NamesRecord s.label other := by
  obtain ⟨haddr, rfl⟩ := address_of_map ha
  exact ⟨haddr, keyword, h.record⟩

/-- A node at top level reports itself, or a member of a record by its address. -/
theorem Visit.OfTopLevel.honest (h : v.OfTopLevel ctx s.line)
    (hrec : ∀ a owner, (a, owner) ∈ ctx.records → HasAddress labels a owner) : v.Honest labels s := by
  cases h with
  | silent role h => exact honest_idle h
  | block => exact honest_silent rfl
  | @member a owner v hk hpar hown h =>
    exact h.honest (.inr ⟨a, hpar, hrec a owner hown⟩) fun hf => absurd hf (kind_ne_field hk)
  | @record keyword name h =>
    have hn : NamesRecord s.label name := ⟨keyword, h.record⟩
    refine ⟨?_, ?_, by simp, fun _ _ => address_of_introduces h⟩
    · intro d hd
      simp only [mem_def, Option.some.injEq] at hd
      exact hd ▸ hn
    · intro _ other h
      exact Role.record.inj h ▸ hn
  | known h => exact ⟨by simp, by simp, by simp, fun _ _ => address_of_introduces h⟩
  | function name hn => exact honest_reporting ⟨hn, collected_callableDecl _ _ _ _⟩ fun _ => rfl
  | global name type _ hn hty => exact honest_reporting ⟨hn, hty⟩ fun _ => rfl
  | enumeration name isScoped h =>
    have hn : NamesEnumeration s.label name := ⟨isScoped, h⟩
    refine ⟨?_, by simp [reporting], ?_, by simp [reporting]⟩
    · intro d hd
      simp only [reporting, mem_def, Option.some.injEq] at hd
      exact hd ▸ hn
    · intro _ other h
      exact Role.enumeration.inj h ▸ hn

end Visits

/-! ## Parts of a report -/

/-- The part comes from a node of the forest, a direct part from a topmost one. -/
def Part.ComesFrom (forest : Forest) : Part → Prop
  | member line => ∃ l ∈ forest.tops, line = labelLine l
  | nested line => ∃ l ∈ forest.labels, line = labelLine l
  | value _ line => ∃ l ∈ forest.labels, line = labelLine l

variable {below after : Forest} {decl : CallableDecl} {l label : Text} {labels above : List Text} {s : Site}
  {d : Declaration} {ancestors : List Standing} {part : Part} {ctx : Context} {own : Reading}

theorem collected_addPart (h : below.Collected decl) (hl : l ∈ below.tops) : below.Collected (addPart (labelLine l) decl) := by
  unfold addPart
  split
  · rename_i hk
    refine ⟨?_, h.locals, h.body⟩
    intro q hq
    rcases mem_append.1 hq with hq | hq
    · exact h.params q hq
    · exact ⟨l, hl, hk, mem_singleton.1 hq⟩
  split
  · rename_i hk
    exact ⟨h.params, h.locals, fun _ => ⟨l, hl, hk⟩⟩
  · exact h

theorem collected_addLocal (h : below.Collected decl) (hl : l ∈ below.labels) :
    below.Collected (addLocal (labelLine l) decl) := by
  unfold addLocal
  split
  · rename_i name type hn hty
    split
    · rename_i hk
      simp only [Bool.and_eq_true, decide_eq_true_eq] at hk
      refine ⟨h.params, ?_, h.body⟩
      intro v hv
      rcases mem_append.1 hv with hv | hv
      · exact h.locals v hv
      · rw [mem_singleton.1 hv]
        exact ⟨l, hl, hk.1, hn, hty⟩
    · exact h
  · exact h

/-- An edit that keeps name and collected parts keeps a report attributed. -/
theorem attributed_editCallable (h : Attributed labels s d) {f : CallableDecl → CallableDecl}
    (hnm : ∀ decl, (f decl).name = decl.name) (hf : ∀ decl, s.below.Collected decl → s.below.Collected (f decl)) :
    Attributed labels s (editCallable f d) := by
  cases d with
  | method owner decl =>
    obtain ⟨ho, hn, hc⟩ := h
    exact ⟨ho, (hnm decl).symm ▸ hn, hf decl hc⟩
  | constructor owner decl =>
    obtain ⟨ho, hn, hc⟩ := h
    exact ⟨ho, (hnm decl).trans hn, hf decl hc⟩
  | function decl =>
    obtain ⟨hn, hc⟩ := h
    exact ⟨(hnm decl).symm ▸ hn, hf decl hc⟩
  | record | field | destructor | enumeration | constant | global => exact h

/-- A value from below a constant keeps its report attributed. -/
theorem attributed_addValue (h : Attributed labels s d) (hl : l ∈ s.below.labels) (direct : Bool) :
    Attributed labels s (addValue (valueOf? direct (labelLine l)) d) := by
  cases d with
  | constant enumeration name value =>
    obtain ⟨hp, hn, hv⟩ := h
    refine ⟨hp, hn, ?_⟩
    intro n hn
    cases value with
    | some m => exact hv n hn
    | none => exact ⟨l, hl, direct, hn⟩
  | method | constructor | function | record | field | destructor | enumeration | global => exact h

theorem addPart_name (line : DumpLine) (decl : CallableDecl) : (addPart line decl).name = decl.name := by
  unfold addPart
  split
  · rfl
  split <;> rfl

theorem addLocal_name (line : DumpLine) (decl : CallableDecl) : (addLocal line decl).name = decl.name := by
  unfold addLocal
  split
  · split <;> rfl
  · rfl

/-- Parts from below a node keep its report attributed. -/
theorem attributed_addAll (parts : List Part) (hp : ∀ part ∈ parts, part.ComesFrom s.below) (h : Attributed labels s d) :
    Attributed labels s (Part.addAll parts d) := by
  induction parts generalizing d with
  | nil => exact h
  | cons part parts ih =>
    refine ih (fun q hq => hp q (mem_cons_of_mem _ hq)) ?_
    have hpt := hp part mem_cons_self
    cases part with
    | member line =>
      obtain ⟨l, hl, rfl⟩ := hpt
      exact attributed_editCallable h (addPart_name _) fun _ hc => collected_addPart hc hl
    | nested line =>
      obtain ⟨l, hl, rfl⟩ := hpt
      exact attributed_editCallable h (addLocal_name _) fun _ hc => collected_addLocal hc hl
    | value direct line =>
      obtain ⟨l, hl, rfl⟩ := hpt
      exact attributed_addValue h hl direct

/-! ## All nodes -/

/-- What a node is told is true: its parent and the addresses of records. -/
structure Told (labels above : List Text) (ancestors : List Standing) (ctx : Context) : Prop where
  record : ∀ name, ancestors.head? = some (.record name) → ∃ parent ∈ above.head?, NamesRecord parent name
  enumeration : ∀ name, ancestors.head? = some (.enumeration name) →
    ∃ parent ∈ above.head?, NamesEnumeration parent name
  records : ∀ a owner, (a, owner) ∈ ctx.records → HasAddress labels a owner

/-- What a node does is true to the node. -/
structure Reading.Honest (labels : List Text) (s : Site) (ancestors : List Standing) (own : Reading) : Prop where
  report : ∀ d ∈ own.report, Attributed labels s d
  record : ∀ name, own.standing = .record name → NamesRecord s.label name
  enumeration : ∀ name, own.standing = .enumeration name → NamesEnumeration s.label name
  address : ∀ a name, own.address = some (a, name) → s.line.address = some a ∧ NamesRecord s.label name
  part : ∀ part ∈ own.part, part = .nested s.line ∨ (∃ direct, part = .value direct s.line) ∨
    part = .member s.line ∧ ancestors.head? = some .callable

theorem honest_ofVisit {v : Visit} (h : v.Honest labels s) : (Reading.ofVisit v).Honest labels s ancestors := by
  refine ⟨h.report, ?_, ?_, h.address, by simp [Reading.ofVisit]⟩
  · intro name hn
    refine h.record 0 name ?_
    cases hr : v.role 0 <;> simp_all [Reading.ofVisit, Role.standing]
  · intro name hn
    refine h.enumeration 0 name ?_
    cases hr : v.role 0 <;> simp_all [Reading.ofVisit, Role.standing]

/-- A node without a report of its own. -/
theorem honest_part {part : Option Part} (h : ∀ q ∈ part, q = .nested s.line ∨ (∃ direct, q = .value direct s.line) ∨
      q = .member s.line ∧ ancestors.head? = some .callable) :
    ({ standing := .other, part } : Reading).Honest labels s ancestors :=
  ⟨by simp, by simp, by simp, by simp, h⟩

/-- A node that is told the truth does what is true to it. -/
theorem honest_ofNode (h : Told labels s.above ancestors ctx) :
    (Reading.ofNode ancestors ctx s.line).Honest labels s ancestors := by
  unfold Reading.ofNode
  split
  · exact ⟨by simp, by simp, by simp, by simp, by simp⟩
  split
  · exact honest_ofVisit ((ofTopLevel_visitTopLevel _ _).honest h.records)
  · rename_i name _ _
    have hin : s.InRecord name := h.record name rfl
    exact honest_ofVisit ((ofMember_visitMember _ _ _).honest (.inl hin) fun _ => hin)
  · rename_i name _ _
    exact honest_ofVisit ((ofEnumerator_visitEnumerator _ _).honest (h.enumeration name rfl))
  · exact honest_part fun q hq => .inr (.inr ⟨(mem_some.1 hq).symm, rfl⟩)
  · exact honest_part fun q hq => .inr (.inl ⟨true, (mem_some.1 hq).symm⟩)
  · refine honest_part fun q hq => ?_
    unfold Reading.nestedPart? at hq
    split at hq
    · exact .inl (mem_some.1 hq).symm
    · exact .inr (.inl ⟨false, (mem_some.1 hq).symm⟩)
    · simp at hq

/-- What sibling nodes give is true to them: reports, addresses, and parts. -/
structure Outcome.Honest (labels above : List Text) (ancestors : List Standing) (forest : Forest) (out : Outcome) : Prop
    where
  reports : ∀ d ∈ out.reports, ∃ s, forest.Holds above s ∧ Attributed labels s d
  records : ∀ a owner, (a, owner) ∈ out.context.records → HasAddress labels a owner
  parts : ∀ part ∈ out.parts, part.ComesFrom forest
  direct : ∀ line, .member line ∈ out.parts → ancestors.head? = some .callable

theorem Part.ComesFrom.node (h : part.ComesFrom after) : part.ComesFrom (.node label below after) := by
  cases part with
  | member line =>
    obtain ⟨l, hl, he⟩ := h
    exact ⟨l, mem_cons_of_mem _ hl, he⟩
  | nested line =>
    obtain ⟨l, hl, he⟩ := h
    exact ⟨l, mem_cons_of_mem _ (mem_append_right _ hl), he⟩
  | value direct line =>
    obtain ⟨l, hl, he⟩ := h
    exact ⟨l, mem_cons_of_mem _ (mem_append_right _ hl), he⟩

/-- A part that a node passes on from below it, never a direct one of a callable. -/
theorem Part.ComesFrom.passed (h : part.ComesFrom below) (hd : ∀ line, part ≠ .member line) :
    part.ComesFrom (.node label below after) := by
  cases part with
  | member line => exact absurd rfl (hd line)
  | nested line =>
    obtain ⟨l, hl, he⟩ := h
    exact ⟨l, mem_cons_of_mem _ (mem_append_left _ hl), he⟩
  | value direct line =>
    obtain ⟨l, hl, he⟩ := h
    exact ⟨l, mem_cons_of_mem _ (mem_append_left _ hl), he⟩

theorem Reading.Honest.part_comesFrom (h : own.Honest labels ⟨above, label, below⟩ ancestors) :
    ∀ part ∈ own.part, part.ComesFrom (.node label below after) := by
  intro part hp
  rcases h.part part hp with rfl | ⟨_, rfl⟩ | ⟨rfl, _⟩
  · exact ⟨label, mem_cons_self, rfl⟩
  · exact ⟨label, mem_cons_self, rfl⟩
  · exact ⟨label, mem_cons_self, rfl⟩

theorem Reading.Honest.direct (h : own.Honest labels s ancestors) {line : DumpLine} (hm : .member line ∈ own.part) :
    ancestors.head? = some .callable := by
  rcases h.part _ hm with he | ⟨_, he⟩ | ⟨_, hc⟩
  · nomatch he
  · nomatch he
  · exact hc

/-- A node together with what the nodes below it and after it give. -/
theorem honest_join {inner later : Outcome} (hown : own.Honest labels ⟨above, label, below⟩ ancestors)
    (hinn : inner.Honest labels (label :: above) (own.standing :: ancestors) below)
    (hlat : later.Honest labels above ancestors after) :
    (Outcome.join own inner later).Honest labels above ancestors (.node label below after) := by
  have hin : ∀ d ∈ inner.reports, ∃ s, (Forest.node label below after).Holds above s ∧ Attributed labels s d := by
    intro d hd
    obtain ⟨s, hs, ha⟩ := hinn.reports d hd
    exact ⟨s, .inside after hs, ha⟩
  have hla : ∀ d ∈ later.reports, ∃ s, (Forest.node label below after).Holds above s ∧ Attributed labels s d := by
    intro d hd
    obtain ⟨s, hs, ha⟩ := hlat.reports d hd
    exact ⟨s, .later label below hs, ha⟩
  unfold Outcome.join
  split
  · refine ⟨?_, hlat.records, ?_, ?_⟩
    · intro d hd
      simp only [mem_append, mem_toList, Option.map_eq_some_iff] at hd
      rcases hd with (⟨base, hb, rfl⟩ | hd) | hd
      · exact ⟨_, .here above label below after, attributed_addAll inner.parts hinn.parts (hown.report base hb)⟩
      · exact hin d hd
      · exact hla d hd
    · intro part hp
      simp only [mem_append, mem_toList] at hp
      rcases hp with hp | hp
      · exact hown.part_comesFrom part hp
      · exact (hlat.parts part hp).node
    · intro line hm
      simp only [mem_append, mem_toList] at hm
      rcases hm with hm | hm
      · exact hown.direct hm
      · exact hlat.direct line hm
  · rename_i hc
    have hno : ∀ line, .member line ∉ inner.parts := by
      intro line hm
      have hh := hinn.direct line hm
      simp only [head?_cons, Option.some.injEq] at hh
      rw [hh] at hc
      exact hc rfl
    refine ⟨?_, hlat.records, ?_, ?_⟩
    · intro d hd
      simp only [mem_append, mem_toList] at hd
      rcases hd with (hd | hd) | hd
      · exact ⟨_, .here above label below after, hown.report d hd⟩
      · exact hin d hd
      · exact hla d hd
    · intro part hp
      simp only [mem_append, mem_toList] at hp
      rcases hp with (hp | hp) | hp
      · exact hown.part_comesFrom part hp
      · exact (hinn.parts part hp).passed fun line he => hno line (he ▸ hp)
      · exact (hlat.parts part hp).node
    · intro line hm
      simp only [mem_append, mem_toList] at hm
      rcases hm with (hm | hm) | hm
      · exact hown.direct hm
      · exact absurd hm (hno line)
      · exact hlat.direct line hm

/-- What sibling nodes give is true to them when they are told the truth. -/
theorem honest_read (forest : Forest) (h : Told labels above ancestors ctx) (hsub : forest.labels ⊆ labels) :
    (forest.read ancestors ctx).Honest labels above ancestors forest := by
  induction forest generalizing above ancestors ctx with
  | empty => exact ⟨by simp [Forest.read], h.records, by simp [Forest.read], by simp [Forest.read]⟩
  | node label below after ihBelow ihAfter =>
    have hbelow : below.labels ⊆ labels := fun l hl => hsub (mem_cons_of_mem _ (mem_append_left _ hl))
    have haft : after.labels ⊆ labels := fun l hl => hsub (mem_cons_of_mem _ (mem_append_right _ hl))
    have hhere : Told labels above ancestors (ctx.enter (labelLine label)) := ⟨h.record, h.enumeration, h.records⟩
    have hown := honest_ofNode (s := ⟨above, label, below⟩) hhere
    have htold : Told labels (label :: above)
        ((Reading.ofNode ancestors (ctx.enter (labelLine label)) (labelLine label)).standing :: ancestors)
        ((ctx.enter (labelLine label)).know
          (Reading.ofNode ancestors (ctx.enter (labelLine label)) (labelLine label)).address) := by
      refine ⟨?_, ?_, ?_⟩
      · intro name hn
        exact ⟨label, rfl, hown.record name (Option.some.inj hn)⟩
      · intro name hn
        exact ⟨label, rfl, hown.enumeration name (Option.some.inj hn)⟩
      · intro a owner hm
        rcases mem_append.1 hm with hm | hm
        · obtain ⟨ha, hn⟩ := hown.address a owner (mem_toList.1 hm)
          exact ⟨label, hsub mem_cons_self, ha, hn⟩
        · exact h.records a owner hm
    have hin := ihBelow htold hbelow
    exact honest_join hown hin (ihAfter ⟨h.record, h.enumeration, hin.records⟩ haft)

/-! ## The main statement -/

theorem isLine_drawing (depth : Nat) : IsLine depth label (drawing depth ++ label) := by
  refine ⟨drawing depth, ?_, ?_, rfl⟩
  · cases depth with
    | zero => rfl
    | succ depth =>
      simp [drawing]
      omega
  · cases depth with
    | zero => rfl
    | succ depth =>
      simp only [drawing, all_append, Bool.and_eq_true, all_flatten, all_replicate]
      constructor
      · split <;> decide
      · decide

theorem shows_print (forest : Forest) (depth : Nat) (h : ∀ l ∈ forest.labels, IsLabel l) :
    forest.Shows depth (forest.print depth) := by
  induction forest generalizing depth with
  | empty => exact .empty depth
  | node label below after ihBelow ihAfter =>
    refine .node (h label mem_cons_self) (isLine_drawing depth) (ihBelow _ fun l hl => ?_)
      (ihAfter _ fun l hl => ?_)
    · exact h l (mem_cons_of_mem _ (mem_append_left _ hl))
    · exact h l (mem_cons_of_mem _ (mem_append_right _ hl))

theorem writtenLines_flatMap (lines : List Text) : WrittenLines lines (lines.flatMap (· ++ ['\n'])) := by
  induction lines with
  | nil => exact .none
  | cons line lines ih =>
    rw [flatMap_cons, append_assoc]
    exact .feed line ih

/-- Every tree of labels has a dump. -/
theorem isDump_print (t : Tree) (h : ∀ l ∈ t.root :: t.below.labels, IsLabel l) : t.IsDump t.print := by
  refine ⟨_, shows_print (.node t.root t.below .empty) 0 ?_, writtenLines_flatMap _⟩
  simpa [Forest.labels] using h

/-- Reading a dump with a stack is recursion over the tree it shows, and every report is attributed at a node. -/
theorem declarations_eq_tree (t : Tree) (dump : Text) (h : t.IsDump dump) (origins : Option (List Path)) :
    declarations origins dump = t.declarations origins ∧
      ∀ d ∈ declarations origins dump, ∃ s, t.below.Holds [] s ∧ Attributed t.below.labels s d := by
  have he := declarations_of_dump h origins
  refine ⟨he, ?_⟩
  rw [he]
  exact (honest_read t.below ⟨by simp, by simp, by simp [Context.enter]⟩ (List.Subset.refl _)).reports

/-- A record with a field, and a function with a local variable. -/
def recordThenFunction : Tree :=
  { root := "TranslationUnitDecl 0x1"
    below :=
      .node "CXXRecordDecl 0x2 <a.cpp:1:1> col:7 class Led definition"
        (.node "FieldDecl 0x3 <col:9> col:9 state 'bool'" .empty .empty)
        (.node "FunctionDecl 0x4 <line:2:1> line:2:6 run 'void ()'"
          (.node "CompoundStmt 0x5 <col:12>" (.node "VarDecl 0x6 <col:14> col:14 led 'Led'" .empty .empty) .empty)
          .empty) }

/-- The local belongs to the function and the field to the record. -/
theorem declarations_eq_tree_recordThenFunction :
    recordThenFunction.IsDump recordThenFunction.print ∧
      declarations none recordThenFunction.print = recordThenFunction.declarations none ∧
      recordThenFunction.declarations none =
        [.record "Led" .classWord (some ⟨"a.cpp"⟩), .field "Led" ⟨"state", "bool"⟩,
          .function
            { name := "run", rawType := "void ()", locals := [⟨"led", "Led"⟩], isDefinition := true,
              origin := some ⟨"a.cpp"⟩ }] := by
  have h : recordThenFunction.IsDump recordThenFunction.print := isDump_print _ (by decide +kernel)
  exact ⟨h, (declarations_eq_tree _ _ h none).1, by decide +kernel⟩

end Dump

end Declass
