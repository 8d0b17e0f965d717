import Declass.Proofs.Dump.Tree
import Declass.Proofs.Dump.Visits

/-!
# One line of a dump

What reading one line does, whatever it says. The open nodes that it does not close are its ancestors (`ancestorsAt`), and they
decide whether it reports a declaration or adds a part to a report (`visit_eq`).
-/

namespace Declass

open List

namespace Dump

variable (position : Option Nat) (parts : List Part) (reports : List Declaration)

/-! ## Lines -/

/-- The lines of a dump. -/
def readLines (dump : Text) : List DumpLine :=
  (Text.lines dump).filterMap fun line => DumpLine.read? (DumpLine.withoutColours line)

namespace Reader

/-- The reader before the first line. -/
def start (origins : Option (List Path)) : Reader :=
  { context := { origins := origins.map (·.filterMap Path.fileName?) } }

/-- The reader after some lines. -/
def ofLines (origins : Option (List Path)) (lines : List DumpLine) : Reader :=
  lines.foldl visit (start origins)

end Reader

/-- The declarations of a dump are those that its lines leave in the reader. -/
theorem declarations_eq_reports (origins : Option (List Path)) (dump : Text) :
    declarations origins dump = (Reader.ofLines origins (readLines dump)).reports := rfl

/-! ## What a visit does to the role of a node -/

/-- The position of the report that a role holds. -/
def Role.position? : Role → Option Nat
  | callable i | constant i => some i
  | _ => none

/-- The roles that a visit can give. -/
inductive Visit.Steady : Visit → Prop
  | plain (role : Role) (report : Option Declaration) (address : Option (Text × Text)) (h : role.position? = none) :
      Steady { role := fun _ => role, report, address }
  | callable (d : Declaration) : Steady (.reporting d .callable)
  | constant (d : Declaration) : Steady (.reporting d .constant)

theorem steady_silent (role : Role) (h : role.position? = none) : (Visit.silent role).Steady :=
  .plain role none none h

theorem position?_of_isIdle {role : Role} (h : role.isIdle) : role.position? = none := by
  cases role with
  | ignored => rfl
  | other => rfl
  | _ => exact absurd h Bool.false_ne_true

namespace Visit

variable {ctx : Context} {line : DumpLine} {v : Visit}

theorem OfMember.steady {owner : Text} (h : v.OfMember ctx owner line) : v.Steady := by
  cases h with
  | silent role h => exact steady_silent role (position?_of_isIdle h)
  | field name type => exact .plain .other (some _) none rfl
  | method | constructor => exact .callable _
  | destructor => exact .plain .ignored (some _) none rfl

theorem OfEnumerator.steady {enumeration : Text} (h : v.OfEnumerator enumeration line) : v.Steady := by
  cases h with
  | silent => exact steady_silent .other rfl
  | constant name => exact .constant _

theorem OfTopLevel.steady (h : v.OfTopLevel ctx line) : v.Steady := by
  cases h with
  | silent role h => exact steady_silent role (position?_of_isIdle h)
  | block => exact steady_silent .topLevel rfl
  | member _ _ _ h => exact h.steady
  | record => exact .plain _ _ _ rfl
  | known => exact .plain .other none _ rfl
  | function name => exact .callable _
  | global name type => exact .plain .other (some _) none rfl
  | enumeration name => exact .plain _ (some _) none rfl

end Visit

/-- A role that a visit gives stands for `own`, with a position if that collects. -/
structure Role.Matches (role : Role) (own : Reading) (n : Nat) : Prop where
  standing : role.standing = own.standing
  position : role.position? = if own.standing.collects then some n else none
  reported : own.standing.collects → own.report.isSome

theorem Visit.Steady.matches {v : Visit} (h : v.Steady) (n : Nat) : (v.role n).Matches (.ofVisit v) n := by
  cases h with
  | plain role report address h =>
    have hc : role.standing.collects = false := by cases role <;> first | rfl | simp [Role.position?] at h
    exact ⟨rfl, by simp [Reading.ofVisit, hc, h], by simp [Reading.ofVisit, hc]⟩
  | callable | constant => exact ⟨rfl, rfl, fun _ => rfl⟩

/-- A role without a position matches a node that collects nothing. -/
theorem matches_plain (role : Role) (own : Reading) (n : Nat) (hs : role.standing = own.standing)
    (hp : role.position? = none) (hc : own.standing.collects = false) : role.Matches own n :=
  ⟨hs, by simp [hc, hp], by simp [hc]⟩

/-! ## Positions -/

/-- The position of the report to which the nodes below a path add their parts. -/
def position? (path : List Frame) : Option Nat :=
  path.findSome? (·.role.position?)

/-- The reports with parts added at a position, if there is one. -/
def addAt (position : Option Nat) (parts : List Part) (reports : List Declaration) : List Declaration :=
  position.elim reports fun i => reports.modify i (Part.addAll parts)

theorem addAt_nil : addAt position [] reports = reports := by
  cases position with
  | none => rfl
  | some i =>
    have : Part.addAll [] = id := rfl
    simp [addAt, this]

theorem addAt_append (ps qs : List Part) (reports : List Declaration) :
    addAt position (ps ++ qs) reports = addAt position qs (addAt position ps reports) := by
  cases position with
  | none => rfl
  | some i =>
    have : Part.addAll (ps ++ qs) = Part.addAll qs ∘ Part.addAll ps := by
      funext d
      simp [Part.addAll]
    simp [addAt, this, modify_modify_eq]

theorem length_addAt : (addAt position parts reports).length = reports.length := by
  cases position <;> simp [addAt]

/-- Parts for an earlier report do not reach later ones. -/
theorem addAt_append_left (reports more : List Declaration) (h : ∀ i, position = some i → i < reports.length) :
    addAt position parts (reports ++ more) = addAt position parts reports ++ more := by
  cases position with
  | none => rfl
  | some i =>
    have hi := h i rfl
    simp only [addAt, Option.elim_some]
    rw [modify_eq_take_cons_drop hi, modify_eq_take_cons_drop (by rw [length_append]; omega),
      take_append_of_le_length (by omega), drop_append_of_le_length (by omega), getElem_append_left hi,
      append_assoc, cons_append]

/-- The parts for the last report. -/
theorem addAt_last (d : Declaration) : addAt (some reports.length) parts (reports ++ [d]) = reports ++ [Part.addAll parts d] := by
  simp only [addAt, Option.elim_some]
  rw [modify_eq_take_cons_drop (by simp)]
  simp

variable {i depth : Nat} (r : Reader) (stack : List Frame)

theorem getElem?_addAt {position : Option Nat} {parts : List Part} {reports : List Declaration} {e : Declaration}
    (h : (addAt position parts reports)[i]? = some e) : ∃ d, reports[i]? = some d ∧ (e = d ∨ e = Part.addAll parts d) := by
  cases position with
  | none => exact ⟨e, h, .inl rfl⟩
  | some k =>
    rw [addAt, Option.elim_some, getElem?_modify, Option.map_eq_map, Option.map_eq_some_iff] at h
    obtain ⟨d, hd, he⟩ := h
    refine ⟨d, hd, ?_⟩
    split at he
    · exact .inr he.symm
    · exact .inl he.symm

theorem position?_cons (f : Frame) (path : List Frame) : position? (f :: path) = f.role.position?.or (position? path) := by
  cases h : f.role.position? <;> simp [position?, h]

/-! ## Ancestors -/

/-- An open node, without the position of its report. -/
structure Node where
  depth : Nat
  standing : Standing
deriving DecidableEq

/-- The node that a frame opens. -/
def Frame.node (f : Frame) : Node :=
  { depth := f.depth, standing := f.role.standing }

/-- The innermost open node, or the root, is one level above `depth`. -/
def isParent : List Node → Nat → Bool
  | [], depth => depth != 0
  | n :: _, depth => n.depth + 1 == depth

/-- The ancestors of a line at `depth` below `path`, innermost first. -/
def ancestorsAt (path : List Node) (depth : Nat) : List Standing :=
  let above := path.map Node.standing ++ [.topLevel]
  if isParent path depth then above else .other :: above

/-- The parent comes first. -/
theorem ancestorsAt_eq_cons :
    ∃ rest, ancestorsAt (stack.map Frame.node) depth = (Reader.parentRole stack depth).standing :: rest := by
  cases stack with
  | nil =>
    by_cases hd : depth = 0
    · exact ⟨[.topLevel], by simp [ancestorsAt, isParent, Reader.parentRole, hd, Role.standing]⟩
    · exact ⟨[], by simp [ancestorsAt, isParent, Reader.parentRole, hd, Role.standing]⟩
  | cons f stack =>
    by_cases hd : f.depth + 1 = depth
    · exact ⟨_, by simp [ancestorsAt, isParent, Reader.parentRole, hd, Frame.node]; rfl⟩
    · exact ⟨_, by simp [ancestorsAt, isParent, Reader.parentRole, hd, Frame.node, Role.standing]; rfl⟩

theorem mem_ancestorsAt {path : List Node} {s : Standing} (htop : s ≠ .topLevel) (hoth : s ≠ .other) :
    s ∈ ancestorsAt path depth ↔ ∃ n ∈ path, n.standing = s := by
  unfold ancestorsAt
  split <;> simp [htop, hoth]

/-- What collects parts is an open node. -/
theorem find?_ancestorsAt (path : List Node) :
    (ancestorsAt path depth).find? Standing.collects = (path.map Node.standing).find? Standing.collects := by
  unfold ancestorsAt
  split <;> simp [Standing.collects]

theorem any_ignored_iff : stack.any (·.role = .ignored) ↔ .ignored ∈ ancestorsAt (stack.map Frame.node) depth := by
  have hro (role : Role) : role.standing = .ignored ↔ role = .ignored := by cases role <;> simp [Role.standing]
  rw [mem_ancestorsAt (by decide) (by decide), any_eq_true]
  constructor
  · rintro ⟨f, hf, hig⟩
    exact ⟨f.node, mem_map_of_mem hf, (hro f.role).2 (of_decide_eq_true hig)⟩
  · rintro ⟨n, hn, hig⟩
    obtain ⟨f, hf, rfl⟩ := mem_map.1 hn
    exact ⟨f, hf, decide_eq_true ((hro f.role).1 hig)⟩

/-- The innermost open callable or constant is the nearest to collect. -/
theorem nearest?_cases : let standings := (stack.map Frame.node).map Node.standing
    (nearest? stack = none ∧ standings.find? Standing.collects = none) ∨
      (∃ i, nearest? stack = some (.callable i) ∧ position? stack = some i ∧
        standings.find? Standing.collects = some .callable) ∨
      ∃ i, nearest? stack = some (.constant i) ∧ position? stack = some i ∧
        standings.find? Standing.collects = some .constant := by
  induction stack with
  | nil => exact .inl ⟨rfl, rfl⟩
  | cons f stack ih =>
    obtain ⟨depth, role⟩ := f
    cases role with
    | callable i => exact .inr (.inl ⟨i, rfl, rfl, rfl⟩)
    | constant i => exact .inr (.inr ⟨i, rfl, rfl, rfl⟩)
    | topLevel | ignored | record | enumeration | other => exact ih

/-- A node without a report adds its part to the nearest above it. -/
theorem nested_eq (depth : Nat) (line : DumpLine) : r.nested line =
      { r with
        reports := addAt (position? r.stack)
          (Reading.nestedPart? (ancestorsAt (r.stack.map Frame.node) depth) line).toList r.reports } := by
  unfold Reader.nested Reading.nestedPart?
  rw [find?_ancestorsAt]
  rcases nearest?_cases r.stack with ⟨hn, hf⟩ | ⟨i, hn, hp, hf⟩ | ⟨i, hn, hp, hf⟩
  · rw [hn, hf]
    simp [addAt_nil]
  · rw [hn, hf, hp]
    rfl
  · rw [hn, hf, hp]
    rfl

/-! ## One line -/

/-- The reader after a node that does `own`, before the node is opened. -/
def Reader.after (r : Reader) (own : Reading) : Reader :=
  { r with
    context := r.context.know own.address
    reports := addAt (position? r.stack) own.part.toList r.reports ++ own.report.toList }

/-- A visit that can report a declaration. -/
theorem take_eq (v : Visit) : r.take v = (r.after (.ofVisit v), v.role r.reports.length) := by
  simp [Reader.take, Reader.after, Reading.ofVisit, Context.know, addAt_nil]

/-- A node that only adds a part to a report above it. -/
theorem after_part (part : Option Part) :
    r.after { standing := .other, part } = { r with reports := addAt (position? r.stack) part.toList r.reports } := by
  simp [Reader.after, Context.know]

/-- The parent of a line below a callable or constant holds its report's position. -/
theorem position?_of_parentRole {stack : List Frame} {depth i : Nat}
    (h : (Reader.parentRole stack depth).position? = some i) : position? stack = some i := by
  unfold Reader.parentRole at h
  split at h
  · split at h <;> nomatch h
  · split at h
    · rw [position?_cons, h, Option.some_or]
    · nomatch h

/-- A line whose ancestors are looked into does what they say. -/
theorem visitBelow_eq (line : DumpLine) (hig : .ignored ∉ ancestorsAt (r.stack.map Frame.node) depth) :
    let own := Reading.ofNode (ancestorsAt (r.stack.map Frame.node) depth) r.context line
    ∃ role : Role, role.Matches own r.reports.length ∧
      r.visitBelow (Reader.parentRole r.stack depth) line = (r.after own, role) := by
  have hns := nested_eq r depth line
  have hpos := @position?_of_parentRole r.stack depth
  obtain ⟨rest, hpar⟩ := ancestorsAt_eq_cons r.stack
  simp only [Reading.ofNode, hig, if_false]
  rw [hpar] at hig hns ⊢
  generalize Reader.parentRole r.stack depth = parent at hig hpos hns ⊢
  cases parent with
  | topLevel => exact ⟨_, (ofTopLevel_visitTopLevel r.context line).steady.matches _, take_eq _ _⟩
  | ignored => exact absurd mem_cons_self hig
  | record name => exact ⟨_, (ofMember_visitMember r.context name line).steady.matches _, take_eq _ _⟩
  | enumeration name => exact ⟨_, (ofEnumerator_visitEnumerator name line).steady.matches _, take_eq _ _⟩
  | constant i =>
    refine ⟨.other, matches_plain _ _ _ rfl rfl rfl, congrArg (·, Role.other) ?_⟩
    rw [Role.standing, after_part r (some (.value true line)), hpos rfl]
    rfl
  | callable i =>
    refine ⟨.other, matches_plain _ _ _ rfl rfl rfl, congrArg (·, Role.other) ?_⟩
    rw [Role.standing, after_part r (some (.member line)), hpos rfl]
    rfl
  | other =>
    refine ⟨.other, matches_plain _ _ _ rfl rfl rfl, congrArg (·, Role.other) ?_⟩
    exact hns.trans (after_part r _).symm

/-- What a node does: nothing, a part of a report, or what a visit does. -/
theorem ofNode_cases (ancestors : List Standing) (ctx : Context) (line : DumpLine) :
    Reading.ofNode ancestors ctx line = { standing := .ignored } ∨
      (∃ part, Reading.ofNode ancestors ctx line = { standing := .other, part }) ∨
      (ancestors.head? = some .topLevel ∧ Reading.ofNode ancestors ctx line = .ofVisit (visitTopLevel ctx line)) ∨
      (∃ name, ancestors.head? = some (.record name) ∧ Reading.ofNode ancestors ctx line = .ofVisit (visitMember ctx name line)) ∨
      ∃ name, ancestors.head? = some (.enumeration name) ∧
        Reading.ofNode ancestors ctx line = .ofVisit (visitEnumerator name line) := by
  unfold Reading.ofNode
  split
  · exact .inl rfl
  split
  · exact .inr (.inr (.inl ⟨rfl, rfl⟩))
  next name _ _ => exact .inr (.inr (.inr (.inl ⟨name, rfl, rfl⟩)))
  next name _ _ => exact .inr (.inr (.inr (.inr ⟨name, rfl, rfl⟩)))
  · exact .inr (.inl ⟨_, rfl⟩)
  · exact .inr (.inl ⟨_, rfl⟩)
  · exact .inr (.inl ⟨_, rfl⟩)

namespace Reader

/-- The open nodes above a line: those that it does not close. -/
def pathTo (r : Reader) (line : DumpLine) : List Frame :=
  r.stack.dropWhile fun f => line.depth ≤ f.depth

/-- What a line does in a reader. -/
def reading (r : Reader) (line : DumpLine) : Reading :=
  .ofNode (ancestorsAt ((r.pathTo line).map Frame.node) line.depth) (r.context.enter line) line

/-- Reading a line closes nodes, does what the others say, and opens its own. -/
theorem visit_eq (line : DumpLine) : ∃ role : Role, role.Matches (r.reading line) r.reports.length ∧ r.visit line =
        { context := (r.context.enter line).know (r.reading line).address
          reports := addAt (position? (r.pathTo line)) (r.reading line).part.toList r.reports ++ (r.reading line).report.toList
          stack := if line.depth = 0 then [] else { depth := line.depth, role } :: r.pathTo line } := by
  by_cases hig : .ignored ∈ ancestorsAt ((r.pathTo line).map Frame.node) line.depth
  · have hown : r.reading line = { standing := .ignored } := by simp only [reading, Reading.ofNode, hig, if_true]
    refine ⟨.ignored, ?_, ?_⟩
    · rw [hown]
      exact matches_plain _ _ _ rfl rfl rfl
    · have hany := (any_ignored_iff (r.pathTo line)).2 hig
      simp only [visit]
      rw [← pathTo, if_pos hany, hown]
      simp [addAt_nil, Context.know, Context.enter]
  · obtain ⟨role, hm, he⟩ :=
      visitBelow_eq { r with stack := r.pathTo line, context := r.context.enter line } line hig
    refine ⟨role, hm, ?_⟩
    have hany := mt (any_ignored_iff (r.pathTo line)).1 hig
    simp only [visit, Context.enter] at he ⊢
    rw [← pathTo, if_neg hany, he]
    rfl

theorem reports_visit (line : DumpLine) : (r.visit line).reports =
      addAt (position? (r.pathTo line)) (r.reading line).part.toList r.reports ++ (r.reading line).report.toList := by
  obtain ⟨role, _, hv⟩ := r.visit_eq line
  rw [hv]

theorem context_visit (line : DumpLine) : (r.visit line).context = (r.context.enter line).know (r.reading line).address := by
  obtain ⟨role, _, hv⟩ := r.visit_eq line
  rw [hv]

/-- A report after a line was there before, but for a part, or is the line's own. -/
theorem getElem?_visit {r : Reader} {line : DumpLine} {i : Nat} {e : Declaration} (h : (r.visit line).reports[i]? = some e) :
    (∃ d, r.reports[i]? = some d ∧ (e = d ∨ e = Part.addAll (r.reading line).part.toList d)) ∨
      i = r.reports.length ∧ (r.reading line).report = some e := by
  rw [r.reports_visit line] at h
  have hlen := length_addAt (position? (r.pathTo line)) (r.reading line).part.toList r.reports
  rcases Nat.lt_or_ge i r.reports.length with hi | hi
  · rw [getElem?_append_left (hlen ▸ hi)] at h
    exact .inl (getElem?_addAt h)
  · rw [getElem?_append_right (hlen ▸ hi)] at h
    cases hrep : (r.reading line).report with
    | none => simp [hrep] at h
    | some d =>
      rw [hrep, Option.toList_some, getElem?_singleton] at h
      split at h
      next hl => exact .inr ⟨by omega, h⟩
      · cases h

theorem ofLines_concat (origins : Option (List Path)) (lines : List DumpLine) (line : DumpLine) :
    ofLines origins (lines ++ [line]) = (ofLines origins lines).visit line := by
  simp [ofLines]

end Reader

end Dump

end Declass
