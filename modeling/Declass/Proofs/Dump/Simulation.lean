import Declass.Proofs.Dump.Step

/-!
# The reader follows the tree

The stack of open nodes is the path of ancestors (`OnPath`): a node is read below its true parent, and a part of a report goes to
the nearest callable or constant above it.
-/

namespace Declass

open List
open DumpLine (isDrawing read? withoutColours)

namespace Dump

variable {t node : Text} {lines : List Text} {depth : Nat} {forest : Forest} {path : List Frame} {ancestors : List Standing}

variable {line : Text}

/-! ## Lines of a dump -/

/-- The lines from the second character on decide the lines, unless the first ends one. -/
theorem lines_cons {c : Char} (hc : c ≠ '\n') (hr : c = '\r' → t.head? ≠ some '\n') :
    Text.lines (c :: t) = match Text.lines t with | [] => [[c]] | line :: rest => (c :: line) :: rest := by
  refine Text.lines.eq_4 c t hc ?_
  intro u h1 h2
  exact hr h1 (by simp [h2])

/-- A line without a line end in it is the first before a line feed. -/
theorem lines_append_feed (hf : '\n' ∉ line) (hr : line.getLast? ≠ some '\r') :
    Text.lines (line ++ '\n' :: t) = line :: Text.lines t := by
  induction line with
  | nil => simp [Text.lines]
  | cons c line ih =>
    have hf' : c ≠ '\n' ∧ '\n' ∉ line := by
      simp only [mem_cons, not_or] at hf
      exact ⟨fun h => hf.1 h.symm, hf.2⟩
    have hnx : c = '\r' → (line ++ '\n' :: t).head? ≠ some '\n' := by
      rintro rfl
      cases line with
      | nil => simp at hr
      | cons d line =>
        simp only [cons_append, head?_cons, ne_eq, Option.some.injEq]
        rintro rfl
        simp at hf'
    have hr' : line.getLast? ≠ some '\r' := by
      cases line with
      | nil => simp
      | cons d line => simpa using hr
    rw [cons_append, lines_cons hf'.1 hnx, ih hf'.2 hr']

/-- The same before a carriage return and a line feed. -/
theorem lines_append_returnFeed (hf : '\n' ∉ line) : Text.lines (line ++ '\r' :: '\n' :: t) = line :: Text.lines t := by
  induction line with
  | nil => simp [Text.lines]
  | cons c line ih =>
    simp only [mem_cons, not_or] at hf
    have hnx : c = '\r' → (line ++ '\r' :: '\n' :: t).head? ≠ some '\n' := by
      intro _
      cases line with
      | nil => simp
      | cons d line =>
        simp only [cons_append, head?_cons, ne_eq, Option.some.injEq]
        rintro rfl
        simp at hf
    rw [cons_append, lines_cons (fun h => hf.1 h.symm) hnx, ih hf.2]

/-- A text without a line feed is one line. -/
theorem lines_eq_singleton (hne : line ≠ []) (hf : '\n' ∉ line) : Text.lines line = [line] := by
  induction line with
  | nil => exact absurd rfl hne
  | cons c line ih =>
    simp only [mem_cons, not_or] at hf
    have hnx : c = '\r' → line.head? ≠ some '\n' := by
      intro _ h
      exact hf.2 (mem_of_head? h)
    rw [lines_cons (fun h => hf.1 h.symm) hnx]
    cases line with
    | nil => simp [Text.lines]
    | cons d line => rw [ih (by simp) hf.2]

/-- The lines of a text that consists of lines without line ends in them. -/
theorem lines_of_written (h : WrittenLines lines t) (hl : ∀ line ∈ lines, '\n' ∉ line ∧ line.getLast? ≠ some '\r') :
    Text.lines t = lines := by
  induction h with
  | none => simp [Text.lines]
  | last line hne => exact lines_eq_singleton hne (hl line (by simp)).1
  | feed line _ ih =>
    have h1 := hl line (by simp)
    rw [lines_append_feed h1.1 h1.2, ih fun l hm => hl l (by simp [hm])]
  | returnFeed line _ ih =>
    rw [lines_append_returnFeed (hl line (by simp)).1, ih fun l hm => hl l (by simp [hm])]

/-! ## One line -/

/-- Characters of the drawing have no colour. -/
theorem withoutColours_append (drawing label : Text) (h : drawing.all isDrawing) :
    withoutColours (drawing ++ label) = drawing ++ withoutColours label := by
  induction drawing with
  | nil => rfl
  | cons c drawing ih =>
    simp only [all_cons, Bool.and_eq_true] at h
    have hc : c ≠ '\x1b' := by
      rintro rfl
      exact absurd h.1 (by decide)
    rw [cons_append, withoutColours, ih h.2, cons_append]
    exact fun e => hc e

/-- A text whose first character is not drawn, after a drawing. -/
theorem span_drawing (drawing : Text) (hd : drawing.all isDrawing) (hn : node.head?.any (!isDrawing ·)) :
    (drawing ++ node).takeWhile isDrawing = drawing ∧ (drawing ++ node).dropWhile isDrawing = node := by
  have hall : ∀ c ∈ drawing, isDrawing c := by simpa using hd
  cases node with
  | nil => simp at hn
  | cons c node =>
    simp only [head?_cons, Option.any_some, Bool.not_eq_eq_eq_not] at hn
    constructor
    · rw [takeWhile_append_of_pos hall, takeWhile_cons_of_neg (by simp [hn]), append_nil]
    · rw [dropWhile_append_of_pos hall, dropWhile_cons_of_neg (by simp [hn])]

/-- The drawing before a node tells its depth, and nothing else. -/
theorem read?_drawing {drawing : Text} (hlen : drawing.length = 2 * depth) (hd : drawing.all isDrawing)
    (hn : node.head?.any (!isDrawing ·)) : read? (drawing ++ node) =
      some { (read? node).getD { depth := 0, kind := [] } with depth } := by
  obtain ⟨ht, hdr⟩ := span_drawing drawing hd hn
  obtain ⟨_, hdr0⟩ := span_drawing [] rfl hn
  rw [nil_append] at hdr0
  cases node with
  | nil => simp at hn
  | cons c node =>
    have hhalf : 2 * depth / 2 = depth := by omega
    simp only [read?, ht, hdr, hdr0, hlen, hhalf, Option.getD_some]

/-- The line of a node shows its label `depth` levels deep. -/
theorem read?_line {label line : Text} (hl : IsLabel label) (h : IsLine depth label line) :
    read? (withoutColours line) = some { labelLine label with depth } := by
  obtain ⟨drawing, hlen, hd, rfl⟩ := h
  rw [withoutColours_append drawing label hd]
  exact read?_drawing hlen hd hl.starts

/-- The lines that show sibling nodes, split into their parts. -/
def Forest.dumpLines (depth : Nat) : Forest → List DumpLine
  | .empty => []
  | .node label below after =>
    { labelLine label with depth } :: (below.dumpLines (depth + 1) ++ after.dumpLines depth)

/-- The lines of a dump give the nodes in preorder, each with its depth. -/
theorem filterMap_read?_shows (h : forest.Shows depth lines) :
    (lines.filterMap fun line => read? (withoutColours line)) = forest.dumpLines depth := by
  induction h with
  | empty depth => rfl
  | node hl hln _ _ ihBelow ihAfter =>
    simp only [filterMap_cons, read?_line hl hln, filterMap_append, ihBelow, ihAfter, Forest.dumpLines]

/-- No line of a dump holds a line end. -/
theorem lineEnds_of_shows (h : forest.Shows depth lines) : ∀ line ∈ lines, '\n' ∉ line ∧ line.getLast? ≠ some '\r' := by
  induction h with
  | empty depth => simp
  | @node depth label line below after inner later hl hln _ _ ihBelow ihAfter =>
    intro l hm
    rcases mem_cons.1 hm with rfl | hm
    · obtain ⟨drawing, _, hd, rfl⟩ := hln
      have hall : ∀ c ∈ drawing, isDrawing c := by simpa using hd
      have hne : label ≠ [] := by
        rintro rfl
        exact absurd hl.starts (by decide)
      constructor
      · intro hin
        rcases mem_append.1 hin with hin | hin
        · exact absurd (hall _ hin) (by decide)
        · exact hl.noLineFeed hin
      · obtain ⟨c, hc⟩ := Option.isSome_iff_exists.1 (getLast?_isSome.2 hne)
        rw [getLast?_append, hc, Option.some_or, ← hc]
        exact hl.noReturn
    · rcases mem_append.1 hm with hm | hm
      · exact ihBelow l hm
      · exact ihAfter l hm

/-! ## The stack is the path of ancestors -/

/-- The open nodes above a node are its ancestors without the root. -/
inductive OnPath : Nat → List Frame → List Standing → Prop
  | root : OnPath 1 [] [.topLevel]
  | child {depth : Nat} {path : List Frame} {ancestors : List Standing} (role : Role)
      (h : OnPath depth path ancestors) :
      OnPath (depth + 1) ({ depth, role } :: path) (role.standing :: ancestors)

namespace OnPath

variable {depth : Nat} {path : List Frame} {ancestors : List Standing}

section

variable (h : OnPath depth path ancestors)

include h

theorem depth_ne_zero : depth ≠ 0 := by
  cases h <;> omega

/-- A node closes none of its ancestors. -/
theorem dropWhile_eq : (path.dropWhile fun f => depth ≤ f.depth) = path := by
  cases h with
  | root => rfl
  | child role h => exact dropWhile_cons_of_neg (by simp)

/-- The next sibling closes a node and all that is open below it. -/
theorem dropWhile_sibling {role : Role} {stack : List Frame}
    (hs : (stack.dropWhile fun f => depth + 1 ≤ f.depth) = { depth, role } :: path) :
    (stack.dropWhile fun f => depth ≤ f.depth) = path := by
  induction stack with
  | nil => simp at hs
  | cons f stack ih =>
    by_cases hf : depth + 1 ≤ f.depth
    · rw [dropWhile_cons_of_pos (by simpa using hf)] at hs
      rw [dropWhile_cons_of_pos (by simp; omega)]
      exact ih hs
    · rw [dropWhile_cons_of_neg (by simpa using hf)] at hs
      obtain ⟨rfl, rfl⟩ := cons.inj hs
      rw [dropWhile_cons_of_pos (by simp)]
      exact h.dropWhile_eq

/-- The open nodes and the root are the ancestors. -/
theorem standings_eq : (path.map Frame.node).map Node.standing ++ [.topLevel] = ancestors := by
  induction h with
  | root => rfl
  | child role _ ih => exact congrArg (role.standing :: ·) ih

theorem ancestorsAt_eq : ancestorsAt (path.map Frame.node) depth = ancestors := by
  have hpar : isParent (path.map Frame.node) depth := by
    cases h with
    | root => rfl
    | child role _ => simp [isParent, Frame.node]
  rw [ancestorsAt, if_pos hpar, h.standings_eq]

end

end OnPath

/-! ## One node -/

/-- What a node does depends on ancestors and label, not on its depth. -/
theorem ofNode_depth (ctx : Context) (line : DumpLine) :
    let deep := Reading.ofNode ancestors ctx { line with depth }
    let own := Reading.ofNode ancestors ctx line
    deep.standing = own.standing ∧ deep.report = own.report ∧ deep.address = own.address ∧
      ∀ position reports, addAt position deep.part.toList reports = addAt position own.part.toList reports := by
  unfold Reading.ofNode
  split
  · exact ⟨rfl, rfl, rfl, fun _ _ => rfl⟩
  split
  · exact ⟨rfl, rfl, rfl, fun _ _ => rfl⟩
  · exact ⟨rfl, rfl, rfl, fun _ _ => rfl⟩
  · exact ⟨rfl, rfl, rfl, fun _ _ => rfl⟩
  · exact ⟨rfl, rfl, rfl, fun _ _ => rfl⟩
  · exact ⟨rfl, rfl, rfl, fun _ _ => rfl⟩
  · refine ⟨rfl, rfl, rfl, ?_⟩
    unfold Reading.nestedPart?
    split
    · exact fun _ _ => rfl
    · exact fun _ _ => rfl
    · exact fun _ _ => rfl

/-- Reading the line of a node does what the tree says of it. -/
theorem OnPath.visit_eq (h : OnPath depth path ancestors) (r : Reader)
    (hs : (r.stack.dropWhile fun f => depth ≤ f.depth) = path) (line : DumpLine) :
    let own := Reading.ofNode ancestors (r.context.enter line) line
    ∃ role : Role, role.Matches own r.reports.length ∧
      r.visit { line with depth } =
        { context := (r.context.enter line).know own.address
          reports := addAt (position? path) own.part.toList r.reports ++ own.report.toList
          stack := { depth, role } :: path } := by
  intro own
  obtain ⟨role, hm, hv⟩ := r.visit_eq { line with depth }
  obtain ⟨hst, hrep, haddr, hp⟩ := ofNode_depth (r.context.enter line) line
  simp only [Reader.reading, Reader.pathTo, hs, h.ancestorsAt_eq, if_neg h.depth_ne_zero] at hm hv
  refine ⟨role, ⟨?_, ?_, ?_⟩, ?_⟩
  · exact hm.standing.trans hst
  · rw [← hst]
    exact hm.position
  · rw [← hst, ← hrep]
    exact hm.reported
  · rw [← haddr, ← hrep, ← hp]
    exact hv

/-! ## All nodes -/

theorem join_context (own : Reading) (inner later : Outcome) : (Outcome.join own inner later).context = later.context := by
  unfold Outcome.join
  split <;> rfl

/-- Adding the parts of a node, below it and after it is adding what it passes on. -/
theorem addAt_join {own : Reading} {role : Role} {reports : List Declaration} (hm : role.Matches own reports.length)
    {position : Option Nat} (hi : ∀ i, position = some i → i < reports.length) (inner later : Outcome) :
    addAt position later.parts (addAt (role.position?.or position) inner.parts
          (addAt position own.part.toList reports ++ own.report.toList) ++ inner.reports) ++ later.reports =
      addAt position (Outcome.join own inner later).parts reports ++ (Outcome.join own inner later).reports := by
  have hi' : ∀ parts i, position = some i → i < (addAt position parts reports).length := by
    intro parts i hpos
    rw [length_addAt]
    exact hi i hpos
  by_cases hc : own.standing.collects
  · obtain ⟨d, hd⟩ := Option.isSome_iff_exists.1 (hm.reported hc)
    have hl := addAt_last inner.parts (addAt position own.part.toList reports) d
    rw [length_addAt] at hl
    simp only [hm.position, hc, if_true, Option.some_or, hd, Option.toList_some, hl, Outcome.join, Option.map_some]
    rw [append_assoc _ [_], addAt_append_left _ _ _ _ (hi' _), addAt_append]
    simp only [append_assoc]
  · have hps : ∀ more, addAt position inner.parts (addAt position own.part.toList reports ++ more) =
        addAt position (own.part.toList ++ inner.parts) reports ++ more := by
      intro more
      rw [addAt_append_left _ _ _ _ (hi' _), addAt_append]
    simp only [hm.position, hc, if_false, Bool.false_eq_true, Option.none_or, hps, Outcome.join]
    rw [append_assoc _ own.report.toList, addAt_append_left _ _ _ _ (hi' _), addAt_append _ _ later.parts]
    simp only [append_assoc]

/-- Reading the lines of sibling nodes does what the tree says of them. -/
theorem foldl_visit_dumpLines (h : OnPath depth path ancestors) (r : Reader)
    (hs : (r.stack.dropWhile fun f => depth ≤ f.depth) = path) (hi : ∀ i, position? path = some i → i < r.reports.length) :
    let out := forest.read ancestors r.context
    ∃ stack, (stack.dropWhile fun f => depth ≤ f.depth) = path ∧
      (forest.dumpLines depth).foldl Reader.visit r =
        { context := out.context, reports := addAt (position? path) out.parts r.reports ++ out.reports, stack } := by
  induction forest generalizing depth path ancestors r with
  | empty => exact ⟨r.stack, hs, by simp [Forest.dumpLines, Forest.read, addAt_nil]⟩
  | node label below after ihBelow ihAfter =>
    obtain ⟨role, hm, hv⟩ := h.visit_eq r hs (labelLine label)
    have hp := OnPath.child role h
    rw [hm.standing] at hp
    have hiBelow : ∀ i, position? ({ depth, role } :: path) = some i →
        i < (r.visit { labelLine label with depth }).reports.length := by
      intro i hpos
      rw [hv]
      simp only [length_append, length_addAt]
      rw [position?_cons, hm.position] at hpos
      split at hpos
      · rename_i hc
        obtain ⟨d, hd⟩ := Option.isSome_iff_exists.1 (hm.reported hc)
        simp only [Option.some_or, Option.some.injEq] at hpos
        simp only [hd, Option.toList_some, length_singleton]
        omega
      · have := hi i hpos
        omega
    obtain ⟨stack₂, hs₂, hf₂⟩ := ihBelow hp (r.visit { labelLine label with depth })
      (by rw [hv]; exact hp.dropWhile_eq) hiBelow
    have hiAfter : ∀ i, position? path = some i →
        i < ((below.dumpLines (depth + 1)).foldl Reader.visit (r.visit { labelLine label with depth })).reports.length := by
      intro i hpos
      have := hi i hpos
      rw [hf₂, hv]
      simp only [length_append, length_addAt]
      omega
    obtain ⟨stack₃, hs₃, hf₃⟩ := ihAfter h _ (by rw [hf₂]; exact h.dropWhile_sibling hs₂) hiAfter
    refine ⟨stack₃, hs₃, ?_⟩
    rw [Forest.dumpLines, foldl_cons, foldl_append, hf₃, hf₂, hv]
    simp only [Forest.read, join_context, position?_cons, ← addAt_join hm hi]

/-- The line of the root only names the current file, and leaves no open node. -/
theorem visit_root (ctx : Context) (line : DumpLine) :
    Reader.visit { context := ctx } { line with depth := 0 } = { context := ctx.enter line } := rfl

/-- Reading a dump gives the declarations of the tree that it shows. -/
theorem declarations_of_dump {t : Tree} {dump : Text} (h : t.IsDump dump) (origins : Option (List Path)) :
    declarations origins dump = t.declarations origins := by
  obtain ⟨lines, hsh, hwr⟩ := h
  unfold declarations
  rw [lines_of_written hwr (lineEnds_of_shows hsh), filterMap_read?_shows hsh]
  simp only [Forest.dumpLines, append_nil, foldl_cons, visit_root]
  obtain ⟨stack, _, hf⟩ := foldl_visit_dumpLines .root
    { context := ({ origins := origins.map (·.filterMap Path.fileName?) } : Context).enter (labelLine t.root) } rfl
    (by simp [position?])
  rw [hf]
  rfl

end Dump

end Declass
