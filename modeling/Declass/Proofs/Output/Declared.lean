import Declass.Output.Batch
import Declass.Program.Build
import Declass.Proofs.Output.Document
import Declass.Proofs.Output.Order
import Declass.Proofs.Program.Names

/-!
# Types before their uses

Main statements: the type of a member is introduced before it if and only if its class comes earlier in the order
(`Program.memberTypes_introduced_iff`), and the order holds every class once, each after all that it embeds
(`orderedClasses_topological`).
-/

namespace Declass

open Document List

open Text (unlines)

variable {name : Text}

/-! ## Lines of a document -/

/-- The lines of an item that is not an empty line. -/
def Item.lines : Item → List Text
  | .line text => [text]
  | .blank => []
  | .block head body foot => head :: body.map (indented 1) ++ [foot]

namespace Document

theorem emit_eq {item : Item} (h : item ≠ .blank) (out : Text) : emit out item = out ++ unlines item.lines := by
  cases item with
  | line text => simp [emit, addLine_eq, indented, Item.lines, unlines]
  | blank => exact absurd rfl h
  | block head body foot =>
    simp only [emit, foldl_addLine, addLine_eq]
    simp [Item.lines, unlines, indented]

theorem emit_blank (out : Text) : emit out .blank = out ∨ emit out .blank = out ++ ['\n'] := by
  simp only [emit]
  split
  · exact .inl rfl
  · exact .inr rfl

/-- A document adds its items' lines, and empty lines between them. -/
theorem exists_written (d : Document) (out : Text) :
    ∃ ls, d.foldl emit out = out ++ unlines ls ∧ ∀ l, l ≠ [] → (l ∈ ls ↔ l ∈ d.flatMap Item.lines) := by
  induction d generalizing out with
  | nil => exact ⟨[], by simp [unlines], by simp⟩
  | cons item d ih =>
    obtain ⟨ls, hls, hmem⟩ := ih (emit out item)
    by_cases hi : item = .blank
    · subst hi
      rcases emit_blank out with hout | hout
      · refine ⟨ls, ?_, by simpa [Item.lines] using hmem⟩
        rw [foldl_cons, hls, hout]
      · refine ⟨[] :: ls, ?_, ?_⟩
        · rw [foldl_cons, hls, hout, append_assoc]
          rfl
        · intro l hl
          simpa [Item.lines, hl] using hmem l hl
    · refine ⟨item.lines ++ ls, ?_, ?_⟩
      · rw [foldl_cons, hls, emit_eq hi, append_assoc, unlines, unlines, unlines, flatMap_append]
      · intro l hl
        rw [mem_append, flatMap_cons, mem_append, hmem l hl]

variable {c : Char}

/-- A document whose last line is not empty ends with one line feed. -/
theorem render_concat (d : Document) (text : Text) (hc : c ≠ '\n') :
    render (d ++ [Item.line (text ++ [c])]) = (d ++ [Item.line (text ++ [c])]).foldl emit [] := by
  have hl : (d ++ [Item.line (text ++ [c])]).foldl emit [] = (d.foldl emit [] ++ text) ++ [c] ++ ['\n'] := by
    rw [foldl_append, foldl_cons, emit_eq (by simp)]
    simp [Item.lines, unlines]
  have hd (t : Text) : Text.dropEndWhile (· = '\n') (t ++ [c] ++ ['\n']) = t ++ [c] := by
    simp [Text.dropEndWhile, hc]
  rw [render, trimEndLines, hl, if_pos (by simp), hd]
  rfl

/-- The lines before an item are those of the items before it. -/
theorem exists_render_split (before after : Document) (item : Item) (hi : item ≠ .blank) (text : Text) (hc : c ≠ '\n') :
    ∃ ls more, render (before ++ item :: (after ++ [Item.line (text ++ [c])])) = unlines (ls ++ item.lines ++ more) ∧
      ∀ l, l ≠ [] → (l ∈ ls ↔ l ∈ before.flatMap Item.lines) := by
  obtain ⟨ls, hls, hmem⟩ := exists_written before []
  obtain ⟨more, hm, -⟩ := exists_written (after ++ [Item.line (text ++ [c])]) (emit (unlines ls) item)
  refine ⟨ls, more, ?_, hmem⟩
  rw [← cons_append, ← append_assoc, render_concat _ _ hc, append_assoc, foldl_append, hls,
    nil_append, cons_append, foldl_cons, hm, emit_eq hi]
  simp [unlines]

end Document

/-! ## Lines that introduce types -/

/-- The last line of a type, which introduces its name. -/
def typedefEnd (name : Text) : Text :=
  "\x7d " ++ name ++ ";"

namespace Item

/-- None of the item's lines ends a type definition. -/
def EndsNone (i : Item) : Prop :=
  ∀ l ∈ i.lines, l.head? ≠ some '\x7d'

theorem EndsNone.typedefEnd_notMem {d : Document} (h : ∀ i ∈ d, i.EndsNone) : typedefEnd name ∉ d.flatMap lines := by
  intro hmem
  obtain ⟨i, hi, hl⟩ := mem_flatMap.1 hmem
  exact h i hi _ hl rfl

variable {head : Text}

/-- The lines of a block before its last one introduce no name. -/
theorem typedefEnd_notMem_body (hh : head.head? ≠ some '\x7d') (body : List Text) :
    typedefEnd name ∉ head :: body.map (indented 1) := by
  intro hmem
  rcases mem_cons.1 hmem with heq | hmem
  · exact hh (heq ▸ rfl)
  · obtain ⟨line, -, hl⟩ := mem_map.1 hmem
    cases line with
    | nil | cons => nomatch hl

/-- A block that ends a type definition introduces one name. -/
theorem typedefEnd_mem_block (hh : head.head? ≠ some '\x7d') (body : List Text) (name other : Text) :
    typedefEnd name ∈ (block head body (typedefEnd other)).lines ↔ name = other := by
  rw [lines, mem_append, or_iff_right (typedefEnd_notMem_body hh body)]
  simp [typedefEnd]

/-- Each of some type definitions introduces its own name. -/
theorem typedefEnd_mem_flatMap {α : Type} (xs : List α) {item : α → Item} {nameOf : α → Text}
    (h : ∀ x name, typedefEnd name ∈ (item x).lines ↔ name = nameOf x) :
    typedefEnd name ∈ (xs.flatMap fun x => [item x, .blank]).flatMap lines ↔ name ∈ xs.map nameOf := by
  induction xs with
  | nil => simp
  | cons x xs ih =>
    rw [flatMap_cons, flatMap_append, mem_append, ih, map_cons, mem_cons, ← h x name]
    simp [lines]

end Item

namespace Program

variable {p : Program} {c : Class} {k : Nat}

/-- The items of a header before its structures, enumerations apart. -/
def preamble (o : OutputOptions) (source stem : Text) : Document :=
  banner source ++ [Item.line ("#ifndef " ++ guardName stem),
    Item.line ("#define " ++ guardName stem), Item.blank] ++ standardIncludes ++ [Item.blank] ++
    xtalDefault o ++ [Item.blank]

theorem endsNone_preamble (o : OutputOptions) (source stem : Text) : ∀ i ∈ preamble o source stem, i.EndsNone := by
  have hgd : ∀ i ∈ [Item.line ("#ifndef " ++ guardName stem), .line ("#define " ++ guardName stem), .blank], i.EndsNone := by
    simp [Item.EndsNone, Item.lines]
  have hban : ∀ i ∈ banner source, i.EndsNone := by
    simp [banner, Item.EndsNone, Item.lines]
  have hincludes : ∀ i ∈ standardIncludes, i.EndsNone := by
    simp [standardIncludes, Item.EndsNone, Item.lines]
  have hclock : ∀ i ∈ xtalDefault o, i.EndsNone := by
    simp [xtalDefault, Item.EndsNone, Item.lines]
  have hbl : ∀ i ∈ [Item.blank], i.EndsNone := by
    simp [Item.EndsNone, Item.lines]
  simp only [preamble, forall_mem_append]
  exact ⟨⟨⟨⟨⟨hban, hgd⟩, hincludes⟩, hbl⟩, hclock⟩, hbl⟩

theorem typedefEnd_mem_enumTypes : typedefEnd name ∈ p.enumTypes.flatMap Item.lines ↔ name ∈ p.enums.map Enumeration.name :=
  Item.typedefEnd_mem_flatMap p.enums (fun e name => Item.typedefEnd_mem_block (by decide) _ name e.name)

theorem typedefEnd_mem_structs (cs : List Class) :
    typedefEnd name ∈ (cs.flatMap fun c => [p.structTypedef c, .blank]).flatMap Item.lines ↔ name ∈ cs.map Class.name :=
  Item.typedefEnd_mem_flatMap cs (fun c name => Item.typedefEnd_mem_block (by simp) _ name c.name)

/-- What stands around a structure in a header. -/
theorem exists_header_split (o : OutputOptions) (source stem : Text) {before after : List Class}
    (h : p.orderedClasses = before ++ c :: after) : ∃ ls more, (guarded source stem (p.declarationPart o)).render =
        unlines (ls ++ (p.structTypedef c).lines ++ more) ∧
      ∀ name, typedefEnd name ∈ ls ↔ name ∈ p.enums.map Enumeration.name ∨ name ∈ before.map Class.name := by
  have hstructs : p.structTypes = (before.flatMap fun c => [p.structTypedef c, .blank]) ++
      p.structTypedef c :: .blank :: after.flatMap fun c => [p.structTypedef c, .blank] := by
    rw [structTypes, h, flatMap_append]
    rfl
  obtain ⟨ls, more, hren, hmem⟩ := exists_render_split
    (preamble o source stem ++ p.enumTypes ++ before.flatMap fun c => [p.structTypedef c, Item.blank])
    ((Item.blank :: after.flatMap fun c => [p.structTypedef c, Item.blank]) ++
      p.orderedClasses.flatMap (fun c => p.classPrototypes c ++ [Item.blank]) ++ p.functionPrototypes ++ [Item.blank] ++
      p.externGlobals ++ [Item.blank])
    (p.structTypedef c) (by simp [structTypedef]) ("#endif /* " ++ guardName stem ++ " *")
    (c := '/') (by decide)
  refine ⟨ls, more, ?_, ?_⟩
  · rw [← hren]
    simp only [guarded, declarationPart, hstructs, preamble]
    simp
  · intro name
    rw [hmem _ (by simp [typedefEnd]), flatMap_append, flatMap_append, mem_append, mem_append,
      typedefEnd_mem_structs, typedefEnd_mem_enumTypes]
    simp only [Item.EndsNone.typedefEnd_notMem (endsNone_preamble o source stem), false_or]

/-! ## Members -/

/-- A class type is a class of the program and no enumeration. -/
theorem class?_of_className? {spelling name : Text} (h : (p.ctype spelling).className? = some name) :
    name ∉ p.enums.map Enumeration.name ∧ ∃ d, p.class? name = some d := by
  have hcat : TypeCategory.ofBase p.typeEnv (Spelling.base spelling) = .userClass name := by
    unfold CType.className? at h
    split at h
    next other hoth =>
      cases h
      exact hoth
    · nomatch h
  unfold TypeCategory.ofBase at hcat
  split_ifs at hcat with _ _ _ _ _ _ henum hcls
  cases hcat
  refine ⟨by simpa [typeEnv] using henum, ?_⟩
  have hfd : (p.class? (Spelling.base spelling)).isSome := by
    simpa [class?, typeEnv] using hcls
  exact Option.isSome_iff_exists.1 hfd

/-- The member lines follow the first line in the order of fields. -/
theorem getElem?_lines_structTypedef {v : Var} (h : c.fields[k]? = some v) :
    (p.structTypedef c).lines[k + 1]? = some (indented 1 ((p.ctype v.type).declare v.name ++ ";")) := by
  have hk := (List.getElem?_eq_some_iff.1 h).1
  have hfields : c.fields.isEmpty = false := by
    cases hc : c.fields with
    | nil => simp [hc] at hk
    | cons v vs => rfl
  simp only [structTypedef, memberLines, hfields, Item.lines]
  rw [getElem?_append_left (by simpa using hk)]
  simp [h]

/-- No line before the last one of a structure introduces a type. -/
theorem typedefEnd_notMem_take (hk : k < c.fields.length) (name : Text) :
    typedefEnd name ∉ (p.structTypedef c).lines.take (k + 1) := by
  have hlen : k + 1 ≤ (("typedef struct " ++ c.name ++ " \x7b") :: (p.memberLines c).map (indented 1)).length := by
    have hmems : c.fields.length ≤ (p.memberLines c).length := by
      unfold memberLines
      split
      next hemp => simp [List.isEmpty_iff.1 hemp]
      · simp
    simpa using Nat.le_trans (Nat.le_of_lt hk) hmems
  intro hmem
  rw [structTypedef, Item.lines, take_append_of_le_length hlen] at hmem
  exact Item.typedefEnd_notMem_body (by simp) _ (mem_of_mem_take hmem)

/-- In the header of a unit or of a batch, the type of a member of class `c` is introduced before it if and only if its class
comes before `c` in the order; that of a member that is no pointer always is. -/
theorem memberTypes_introduced_iff (p : Program) (hnames : (p.classes.map Class.name).Nodup)
    (hacyclic : p.EmbeddingAcyclic) (o : OutputOptions) (stem source : Text) (inputs : List Path) (header : GeneratedFile)
    (hheader : (p.generateUnit o stem source).head? = some header ∨ (p.generateBatch o inputs).head? = some header)
    (c : Class) (hc : c ∈ p.classes) :
    ∃ before after ls more, p.orderedClasses = before ++ c :: after ∧
      header.contents = unlines (ls ++ (p.structTypedef c).lines ++ more) ∧
      ∀ k v name, c.fields[k]? = some v → (p.ctype v.type).className? = some name →
        (p.structTypedef c).lines[k + 1]? = some (indented 1 ((p.ctype v.type).declare v.name ++ ";")) ∧
        (typedefEnd name ∈ ls ++ (p.structTypedef c).lines.take (k + 1) ↔ name ∈ before.map Class.name) ∧
        ((p.ctype v.type).isPointer = false → name ∈ before.map Class.name) := by
  obtain ⟨before, after, horder⟩ := append_of_mem ((orderedClasses_perm hnames).mem_iff.mpr hc)
  obtain ⟨headerSource, headerStem, hdocument⟩ : ∃ headerSource headerStem,
      header.document = guarded headerSource headerStem (p.declarationPart o) := by
    rcases hheader with hheader | hheader
    · cases hheader
      exact ⟨_, _, rfl⟩
    · cases hheader
      exact ⟨_, _, rfl⟩
  obtain ⟨ls, more, hrender, hmem⟩ := p.exists_header_split o headerSource headerStem horder
  refine ⟨before, after, ls, more, horder, by rw [GeneratedFile.contents, hdocument, hrender], ?_⟩
  intro k v name hv hname
  obtain ⟨henum, d, hd⟩ := class?_of_className? hname
  refine ⟨p.getElem?_lines_structTypedef hv, ?_, ?_⟩
  · rw [mem_append, hmem]
    have hk := (List.getElem?_eq_some_iff.mp hv).1
    simp only [henum, p.typedefEnd_notMem_take hk name, false_or, or_false]
  · intro hvalue
    have hembedded : d ∈ p.embedded c := by
      refine mem_filterMap.mpr ⟨v, mem_of_getElem? hv, ?_⟩
      simp [hvalue, hname, hd]
    refine mem_map.mpr ⟨d, orderedClasses_embedded hnames hacyclic before c after horder hembedded, ?_⟩
    simpa using find?_some hd

/-- A node that points to its successor and embeds a cell. -/
def nodeDeclarations : List Declaration :=
  [.record "Node" .classWord none, .field "Node" ⟨"next", "Node *"⟩, .field "Node" ⟨"value", "Cell"⟩,
    .field "Node" ⟨"spare", "Cell &"⟩, .record "Cell" .classWord none, .field "Cell" ⟨"home", "Node *"⟩]

/-- The program of the node and its cell. -/
def nodeProgram : Program :=
  { classes :=
      [{ name := "Node", keyword := .classWord, fields := [⟨"next", "Node *"⟩, ⟨"value", "Cell"⟩, ⟨"spare", "Cell &"⟩] },
        { name := "Cell", keyword := .classWord, fields := [⟨"home", "Node *"⟩] }] }

theorem nodup_classes_nodeProgram : (nodeProgram.classes.map Class.name).Nodup := by
  decide +kernel

theorem embeddingAcyclic_nodeProgram : nodeProgram.EmbeddingAcyclic :=
  .of_rank (fun name => if name = "Node" then 1 else 0) (by decide +kernel)

theorem memberTypes_introduced_iff_nodeProgram :
    ∃ header c before after ls more, (nodeProgram.generateUnit {} "node" "node.cpp").head? = some header ∧
      c ∈ nodeProgram.classes ∧ c.name = "Node".toList ∧ nodeProgram.orderedClasses = before ++ c :: after ∧
      header.contents = unlines (ls ++ (nodeProgram.structTypedef c).lines ++ more) ∧
      ∀ k v name, c.fields[k]? = some v → (nodeProgram.ctype v.type).className? = some name →
        (nodeProgram.structTypedef c).lines[k + 1]? =
          some (indented 1 ((nodeProgram.ctype v.type).declare v.name ++ ";")) ∧
        (typedefEnd name ∈ ls ++ (nodeProgram.structTypedef c).lines.take (k + 1) ↔ name ∈ before.map Class.name) ∧
        ((nodeProgram.ctype v.type).isPointer = false → name ∈ before.map Class.name) := by
  obtain ⟨before, after, ls, more, h⟩ := memberTypes_introduced_iff nodeProgram nodup_classes_nodeProgram
    embeddingAcyclic_nodeProgram {} "node" "node.cpp" [] _ (.inl rfl) _ mem_cons_self
  exact ⟨_, _, before, after, ls, more, rfl, mem_cons_self, rfl, h⟩

/-- A pointer to the class itself is written before the name of its type is introduced. -/
theorem pointer_member_before_typedef :
    (absorbAll {} nodeDeclarations).finish = .ok nodeProgram ∧ nodeProgram.EmbeddingAcyclic ∧
      ∃ header, (nodeProgram.generateUnit {} "node" "node.cpp").head? = some header ∧
        "    Node* next;".toList ∈ Text.lines header.contents ∧
        typedefEnd "Node" ∉ (Text.lines header.contents).takeWhile (· ≠ "    Node* next;".toList) := by
  refine ⟨by decide +kernel, embeddingAcyclic_nodeProgram, _, rfl, ?_⟩
  decide +kernel

end Program

open List

namespace Program

variable {p : Program} {c d : Class}

/-- The visits of classes one after the other, to any depth. -/
inductive Visits (p : Program) : Visited → List Class → Visited → Prop where
  | nil (v : Visited) : Visits p v [] v
  | met {v w : Visited} {c : Class} {cs : List Class} (hc : c.name ∈ v.seen) (hcs : Visits p v cs w) : Visits p v (c :: cs) w
  | unmet {u v w : Visited} {c : Class} {cs : List Class} (hc : c.name ∉ v.seen)
      (hfields : Visits p { v with seen := c.name :: v.seen } (p.embedded c) u)
      (hcs : Visits p { u with order := u.order ++ [c] } cs w) : Visits p v (c :: cs) w

/-- Visits with enough room for the unmet classes are of any depth. -/
theorem visits_foldl (depth : Nat) {v : Visited} {cs : List Class} (hcs : cs ⊆ p.classes) (hlim : v.unmet p < depth) :
    p.Visits v cs (cs.foldl (p.visitClass depth) v) := by
  induction depth generalizing v cs with
  | zero => nomatch hlim
  | succ depth ih =>
    induction cs generalizing v with
    | nil => exact .nil v
    | cons c cs ihcs =>
      obtain ⟨hc, hcs⟩ := cons_subset.1 hcs
      have hrest := ihcs hcs (Nat.lt_of_le_of_lt (grows_visitClass (depth + 1) v c hc).unmet_le hlim)
      rw [foldl_cons]
      rw [visitClass] at hrest ⊢
      split at hrest
      next hse => exact .met (by simpa using hse) (by rwa [if_pos hse])
      next hse =>
        have hnew : c.name ∉ v.seen := by simpa using hse
        rw [if_neg hse]
        refine .unmet hnew (ih (fun d hd => mem_classes_of_embedded hd) ?_) hrest
        exact Nat.lt_of_lt_of_le (unmet_cons_lt hc hnew) (Nat.le_of_lt_succ hlim)

/-- A class has a field of the other class, or an array of it. -/
def Embeds (p : Program) (c d : Class) : Prop :=
  d ∈ p.classes ∧ ∃ v ∈ c.fields, (p.ctype v.type).category = .userClass d.name ∧ (p.ctype v.type).pointer = 0

theorem embeds_iff (hnames : (p.classes.map Class.name).Nodup) : p.Embeds c d ↔ d ∈ p.embedded c := by
  have hfound : d ∈ p.classes ↔ p.class? d.name = some d := by
    refine ⟨fun hd => ?_, mem_of_find?_eq_some⟩
    obtain ⟨e, he⟩ := Option.isSome_iff_exists.1 (find?_isSome.2 ⟨d, hd, decide_eq_true rfl⟩ :
      (p.class? d.name).isSome = true)
    rwa [inj_on_of_nodup_map hnames (mem_of_find?_eq_some he) hd (by simpa using find?_some he)] at he
  simp only [embedded, mem_filterMap, CType.isPointer, CType.className?, decide_eq_true_eq]
  constructor
  · rintro ⟨hd, v, hv, htype, hvalue⟩
    refine ⟨v, hv, ?_⟩
    rw [if_neg (by omega), htype]
    exact hfound.1 hd
  · rintro ⟨v, hv, hd⟩
    split at hd
    · cases hd
    · rename_i hvalue
      obtain ⟨name, hname, hclass⟩ := Option.bind_eq_some_iff.1 hd
      split at hname
      · rename_i htype
        cases hname
        have hsame : d.name = name := by simpa using find?_some hclass
        exact ⟨mem_of_find?_eq_some hclass, v, hv, by rw [htype, hsame], by omega⟩
      · cases hname

theorem embeddingAcyclic_iff (hnames : (p.classes.map Class.name).Nodup) :
    p.EmbeddingAcyclic ↔ ∀ c, ¬Relation.TransGen p.Embeds c c := by
  have hrel : p.Embeds = fun a b => b ∈ p.embedded a := funext fun _ => funext fun _ => propext (embeds_iff hnames)
  rw [hrel]
  rfl

/-- The classes of a finished program are written each once, and after all that they embed when none embeds itself. -/
theorem orderedClasses_topological (ds : List Declaration) (p : Program) (h : (absorbAll {} ds).finish = .ok p) :
    (∃ w, p.Visits {} p.classes w ∧ w.order = p.orderedClasses) ∧ p.orderedClasses.Perm p.classes ∧
      p.orderedClasses.Nodup ∧
      ((∀ c, ¬Relation.TransGen p.Embeds c c) → ∀ before c after, p.orderedClasses = before ++ c :: after →
        ∀ d, Relation.TransGen p.Embeds c d → d ∈ before) := by
  have hnames := (finished_of_finish (Keyed.empty.absorbAll ds) h).classes
  have hperm := orderedClasses_perm hnames
  refine ⟨⟨_, visits_foldl _ (Subset.refl _) (Nat.lt_succ_of_le countP_le_length), rfl⟩, hperm,
    hperm.nodup_iff.2 (List.Nodup.of_map _ hnames), ?_⟩
  intro hacyclic before c after horder d hd
  have hfirst := orderedClasses_embedded hnames ((embeddingAcyclic_iff hnames).2 hacyclic)
  induction hd with
  | single hd => exact hfirst before c after horder ((embeds_iff hnames).1 hd)
  | tail _ hd ih =>
    obtain ⟨first, rest, hsplit⟩ := append_of_mem ih
    have hmem := hfirst first _ (rest ++ c :: after) (by rw [horder, hsplit]; simp) ((embeds_iff hnames).1 hd)
    rw [hsplit]
    exact mem_append_left _ hmem

/-- The cell of a list node is written before the node. -/
theorem orderedClasses_topological_nodeProgram :
    ∃ before node after cell, nodeProgram.orderedClasses = before ++ node :: after ∧ nodeProgram.Embeds node cell ∧
      cell ∈ before := by
  obtain ⟨-, -, -, hfirst⟩ := orderedClasses_topological nodeDeclarations nodeProgram (by decide +kernel)
  have hembeds : nodeProgram.Embeds nodeProgram.classes[0] nodeProgram.classes[1] :=
    ⟨by simp, ⟨"value", "Cell"⟩, by decide +kernel, by decide +kernel, by decide +kernel⟩
  have horder : nodeProgram.orderedClasses = [nodeProgram.classes[1]] ++ nodeProgram.classes[0] :: [] := by decide +kernel
  refine ⟨_, _, _, _, horder, hembeds, hfirst ?_ _ _ _ horder _ (.single hembeds)⟩
  exact (embeddingAcyclic_iff nodup_classes_nodeProgram).1 embeddingAcyclic_nodeProgram

end Program

end Declass
