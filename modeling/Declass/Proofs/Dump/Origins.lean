import Declass.Proofs.Dump.Step
import Declass.Proofs.Dump.WellFormed
import Mathlib.Data.List.Induction
import Mathlib.Data.List.TakeWhile

/-!
# Restricting a dump to some files

A dump read with fewer wanted files is read in step with the same dump read with more. They differ only below a declaration that
the narrower reading passes over (`Strays`), so whole declarations are removed (`declarations_sublist_of_origins`).
-/

namespace Declass

open List

namespace Dump

variable {path : List Node}

/-- The node gives nothing to the nodes below it. -/
def Standing.isIdle : Standing → Bool
  | ignored | other => true
  | _ => false

variable {s : Standing} {ctx : Context} {line : DumpLine} {stack : List Frame} {r : Reader} {t : Track} {own : Reading}
  {role : Role} (origins : Option (List Path))

theorem Standing.isIdle_eq_false (h : s.collects) : s.isIdle = false := by
  cases s with
  | callable => rfl
  | constant => rfl
  | _ => cases h

/-- A node that gives something to nodes below it is in none that collects parts. -/
def Node.Clear (inner outer : Node) : Prop :=
  inner.standing.isIdle = false → outer.standing.collects = false

/-- One of the open nodes collects parts. -/
def collecting (path : List Node) : Bool :=
  path.any (·.standing.collects)

theorem collecting_cons (n : Node) : collecting (n :: path) = (n.standing.collects || collecting path) := rfl

/-- The nodes that stay open at a line `depth` levels deep. -/
def openAt (path : List Node) (depth : Nat) : List Node :=
  path.dropWhile fun n => depth ≤ n.depth

theorem openAt_cons (n : Node) (depth : Nat) :
    openAt (n :: path) depth = if depth ≤ n.depth then openAt path depth else n :: path := by
  simp [openAt, dropWhile_cons]

theorem openAt_sublist (depth : Nat) : (openAt path depth).Sublist path :=
  dropWhile_sublist _

/-- A reader that holds the report of the open callable or constant apart. -/
structure Track where
  context : Context
  path : List Node := []
  finished : List Declaration := []
  pending : Option Declaration := none

namespace Track

/-- All reports. -/
def reports (t : Track) : List Declaration :=
  t.finished ++ t.pending.toList

/-- The track at `depth`, where reports of closed nodes are finished. -/
def close (t : Track) (depth : Nat) : Track :=
  let path := openAt t.path depth
  if collecting path then { t with path } else { t with path, finished := t.reports, pending := none }

/-- What a line does at the open nodes. -/
def reading (t : Track) (line : DumpLine) : Reading :=
  .ofNode (ancestorsAt t.path line.depth) (t.context.enter line) line

/-- The track after a line that does `own`. -/
def take (t : Track) (line : DumpLine) (own : Reading) : Track where
  context := (t.context.enter line).know own.address
  path := if line.depth = 0 then [] else { depth := line.depth, standing := own.standing } :: t.path
  finished := if own.standing.collects then t.finished else t.finished ++ own.report.toList
  pending := if own.standing.collects then own.report else t.pending.map (Part.addAll own.part.toList)

/-- The track after a line. -/
def visit (t : Track) (line : DumpLine) : Track :=
  (t.close line.depth).take line ((t.close line.depth).reading line)

/-- The track after some lines. -/
def ofLines (origins : Option (List Path)) (lines : List DumpLine) : Track :=
  lines.foldl visit { context := { origins := origins.map (·.filterMap Path.fileName?) } }

theorem ofLines_concat (lines : List DumpLine) (line : DumpLine) :
    ofLines origins (lines ++ [line]) = (ofLines origins lines).visit line := by
  simp [ofLines]

variable {t : Track} {depth : Nat}

/-- The node of the open report is not closed. -/
theorem close_of_collecting (h : collecting (openAt t.path depth)) :
    t.close depth = { t with path := openAt t.path depth } :=
  if_pos h

/-- No report is open any more. -/
theorem close_of_not_collecting (h : collecting (openAt t.path depth) = false) :
    t.close depth = { t with path := openAt t.path depth, finished := t.reports, pending := none } :=
  if_neg (Bool.eq_false_iff.1 h)

@[simp]
theorem path_close : (t.close depth).path = openAt t.path depth := by
  unfold close
  dsimp only
  split <;> rfl

@[simp]
theorem context_close : (t.close depth).context = t.context := by
  unfold close
  dsimp only
  split <;> rfl

@[simp]
theorem reports_close : (t.close depth).reports = t.reports := by
  unfold close
  dsimp only
  split
  · rfl
  · exact append_nil _

/-- No report is open where no node collects parts. -/
theorem pending_close (h : collecting (t.close depth).path = false) : (t.close depth).pending = none := by
  rw [path_close] at h
  rw [close_of_not_collecting h]

/-- The node of a line that is not at the margin is open below the others. -/
theorem path_take {line : DumpLine} (h : line.depth ≠ 0) :
    (t.take line own).path = { depth := line.depth, standing := own.standing } :: t.path :=
  if_neg h

/-- At the margin all nodes are closed. -/
theorem path_close_zero : (t.close 0).path = [] := by
  rw [path_close, openAt]
  simp

end Track

/-! ## What declares something -/

/-- A line that opens or reports something has a parent that looks at it. -/
theorem parent_of_ofNode {ancestors : List Standing} (h : (Reading.ofNode ancestors ctx line).standing.isIdle = false ∨
      (Reading.ofNode ancestors ctx line).report.isSome) :
    (∃ s, ancestors.head? = some s ∧ s.isIdle = false ∧ s.collects = false) ∧
      (Reading.ofNode ancestors ctx line).part = none := by
  rcases ofNode_cases ancestors ctx line with hown | ⟨part, hown⟩ | ⟨hh, hown⟩ | ⟨name, hh, hown⟩ | ⟨name, hh, hown⟩
  · rw [hown] at h
    rcases h with h | h <;> cases h
  · rw [hown] at h
    rcases h with h | h <;> cases h
  · rw [hown]
    exact ⟨⟨_, hh, rfl, rfl⟩, rfl⟩
  · rw [hown]
    exact ⟨⟨_, hh, rfl, rfl⟩, rfl⟩
  · rw [hown]
    exact ⟨⟨_, hh, rfl, rfl⟩, rfl⟩

/-- Below a parent that looks at its children, no callable or constant is open. -/
theorem collecting_eq_false {path : List Node} (hclr : path.Pairwise Node.Clear) {depth : Nat}
    (hh : (ancestorsAt path depth).head? = some s) (hid : s.isIdle = false) (hco : s.collects = false) :
    collecting path = false := by
  cases path with
  | nil => rfl
  | cons n path =>
    unfold ancestorsAt at hh
    split at hh
    · cases hh
      rw [collecting_cons, hco, Bool.false_or, collecting, any_eq_false]
      intro outer hout
      exact Bool.eq_false_iff.1 (rel_of_pairwise_cons hclr hout hid)
    · cases hh
      cases hid

/-! ## Readers and tracks -/

theorem position?_append (inner outer : List Frame) : position? (inner ++ outer) = (position? inner).or (position? outer) :=
  findSome?_append

/-- A position is held by a node that collects parts. -/
theorem position?_eq_none_iff : position? stack = none ↔ collecting (stack.map Frame.node) = false := by
  induction stack with
  | nil => exact ⟨fun _ => rfl, fun _ => rfl⟩
  | cons f stack ih =>
    obtain ⟨depth, role⟩ := f
    rw [position?_cons, Option.or_eq_none_iff, ih, map_cons, collecting_cons]
    cases role <;> simp [Role.position?, Frame.node, Role.standing, Standing.collects]

/-- The track has the reader's open nodes and reports, and the open report's position. -/
structure Agrees (r : Reader) (t : Track) : Prop where
  context : r.context = t.context
  path : r.stack.map Frame.node = t.path
  reports : r.reports = t.reports
  position : position? r.stack = t.pending.map fun _ => t.finished.length
  clear : t.path.Pairwise Node.Clear

/-- The position that remains when nodes are closed was held before. -/
theorem position?_dropWhile (hclr : (stack.map Frame.node).Pairwise Node.Clear) {p : Frame → Bool}
    (h : collecting ((stack.dropWhile p).map Frame.node)) : position? (stack.dropWhile p) = position? stack := by
  have hspl : stack.takeWhile p ++ stack.dropWhile p = stack := takeWhile_append_dropWhile
  obtain ⟨outer, hout, hco⟩ := any_eq_true.1 h
  have hin : position? (stack.takeWhile p) = none := by
    rw [position?_eq_none_iff, collecting, any_eq_false]
    intro inner hin hinnerCollects
    rw [← hspl, map_append, pairwise_append] at hclr
    rw [hclr.2.2 inner hin outer hout (Standing.isIdle_eq_false hinnerCollects)] at hco
    cases hco
  calc position? (stack.dropWhile p)
      = (position? (stack.takeWhile p)).or (position? (stack.dropWhile p)) := by rw [hin, Option.none_or]
    _ = position? (stack.takeWhile p ++ stack.dropWhile p) := (position?_append _ _).symm
    _ = position? stack := by rw [hspl]

section

variable (h : Agrees r t)

include h

theorem Agrees.close (depth : Nat) : Agrees { r with stack := r.stack.dropWhile fun f => depth ≤ f.depth } (t.close depth) := by
  have hp : (r.stack.dropWhile fun f => depth ≤ f.depth).map Frame.node = (t.close depth).path := by
    rw [t.path_close, openAt, ← h.path, dropWhile_map]
    rfl
  refine ⟨?_, hp, ?_, ?_, ?_⟩
  · rw [t.context_close]
    exact h.context
  · rw [t.reports_close]
    exact h.reports
  · have hclr := h.clear
    rw [← h.path] at hclr
    rw [t.path_close] at hp
    cases hco : collecting (openAt t.path depth) with
    | true =>
      rw [Track.close_of_collecting hco, ← h.position]
      exact position?_dropWhile hclr (hp ▸ hco)
    | false =>
      rw [Track.close_of_not_collecting hco]
      exact position?_eq_none_iff.2 (hp ▸ hco)
  · rw [t.path_close]
    exact h.clear.sublist (openAt_sublist depth)

/-- A line that opens or reports something stands in no callable or constant. -/
theorem Agrees.collecting_eq_false
    (hown : (t.reading line).standing.isIdle = false ∨ (t.reading line).report.isSome) : collecting t.path = false := by
  obtain ⟨⟨s, hh, hid, hco⟩, _⟩ := parent_of_ofNode hown
  exact Dump.collecting_eq_false h.clear hh hid hco

theorem Agrees.pending_eq_none (hco : collecting t.path = false) : t.pending = none := by
  rw [← h.path, ← position?_eq_none_iff, h.position] at hco
  exact Option.map_eq_none_iff.1 hco

/-- The reports of a line that stands below the open nodes. -/
theorem Agrees.reports_take (hown : own = t.reading line) (hreported : own.standing.collects → own.report.isSome) :
    addAt (position? r.stack) own.part.toList r.reports ++ own.report.toList = (t.take line own).reports := by
  cases hrep : own.report with
  | some d =>
    have hso : (t.reading line).report.isSome := by rw [← hown, hrep]; rfl
    have hp : own.part = none := hown ▸ (parent_of_ofNode (.inr hso)).2
    have hpe := h.pending_eq_none (h.collecting_eq_false (.inr hso))
    rw [hp, Option.toList_none, addAt_nil, h.reports]
    cases hco : own.standing.collects <;> simp [Track.take, Track.reports, hco, hrep, hpe]
  | none =>
    have hco : own.standing.collects = false := by
      cases hc : own.standing.collects with
      | false => rfl
      | true =>
        rw [hrep] at hreported
        cases hreported hc
    rw [h.position, h.reports]
    cases hpe : t.pending with
    | none => simp [Track.take, Track.reports, hrep, hpe, addAt]
    | some e =>
      have hl := addAt_last own.part.toList t.finished e
      simpa [Track.take, Track.reports, hco, hrep, hpe] using hl

/-- The nodes that stay open, with the node of the line below them. -/
theorem Agrees.clear_take : (t.take line (t.reading line)).path.Pairwise Node.Clear := by
  unfold Track.take
  split
  · exact .nil
  · refine .cons (fun outer hout hid => ?_) h.clear
    have hco := h.collecting_eq_false (.inl hid)
    exact Bool.eq_false_iff.2 (any_eq_false.1 hco outer hout)

/-- The position held after a line: its report's, or that held before. -/
theorem Agrees.position_take (hown : own = t.reading line) (hm : role.Matches own r.reports.length) :
    role.position?.or (position? r.stack) = (t.take line own).pending.map fun _ => (t.take line own).finished.length := by
  rw [hm.position, h.position]
  cases hco : own.standing.collects with
  | true =>
    have hpe := h.pending_eq_none (h.collecting_eq_false (.inl (hown ▸ Standing.isIdle_eq_false hco)))
    obtain ⟨d, hd⟩ := Option.isSome_iff_exists.1 (hm.reported hco)
    simp [Track.take, hco, hd, h.reports, Track.reports, hpe]
  | false =>
    cases hrep : own.report with
    | some d =>
      have hpe := h.pending_eq_none (h.collecting_eq_false (.inr (by rw [← hown, hrep]; rfl)))
      simp [Track.take, hco, hpe]
    | none => simp [Track.take, hco, hrep, Function.comp_def]

end

/-- A line at the margin stands below nothing and opens nothing. -/
theorem position?_margin {n : Nat} (hown : own = .ofNode (ancestorsAt (stack.map Frame.node) line.depth) ctx line)
    (hstack : line.depth = 0 → stack = []) (hm : role.Matches own n) :
    position? (if line.depth = 0 then [] else { depth := line.depth, role } :: stack) = role.position?.or (position? stack) := by
  split
  next hdep =>
    have hco : own.standing.collects = false := by
      rw [Bool.eq_false_iff]
      intro hco
      obtain ⟨⟨s, hh, hid, _⟩, _⟩ := parent_of_ofNode (.inl (hown ▸ Standing.isIdle_eq_false hco))
      rw [hstack hdep, hdep] at hh
      cases hh
      cases hid
    rw [hm.position, hco, hstack hdep]
    rfl
  · exact position?_cons _ _

theorem Agrees.visit (h : Agrees r t) (line : DumpLine) : Agrees (r.visit line) (t.visit line) := by
  have hcl := h.close line.depth
  obtain ⟨role, hm, hv⟩ := r.visit_eq line
  have hrdg : r.reading line = (t.close line.depth).reading line := by
    rw [Track.reading, ← hcl.path, ← hcl.context]
    rfl
  have hmargin : line.depth = 0 → r.pathTo line = [] := by
    intro hdep
    have hp := hcl.path
    rw [hdep, Track.path_close_zero, ← hdep] at hp
    exact map_eq_nil_iff.1 hp
  have hpos := position?_margin rfl hmargin hm
  rw [hrdg] at hm
  rw [hv, hrdg]
  refine ⟨?_, ?_, hcl.reports_take rfl hm.reported, ?_, hcl.clear_take⟩
  · simp only [Track.visit, Track.take]
    rw [← hcl.context]
  · have hnode : ({ depth := line.depth, role } : Frame).node = { depth := line.depth, standing := _ } :=
      congrArg (Node.mk line.depth) hm.standing
    simp only [Track.visit, Track.take, ← hcl.path, ← hnode]
    split <;> rfl
  · exact hpos.trans (hcl.position_take rfl hm)

theorem agrees_ofLines (lines : List DumpLine) : Agrees (Reader.ofLines origins lines) (Track.ofLines origins lines) := by
  induction lines using List.reverseRecOn with
  | nil => exact ⟨rfl, rfl, rfl, rfl, .nil⟩
  | append_singleton lines line ih =>
    rw [Reader.ofLines_concat, Track.ofLines_concat]
    exact ih.visit line

/-- The declarations of a dump are the finished reports and the open one. -/
theorem declarations_eq_track (dump : Text) : declarations origins dump = (Track.ofLines origins (readLines dump)).reports :=
  (agrees_ofLines origins (readLines dump)).reports

end Dump

open Declaration List Declass.Path

/-- The address and the name of the record that a line shows. -/
def DumpLine.recordAddress? (line : DumpLine) : Option (Text × Text) :=
  match line.address, line.record? with
  | some a, some (_, some name) =>
    if line.kind = "CXXRecordDecl" || line.kind = "RecordDecl" then some (a, name) else none
  | _, _ => none

theorem DumpLine.Introduces.recordAddress? {line : DumpLine} {keyword name a : Text} (h : line.Introduces keyword name)
    (ha : line.address = some a) : line.recordAddress? = some (a, name) := by
  rcases h.kind with hk | hk <;> simp [DumpLine.recordAddress?, ha, h.record, hk]

/-- Records with the same address have the same name. -/
def AddressesAgree (lines : List DumpLine) : Prop :=
  ∀ p ∈ lines.filterMap DumpLine.recordAddress?, ∀ q ∈ lines.filterMap DumpLine.recordAddress?, p.1 = q.1 → p.2 = q.2

instance (lines : List DumpLine) : Decidable (AddressesAgree lines) :=
  inferInstanceAs (Decidable (∀ _ ∈ _, _))

theorem AddressesAgree.subset {lines more : List DumpLine} (h : AddressesAgree more) (hsub : lines ⊆ more) :
    AddressesAgree lines := by
  have hpr := filterMap_subset DumpLine.recordAddress? hsub
  intro p hp q hq
  exact h p (hpr hp) q (hpr hq)

/-- The file is one of the given ones, by name. -/
def Path.isAmong (paths : List Path) (file : Option Path) : Bool :=
  (file.bind fileName?).any (paths.filterMap fileName?).contains

namespace Declaration

/-- The file of a record or a function. -/
def file? : Declaration → Option (Option Path)
  | .record _ _ origin => some origin
  | .function decl => some decl.origin
  | _ => none

/-- A record or a function. -/
def isPlaced (d : Declaration) : Bool :=
  d.file?.isSome

/-- A record or a function of one of the files. -/
def isOf (paths : List Path) (d : Declaration) : Bool :=
  d.file?.any (isAmong paths)

variable {d : Declaration}

theorem isPlaced_of_isOf {paths : List Path} (h : d.isOf paths) : d.isPlaced := by
  unfold isOf at h
  unfold isPlaced
  cases hf : d.file? with
  | none => simp [hf] at h
  | some file => rfl

theorem Approximates.file? {e : Declaration} (h : d.Approximates e) : e.file? = d.file? := by
  cases h with
  | same | method | constructor => rfl
  | function h => exact congrArg some h.origin.symm
  | constant enumeration name h => rfl

end Declaration

namespace Dump

/-! ## Reports that are kept -/

/-- The reports `kept` are some of `all`: of records and functions, the wanted ones. -/
structure Keeps (paths : List Path) (kept all : List Declaration) : Prop where
  sublist : kept.Sublist all
  placed : kept.filter isPlaced = all.filter (isOf paths)

namespace Keeps

variable {paths : List Path} {kept all kept' all' : List Declaration}

theorem append (h : Keeps paths kept all) (h' : Keeps paths kept' all') : Keeps paths (kept ++ kept') (all ++ all') := by
  refine ⟨h.sublist.append h'.sublist, ?_⟩
  rw [filter_append, filter_append, h.placed, h'.placed]

theorem nil (paths : List Path) : Keeps paths [] [] :=
  ⟨List.Sublist.slnil, rfl⟩

/-- Reports that are passed over. -/
theorem none_of (h : ∀ d ∈ all, d.isOf paths = false) : Keeps paths [] all := by
  refine ⟨nil_sublist all, ?_⟩
  rw [filter_nil, filter_eq_nil_iff.2]
  intro d hd
  rw [h d hd]
  exact Bool.false_ne_true

/-- Reports that are all kept. -/
theorem all_of (h : ∀ d ∈ all, d.isPlaced → d.isOf paths) : Keeps paths all all := by
  refine ⟨List.Sublist.refl all, filter_congr ?_⟩
  intro d hd
  rw [Bool.eq_iff_iff]
  exact ⟨h d hd, isPlaced_of_isOf⟩

/-- Parts do not decide whether a report is kept. -/
theorem map_addAll (h : Keeps paths kept all) (parts : List Part) :
    Keeps paths (kept.map (Part.addAll parts)) (all.map (Part.addAll parts)) := by
  have hf (d : Declaration) : (Part.addAll parts d).file? = d.file? := (approximates_addAll parts d).file?
  have hpl : isPlaced ∘ Part.addAll parts = isPlaced := by
    funext d
    simp [isPlaced, hf]
  have hof : isOf paths ∘ Part.addAll parts = isOf paths := by
    funext d
    simp [isOf, hf]
  refine ⟨h.sublist.map _, ?_⟩
  rw [filter_map, filter_map, hpl, hof, h.placed]

end Keeps

/-! ## One line in two contexts -/

/-- The first context restricts declarations to `paths`, the second to no fewer. -/
structure Context.Narrower (paths : List Path) (c₁ c₂ : Context) : Prop where
  origins : c₁.origins = some (paths.filterMap fileName?)
  within : ∀ names, c₂.origins = some names → paths.filterMap fileName? ⊆ names
  file : c₁.file = c₂.file
  records : c₁.records ⊆ c₂.records

/-- Each address belongs to one record. -/
def Context.Consistent (ctx : Context) : Prop :=
  ∀ a name name', (a, name) ∈ ctx.records → (a, name') ∈ ctx.records → name = name'

namespace Context.Narrower

variable {paths : List Path} {c₁ c₂ : Context}

section

variable (h : Narrower paths c₁ c₂)

include h

theorem enter (line : DumpLine) : Narrower paths (c₁.enter line) (c₂.enter line) :=
  { h with file := congrArg line.files.getLast?.or h.file }

theorem know (address : Option (Text × Text)) : Narrower paths (c₁.know address) (c₂.know address) :=
  { h with
    records := append_subset.2
      ⟨subset_append_left _ _, subset_append_of_subset_right _ h.records⟩ }

theorem know_right (address : Option (Text × Text)) : Narrower paths c₁ (c₂.know address) :=
  { h with records := subset_append_of_subset_right _ h.records }

theorem origin : c₁.origin = c₂.origin :=
  congrArg (Option.map Path.mk) h.file

theorem allows_eq : c₁.allows = isAmong paths c₁.origin := by
  simp [Context.allows, h.origins, isAmong]

theorem allows_of_allows (hall : c₁.allows) : c₂.allows := by
  rw [h.allows_eq, isAmong, Option.any_eq_true] at hall
  obtain ⟨name, hn, hmem⟩ := hall
  unfold Context.allows
  split
  · rfl
  next names hns =>
    rw [← h.origin, Option.any_eq_true]
    exact ⟨name, hn, contains_iff_mem.2 (h.within names hns (contains_iff_mem.1 hmem))⟩

/-- An address known to the narrower context has the same record in the wider. -/
theorem lookup_eq_some (hc : c₂.Consistent) {a name : Text} (hlook : c₁.records.lookup a = some name) :
    c₂.records.lookup a = some name := by
  have hmem : (a, name) ∈ c₂.records := h.records (mem_records_of_lookup hlook)
  cases hwide : c₂.records.lookup a with
  | none => simpa using lookup_eq_none_iff.1 hwide _ hmem
  | some name' => rw [hc a name' name (mem_records_of_lookup hwide) hmem]

end

end Context.Narrower

/-- A line that may be passed over: nothing wanted is in it. -/
structure Reading.Removable (paths : List Path) (own : Reading) : Prop where
  standing : own.standing ≠ .topLevel
  report : ∀ d, own.report = some d → d.isOf paths = false

variable {own : Reading} {lines : List DumpLine}

theorem removable_plain {paths : List Path} (h : own.standing ≠ .topLevel) (hrep : own.report = none) : own.Removable paths := by
  refine ⟨h, ?_⟩
  intro d hd
  rw [hrep] at hd
  cases hd

/-- A line that is not passed over reports at most what is wanted. -/
def Reading.Wanted (paths : List Path) (own : Reading) : Prop :=
  ∀ d, own.report = some d → d.isPlaced = true → d.isOf paths = true

/-- A line that does nothing, and gives nothing to the lines below it. -/
def Reading.IsIdle (own : Reading) : Prop :=
  ∃ s : Standing, s.isIdle = true ∧ own = { standing := s }

theorem Reading.IsIdle.standing (h : own.IsIdle) : own.standing.isIdle := by
  obtain ⟨s, hs, rfl⟩ := h
  exact hs

section Visits

variable {paths : List Path} {ctx : Context} {line : DumpLine} {v : Visit} {owner enumeration : Text} {d : Declaration}
  {own : Reading}

theorem Visit.OfMember.file? (h : v.OfMember ctx owner line) (hd : v.report = some d) : d.file? = none := by
  cases h <;> cases hd <;> rfl

theorem Visit.OfEnumerator.file? (h : v.OfEnumerator enumeration line) (hd : v.report = some d) : d.file? = none := by
  cases h <;> cases hd
  rfl

/-- Records and functions are reported with the current file. -/
theorem Visit.OfTopLevel.file? (h : v.OfTopLevel ctx line) (hd : v.report = some d) :
    d.file? = none ∨ d.file? = some ctx.origin := by
  cases h with
  | silent => cases hd
  | block => cases hd
  | member _ _ _ h => exact .inl (h.file? hd)
  | known => cases hd
  | record | function => cases hd; exact .inr rfl
  | global | enumeration => cases hd; exact .inl rfl

theorem Role.standing_ne_of_isIdle {role : Role} (h : role.isIdle) : role.standing ≠ .topLevel := by
  intro hst
  cases role <;> cases hst
  cases h

theorem isOf_eq_false (h : d.file? = none) : d.isOf paths = false := by
  rw [isOf, h, Option.any_none]

theorem Visit.OfMember.standing_ne (h : v.OfMember ctx owner line) : (v.role 0).standing ≠ .topLevel := by
  cases h with
  | silent role h => exact Role.standing_ne_of_isIdle h
  | _ => exact Standing.noConfusion

theorem Visit.OfMember.removable (h : v.OfMember ctx owner line) : (Reading.ofVisit v).Removable paths :=
  ⟨h.standing_ne, fun _ hd => isOf_eq_false (h.file? hd)⟩

theorem Visit.OfEnumerator.removable (h : v.OfEnumerator enumeration line) : (Reading.ofVisit v).Removable paths := by
  refine ⟨?_, fun _ hd => isOf_eq_false (h.file? hd)⟩
  cases h <;> exact Standing.noConfusion

/-- Where the current file is not wanted, a report may be passed over. -/
theorem Visit.OfTopLevel.removable (h : v.OfTopLevel ctx line) (hori : isAmong paths ctx.origin = false)
    (hblk : ¬(line.kind = "LinkageSpecDecl" ∨ line.kind = "NamespaceDecl")) : (Reading.ofVisit v).Removable paths := by
  refine ⟨?_, ?_⟩
  · cases h with
    | silent role h => exact Role.standing_ne_of_isIdle h
    | block hk => exact absurd hk hblk
    | member _ _ _ h => exact h.standing_ne
    | _ => exact Standing.noConfusion
  · intro d hd
    rcases h.file? hd with hf | hf
    · exact isOf_eq_false hf
    · rw [isOf, hf, Option.any_some, hori]

/-- Where the current file is wanted, a line is not passed over. -/
theorem Visit.OfTopLevel.wanted (h : v.OfTopLevel ctx line) (hori : isAmong paths ctx.origin) :
    (Reading.ofVisit v).Wanted paths := by
  intro d hd hpl
  rcases h.file? hd with hf | hf
  · rw [isPlaced, hf] at hpl
    cases hpl
  · rw [isOf, hf, Option.any_some, hori]

theorem wanted_of_file? (h : ∀ d, own.report = some d → d.file? = none) : own.Wanted paths := by
  intro d hd hpl
  rw [isPlaced, h d hd] at hpl
  cases hpl

theorem wanted_plain (h : own.report = none) : own.Wanted paths := by
  intro d hd
  rw [h] at hd
  cases hd

end Visits

section Contexts

variable {paths : List Path} {c₁ c₂ : Context}

theorem visitMember_congr (h : c₁.origin = c₂.origin) (owner : Text) (line : DumpLine) :
    visitMember c₁ owner line = visitMember c₂ owner line := by
  unfold visitMember callableDecl
  rw [h]

theorem visitRecord_congr (h : c₁.origin = c₂.origin) (line : DumpLine) : visitRecord c₁ line = visitRecord c₂ line := by
  unfold visitRecord
  rw [h]

theorem visitFunction_congr (h : c₁.origin = c₂.origin) (line : DumpLine) : visitFunction c₁ line = visitFunction c₂ line := by
  unfold visitFunction callableDecl
  rw [h]

/-- A declaration at top level whose file is wanted. -/
def visitWanted (ctx : Context) (line : DumpLine) : Visit :=
  if line.kind = "CXXRecordDecl" || line.kind = "RecordDecl" then visitRecord ctx line
  else if line.kind = "FunctionDecl" then visitFunction ctx line
  else if line.kind = "VarDecl" then visitGlobal line
  else if line.kind = "EnumDecl" then visitEnumeration line
  else .silent .other

/-- What the context decides about a line at top level. -/
theorem visitTopLevel_eq (line : DumpLine) : (∃ role, ∀ ctx, visitTopLevel ctx line = .silent role) ∨
      (∀ ctx, visitTopLevel ctx line = (line.parent.bind fun a => ctx.records.lookup a).elim (.silent .other)
        fun owner => visitMember ctx owner line) ∨ ¬(line.kind = "LinkageSpecDecl" ∨ line.kind = "NamespaceDecl") ∧
        ∀ ctx, visitTopLevel ctx line = if !ctx.allows then .silent .ignored else visitWanted ctx line := by
  by_cases htmp : templateKinds.contains line.kind
  · exact .inl ⟨.ignored, fun ctx => by rw [visitTopLevel, if_pos htmp]⟩
  by_cases hlink : line.kind = "LinkageSpecDecl"
  · exact .inl ⟨.topLevel, fun ctx => by rw [visitTopLevel, if_neg htmp, if_pos hlink]⟩
  by_cases hns : line.kind = "NamespaceDecl"
  · exact .inl ⟨_, fun ctx => by rw [visitTopLevel, if_neg htmp, if_neg hlink, if_pos hns]⟩
  by_cases hmem : memberKinds.contains line.kind
  · refine .inr (.inl fun ctx => ?_)
    rw [visitTopLevel, if_neg htmp, if_neg hlink, if_neg hns, if_pos hmem]
    cases line.parent.bind fun a => ctx.records.lookup a <;> rfl
  by_cases himplicit : line.hasFlag "implicit"
  · refine .inl ⟨.other, fun ctx => ?_⟩
    rw [visitTopLevel, if_neg htmp, if_neg hlink, if_neg hns, if_neg hmem, if_pos himplicit]
  · refine .inr (.inr ⟨not_or.2 ⟨hlink, hns⟩, fun ctx => ?_⟩)
    rw [visitTopLevel, if_neg htmp, if_neg hlink, if_neg hns, if_neg hmem, if_neg himplicit]
    rfl

/-- A line at top level does the same in both contexts, or only one passes over it. -/
theorem Context.Narrower.visitTopLevel_cases (h : c₁.Narrower paths c₂) (hc : c₂.Consistent) (line : DumpLine) :
    (visitTopLevel c₁ line = visitTopLevel c₂ line ∧ (Reading.ofVisit (visitTopLevel c₁ line)).Wanted paths) ∨
      (Reading.ofVisit (visitTopLevel c₁ line)).IsIdle ∧ (Reading.ofVisit (visitTopLevel c₂ line)).Removable paths := by
  have htop := ofTopLevel_visitTopLevel c₂ line
  rcases visitTopLevel_eq line with ⟨role, hvis⟩ | hvis | ⟨hblk, hvis⟩
  · rw [hvis c₁, hvis c₂]
    exact .inl ⟨rfl, wanted_plain rfl⟩
  · rw [hvis c₁, hvis c₂]
    cases hlook : line.parent.bind fun a => c₁.records.lookup a with
    | none =>
      refine .inr ⟨⟨.other, rfl, rfl⟩, ?_⟩
      cases line.parent.bind fun a => c₂.records.lookup a with
      | none => exact removable_plain Standing.noConfusion rfl
      | some owner => exact (ofMember_visitMember c₂ owner line).removable
    | some owner =>
      obtain ⟨a, ha, hrec⟩ := Option.bind_eq_some_iff.1 hlook
      rw [ha, Option.bind_some, h.lookup_eq_some hc hrec]
      exact .inl ⟨visitMember_congr h.origin owner line,
        wanted_of_file? fun d hd => (ofMember_visitMember c₁ owner line).file? hd⟩
  · rw [hvis c₂] at htop
    rw [hvis c₁, hvis c₂]
    cases hall : c₁.allows with
    | false =>
      have hori : isAmong paths c₂.origin = false := by rw [← h.origin, ← h.allows_eq, hall]
      exact .inr ⟨⟨.ignored, rfl, rfl⟩, htop.removable hori hblk⟩
    | true =>
      have hori : isAmong paths c₂.origin := by rw [← h.origin, ← h.allows_eq, hall]
      have hs : visitWanted c₁ line = visitWanted c₂ line := by
        rw [visitWanted, visitRecord_congr h.origin, visitFunction_congr h.origin, visitWanted]
      rw [h.allows_of_allows hall] at htop ⊢
      rw [hs]
      exact .inl ⟨rfl, htop.wanted hori⟩

/-- A line does the same in both contexts, or the narrower passes over it. -/
theorem Context.Narrower.ofNode_cases (h : c₁.Narrower paths c₂) (hc : c₂.Consistent) (ancestors : List Standing)
    (line : DumpLine) : (Reading.ofNode ancestors c₁ line = Reading.ofNode ancestors c₂ line ∧
        (Reading.ofNode ancestors c₁ line).Wanted paths) ∨
      ancestors.head? = some .topLevel ∧ (Reading.ofNode ancestors c₁ line).IsIdle ∧
        (Reading.ofNode ancestors c₂ line).Removable paths := by
  unfold Reading.ofNode
  split
  · exact .inl ⟨rfl, wanted_plain rfl⟩
  split
  · rcases h.visitTopLevel_cases hc line with ⟨hs, hwant⟩ | hpassed
    · exact .inl ⟨congrArg Reading.ofVisit hs, hwant⟩
    · exact .inr ⟨rfl, hpassed⟩
  next name _ _ =>
    exact .inl ⟨congrArg Reading.ofVisit (visitMember_congr h.origin name line),
      wanted_of_file? fun d hd => (ofMember_visitMember c₁ name line).file? hd⟩
  next name _ _ =>
    exact .inl ⟨rfl, wanted_of_file? fun d hd => (ofEnumerator_visitEnumerator name line).file? hd⟩
  · exact .inl ⟨rfl, wanted_plain rfl⟩
  · exact .inl ⟨rfl, wanted_plain rfl⟩
  · exact .inl ⟨rfl, wanted_plain rfl⟩

end Contexts

/-! ## Below a line that is passed over -/

/-- The open nodes of two readings below a line that only the first one passed over. -/
inductive Strays : List Node → List Node → Prop
  | leave (depth : Nat) {s₁ s₂ : Standing} {path : List Node} (hidle : s₁.isIdle = true) (htop : s₂ ≠ .topLevel)
      (hpath : collecting path = false) :
      Strays ({ depth, standing := s₁ } :: path) ({ depth, standing := s₂ } :: path)
  | deeper (depth : Nat) {s₁ s₂ : Standing} {path₁ path₂ : List Node} (hidle : s₁.isIdle = true) (htop : s₂ ≠ .topLevel)
      (h : Strays path₁ path₂) : Strays ({ depth, standing := s₁ } :: path₁) ({ depth, standing := s₂ } :: path₂)

theorem Standing.collects_eq_false {s : Standing} (h : s.isIdle) : s.collects = false := by
  rw [Bool.eq_false_iff]
  intro hco
  rw [isIdle_eq_false hco] at h
  cases h

theorem collecting_of_sublist {inner path : List Node} (hsub : inner.Sublist path) (h : collecting path = false) :
    collecting inner = false := by
  rw [collecting, any_eq_false] at h ⊢
  intro n hn
  exact h n (hsub.subset hn)

theorem head?_ancestorsAt (n : Node) (path : List Node) (depth : Nat) :
    (ancestorsAt (n :: path) depth).head? = some n.standing ∨ (ancestorsAt (n :: path) depth).head? = some .other := by
  unfold ancestorsAt
  split
  · exact .inl rfl
  · exact .inr rfl

namespace Strays

variable {path₁ path₂ : List Node}

section

variable (h : Strays path₁ path₂)

include h

theorem collecting_eq_false : collecting path₁ = false := by
  induction h with
  | leave depth hid _ hp => rw [collecting_cons, Standing.collects_eq_false hid, hp, Bool.or_false]
  | deeper depth hid _ _ ih => rw [collecting_cons, Standing.collects_eq_false hid, ih, Bool.or_false]

/-- The first reading opened something idle, the second nothing at top level. -/
theorem heads :
    ∃ n₁ rest₁ n₂ rest₂, path₁ = n₁ :: rest₁ ∧ path₂ = n₂ :: rest₂ ∧ n₁.standing.isIdle ∧ n₂.standing ≠ .topLevel := by
  cases h with
  | leave depth hid htop => exact ⟨_, _, _, _, rfl, rfl, hid, htop⟩
  | deeper depth hid htop => exact ⟨_, _, _, _, rfl, rfl, hid, htop⟩

/-- After closing nodes the readings are apart, or meet outside callables. -/
theorem close (depth : Nat) : Strays (openAt path₁ depth) (openAt path₂ depth) ∨
      openAt path₁ depth = openAt path₂ depth ∧ collecting (openAt path₁ depth) = false := by
  induction h with
  | @leave d s₁ s₂ path hid htop hp =>
    rw [openAt_cons, openAt_cons]
    split
    · refine .inr ⟨rfl, ?_⟩
      exact collecting_of_sublist (openAt_sublist depth) hp
    · exact .inl (.leave d hid htop hp)
  | @deeper d s₁ s₂ path₁ path₂ hid htop h ih =>
    rw [openAt_cons, openAt_cons]
    split
    · exact ih
    · exact .inl (.deeper d hid htop h)

/-- The reading that passed the line over does nothing below it. -/
theorem isIdle_ofNode (depth : Nat) (ctx : Context) (line : DumpLine) :
    (Reading.ofNode (ancestorsAt path₁ depth) ctx line).IsIdle := by
  obtain ⟨s, hid, hh⟩ : ∃ s : Standing, s.isIdle ∧ (ancestorsAt path₁ depth).head? = some s := by
    obtain ⟨n₁, rest₁, _, _, rfl, _, hid, _⟩ := h.heads
    rcases head?_ancestorsAt n₁ rest₁ depth with hh | hh
    · exact ⟨_, hid, hh⟩
    · exact ⟨_, rfl, hh⟩
  have hp : Reading.nestedPart? (ancestorsAt path₁ depth) line = none := by
    have hf : (ancestorsAt path₁ depth).find? Standing.collects = none := by
      rw [find?_ancestorsAt, find?_map, Option.map_eq_none_iff, find?_eq_none]
      exact any_eq_false.1 h.collecting_eq_false
    rw [Reading.nestedPart?, hf]
  obtain ⟨rest, hc⟩ := head?_eq_some_iff.1 hh
  rw [hc] at hp ⊢
  cases s with
  | ignored => exact ⟨.ignored, rfl, if_pos mem_cons_self⟩
  | other =>
    unfold Reading.ofNode
    split
    · exact ⟨.ignored, rfl, rfl⟩
    · exact ⟨.other, rfl, by rw [hp]⟩
  | _ => cases hid

/-- What the other reading reports there may be passed over. -/
theorem removable_ofNode (paths : List Path) (depth : Nat) (ctx : Context) (line : DumpLine) :
    (Reading.ofNode (ancestorsAt path₂ depth) ctx line).Removable paths := by
  have hh : (ancestorsAt path₂ depth).head? ≠ some .topLevel := by
    obtain ⟨_, _, n₂, rest₂, _, rfl, _, htop⟩ := h.heads
    rcases head?_ancestorsAt n₂ rest₂ depth with hh | hh
    · rw [hh]
      exact fun hs => htop (Option.some.inj hs)
    · rw [hh]
      exact fun hs => Standing.noConfusion (Option.some.inj hs)
  rcases ofNode_cases (ancestorsAt path₂ depth) ctx line with
    hown | ⟨part, hown⟩ | ⟨htop, _⟩ | ⟨name, _, hown⟩ | ⟨name, _, hown⟩
  · rw [hown]
    exact removable_plain Standing.noConfusion rfl
  · rw [hown]
    exact removable_plain Standing.noConfusion rfl
  · exact absurd htop hh
  · rw [hown]
    exact (ofMember_visitMember _ _ _).removable
  · rw [hown]
    exact (ofEnumerator_visitEnumerator _ _).removable

end

end Strays

/-! ## Two readings of one dump -/

/-- The first reading has kept what the second reported of `paths`. Their open nodes are the same, or the first one passed over
one. -/
structure Follows (paths : List Path) (t₁ t₂ : Track) : Prop where
  context : t₁.context.Narrower paths t₂.context
  finished : Keeps paths t₁.finished t₂.finished
  pending : Keeps paths t₁.pending.toList t₂.pending.toList
  nodes : (t₁.path = t₂.path ∧ t₁.pending = t₂.pending) ∨ (Strays t₁.path t₂.path ∧ t₁.pending = none)

namespace Follows

variable {paths : List Path} {t₁ t₂ : Track} {line : DumpLine}

section

variable (h : Follows paths t₁ t₂)

include h

theorem reports : Keeps paths t₁.reports t₂.reports :=
  h.finished.append h.pending

theorem close (depth : Nat) : Follows paths (t₁.close depth) (t₂.close depth) := by
  rcases h.nodes with ⟨hp, hpe⟩ | ⟨hstr, hpe⟩
  · have ho : openAt t₁.path depth = openAt t₂.path depth := by rw [hp]
    cases hco : collecting (openAt t₂.path depth) with
    | true =>
      rw [Track.close_of_collecting hco, Track.close_of_collecting (ho ▸ hco)]
      exact ⟨h.context, h.finished, h.pending, .inl ⟨ho, hpe⟩⟩
    | false =>
      rw [Track.close_of_not_collecting hco, Track.close_of_not_collecting (ho ▸ hco)]
      exact ⟨h.context, h.reports, .nil paths, .inl ⟨ho, rfl⟩⟩
  · have hnar : collecting (openAt t₁.path depth) = false :=
      collecting_of_sublist (openAt_sublist depth) hstr.collecting_eq_false
    have hreps : t₁.reports = t₁.finished := by rw [Track.reports, hpe, Option.toList_none, append_nil]
    have hnodes := hstr.close depth
    rw [Track.close_of_not_collecting hnar]
    cases hco : collecting (openAt t₂.path depth) with
    | true =>
      rw [Track.close_of_collecting hco]
      refine ⟨h.context, hreps ▸ h.finished, hpe ▸ h.pending, .inr ⟨?_, rfl⟩⟩
      rcases hnodes with hstr | ⟨ho, _⟩
      · exact hstr
      · rw [ho, hco] at hnar
        cases hnar
    | false =>
      rw [Track.close_of_not_collecting hco]
      refine ⟨h.context, h.reports, .nil paths, ?_⟩
      rcases hnodes with hstr | ⟨ho, _⟩
      · exact .inr ⟨hstr, rfl⟩
      · exact .inl ⟨ho, rfl⟩

/-- A line that does the same in both readings. -/
theorem take_same {own : Reading} (hwant : own.Wanted paths) (hp : t₁.path = t₂.path)
    (hpe : t₁.pending = t₂.pending) : Follows paths (t₁.take line own) (t₂.take line own) := by
  have hrep : Keeps paths own.report.toList own.report.toList :=
    .all_of fun d hd => hwant d (Option.mem_toList.1 hd)
  refine ⟨(h.context.enter line).know own.address, ?_, ?_, .inl ⟨?_, ?_⟩⟩
  · cases hco : own.standing.collects with
    | true => simpa [Track.take, hco] using h.finished
    | false => simpa [Track.take, hco] using h.finished.append hrep
  · cases hco : own.standing.collects with
    | true => simpa [Track.take, hco] using hrep
    | false => simpa [Track.take, hco, Option.toList_map] using h.pending.map_addAll own.part.toList
  · simp [Track.take, hp]
  · simp [Track.take, hpe]

/-- A line that the first reading passes over. -/
theorem take_passed {own₁ own₂ : Reading} (hid : own₁.IsIdle) (hrem : own₂.Removable paths)
    (hpe : t₁.pending = none) (hstr : Strays (t₁.take line own₁).path (t₂.take line own₂).path) :
    Follows paths (t₁.take line own₁) (t₂.take line own₂) := by
  obtain ⟨s, hs, rfl⟩ := hid
  have hrep : Keeps paths [] own₂.report.toList :=
    .none_of fun d hd => hrem.report d (Option.mem_toList.1 hd)
  have ho := h.pending
  refine ⟨(h.context.enter line).know_right own₂.address, ?_, ?_, .inr ⟨hstr, ?_⟩⟩
  · cases hco : own₂.standing.collects with
    | true => simpa [Track.take, hco] using h.finished
    | false => simpa [Track.take, hco] using h.finished.append hrep
  · cases hco : own₂.standing.collects with
    | true => simpa [Track.take, hco, hpe] using hrep
    | false =>
      simpa [Track.take, hco, hpe, Option.toList_map] using ho.map_addAll own₂.part.toList
  · simp [Track.take, hpe]

theorem visit (hc : t₂.context.Consistent) (hclr : t₂.path.Pairwise Node.Clear)
    (line : DumpLine) : Follows paths (t₁.visit line) (t₂.visit line) := by
  have hcl := h.close line.depth
  rcases hcl.nodes with ⟨hp, hpe⟩ | ⟨hstr, hpe⟩
  · have hc' : ((t₂.close line.depth).context.enter line).Consistent := by
      rw [Track.context_close]
      exact hc
    rcases (hcl.context.enter line).ofNode_cases hc' (ancestorsAt (t₂.close line.depth).path line.depth) line with
      ⟨hs, hwant⟩ | ⟨hh, hid, hrem⟩
    · have hrdg : (t₁.close line.depth).reading line = (t₂.close line.depth).reading line := by
        rw [Track.reading, hp]
        exact hs
      rw [hs] at hwant
      rw [Track.visit, hrdg]
      exact hcl.take_same hwant hp hpe
    · have hclr' : (t₂.close line.depth).path.Pairwise Node.Clear := by
        rw [Track.path_close]
        exact hclr.sublist (openAt_sublist _)
      have hco := collecting_eq_false hclr' hh rfl rfl
      have hdep : line.depth ≠ 0 := by
        intro hdep
        rw [hdep, Track.path_close_zero] at hh
        cases hh
      rw [← hp] at hid
      refine hcl.take_passed hid hrem (hpe.trans (Track.pending_close hco)) ?_
      rw [Track.path_take hdep, Track.path_take hdep, hp]
      exact .leave line.depth hid.standing hrem.standing hco
  · have hdep : line.depth ≠ 0 := by
      intro hdep
      obtain ⟨n₁, rest₁, _, _, hcn, _⟩ := hstr.heads
      rw [hdep, Track.path_close_zero] at hcn
      cases hcn
    have hid := hstr.isIdle_ofNode line.depth ((t₁.close line.depth).context.enter line) line
    have hrem := hstr.removable_ofNode paths line.depth ((t₂.close line.depth).context.enter line) line
    refine hcl.take_passed hid hrem hpe ?_
    rw [Track.path_take hdep, Track.path_take hdep]
    exact .deeper line.depth hid.standing hrem.standing hstr

end

end Follows

/-- The addresses that a reader knows belong to one record each. -/
theorem consistent_ofLines (origins : Option (List Path)) (hagr : AddressesAgree lines) :
    (Track.ofLines origins lines).context.Consistent := by
  rw [← (agrees_ofLines origins lines).context]
  have hrecs := (Reader.informed_ofLines origins lines).records
  intro a name name' hn hn'
  obtain ⟨line, hl, haddr, keyword, hintro⟩ := hrecs a name hn
  obtain ⟨line', hl', haddr', keyword', hintro'⟩ := hrecs a name' hn'
  exact hagr _ (mem_filterMap.2 ⟨line, hl, hintro.recordAddress? haddr⟩) _
    (mem_filterMap.2 ⟨line', hl', hintro'.recordAddress? haddr'⟩) rfl

theorem follows_ofLines {narrow : List Path} {wide : Option (List Path)}
    (hwi : ∀ paths, wide = some paths → narrow ⊆ paths) (hagr : AddressesAgree lines) :
    Follows narrow (Track.ofLines (some narrow) lines) (Track.ofLines wide lines) := by
  induction lines using List.reverseRecOn with
  | nil =>
    refine ⟨⟨rfl, ?_, rfl, List.Subset.refl _⟩, .nil narrow, .nil narrow, .inl ⟨rfl, rfl⟩⟩
    intro names hns
    obtain ⟨paths, hpaths, rfl⟩ := Option.map_eq_some_iff.1 hns
    exact filterMap_subset _ (hwi paths hpaths)
  | append_singleton lines line ih =>
    have hearlier := hagr.subset (subset_append_left lines [line])
    rw [Track.ofLines_concat, Track.ofLines_concat]
    exact (ih hearlier).visit (consistent_ofLines wide hearlier) (agrees_ofLines wide lines).clear line

/-! ## Dumps -/

/-- Restricting a dump to fewer files removes whole declarations and changes none. Of the records and functions those of the
wanted files stay. Records of one address must have one name, since members written outside are found by it. -/
theorem declarations_sublist_of_origins (narrow : List Path) (wide : Option (List Path)) (dump : Text)
    (hagree : AddressesAgree (readLines dump)) (hwithin : ∀ paths, wide = some paths → narrow ⊆ paths) :
    (declarations (some narrow) dump).Sublist (declarations wide dump) ∧
      (declarations (some narrow) dump).filter isPlaced =
        (declarations wide dump).filter (isOf narrow) := by
  have hkeeps := (follows_ofLines hwithin hagree).reports
  rw [← declarations_eq_track, ← declarations_eq_track] at hkeeps
  exact ⟨hkeeps.sublist, hkeeps.placed⟩

/-- A class of a header, and in the main file a method of it and a function. -/
def pinDump : Text :=
  "|-CXXRecordDecl 0x2 <pin.h:1:1> class Pin definition\n" ++
    "|-CXXMethodDecl 0x4 parent 0x2 <main.cpp:1:1> on 'void ()'\n" ++
    "`-FunctionDecl 0x5 <line:2:1> run 'void (int)'\n" ++
    "  `-ParmVarDecl 0x6 <col:9> n 'int'\n"

theorem readLines_pinDump : readLines pinDump =
      [{ depth := 1, kind := "CXXRecordDecl", address := some "0x2", files := ["pin.h"],
         head := ["class", "Pin", "definition"] },
        { depth := 1, kind := "CXXMethodDecl", address := some "0x4", parent := some "0x2", files := ["main.cpp"],
          head := ["on"], type := some "void ()" },
        { depth := 1, kind := "FunctionDecl", address := some "0x5", head := ["run"], type := some "void (int)" },
        { depth := 2, kind := "ParmVarDecl", address := some "0x6", head := ["n"], type := some "int" }] := by
  decide +kernel

theorem declarations_sublist_of_origins_pinDump :
    AddressesAgree (readLines pinDump) ∧
      declarations (some [⟨"src/main.cpp"⟩]) pinDump =
        [.function { name := "run", rawType := "void (int)", params := [⟨some "n", "int"⟩],
                     origin := some ⟨"main.cpp"⟩ }] ∧
      (declarations (some [⟨"src/main.cpp"⟩]) pinDump).Sublist (declarations none pinDump) ∧
      (declarations (some [⟨"src/main.cpp"⟩]) pinDump).filter isPlaced =
        (declarations none pinDump).filter (isOf [⟨"src/main.cpp"⟩]) := by
  have hagree : AddressesAgree (readLines pinDump) := by
    rw [readLines_pinDump]
    decide +kernel
  refine ⟨hagree, ?_, declarations_sublist_of_origins [⟨"src/main.cpp"⟩] none pinDump hagree ?_⟩
  · rw [declarations_eq_reports, readLines_pinDump]
    decide +kernel
  · intro paths hpaths
    cases hpaths

end Dump

end Declass
