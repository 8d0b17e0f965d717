import Declass.Path.Basic
import Mathlib.Data.List.DropRight

/-!
# Components of paths

A path is its anchor and the names between its slashes (`Path.components_eq`). Main statement: the directory of a relative path starts
with the components of the directory that it is seen from (`Path.above_prefix_join`).
-/

namespace Declass

open List Text

/-! ## Anchor and names -/

namespace Path

/-- What the path starts with. -/
def anchor (p : Path) : Anchor :=
  p.pieces.1

theorem not_mem_of_mem_splitOn {sep : Char} {t piece : Text} (h : piece ∈ List.splitOn sep t) : sep ∉ piece := by
  induction t generalizing piece with
  | nil => simp_all
  | cons c t ih =>
    rw [splitOn_cons_eq_if_modifyHead] at h
    split at h
    · rcases mem_cons.1 h with rfl | h
      · exact not_mem_nil
      · exact ih h
    next hc =>
      obtain ⟨first, pieces, ht⟩ := exists_cons_of_ne_nil (splitOn_ne_nil sep t)
      rw [ht, modifyHead_cons] at h
      rcases mem_cons.1 h with rfl | h
      · have hfst : sep ∉ first := ih (ht ▸ mem_cons_self)
        have hne : sep ≠ c := fun he => hc (by simp [he])
        simp [hne, hfst]
      · exact ih (ht ▸ mem_cons_of_mem _ h)

theorem length_splitOn_le (sep : Char) (t : Text) : (List.splitOn sep t).length ≤ t.length + 1 := by
  induction t with
  | nil => simp
  | cons c t ih =>
    rw [splitOn_cons_eq_if_modifyHead]
    split
    · simpa using ih
    · rw [length_modifyHead, length_cons]
      omega

/-- The pieces between the slashes of the path. -/
def slashed (p : Path) : List Text :=
  List.splitOn '/' p.text

/-- The pieces that are components. -/
def names (p : Path) : List Text :=
  p.slashed.filter (!isFiller ·)

/-- The components that an anchor stands for. -/
def Anchor.lead : Anchor → List Component
  | .root => [.root]
  | .here => [.here]
  | .none => []

/-- The component that a piece stands for. -/
def Component.ofPiece (piece : Text) : Component :=
  if piece = ".." then .parent else .name piece

theorem Component.ofPiece_injective : Function.Injective ofPiece := by
  intro a b h
  unfold ofPiece at h
  split at h <;> split at h <;> simp_all

/-- What a path starts with, by its text. -/
theorem pieces_cases (p : Path) : (∃ rest, p.text = '/' :: rest ∧ p.pieces = (.root, List.splitOn '/' rest) ∧
      p.slashed = [] :: List.splitOn '/' rest) ∨ p.text.head? ≠ some '/' ∧
      ((∃ parts, p.slashed = ['.'] :: parts ∧ p.pieces = (.here, parts)) ∨
        p.slashed.head? ≠ some ['.'] ∧ p.pieces = (.none, p.slashed)) := by
  unfold pieces slashed
  split
  next rest htx =>
    refine .inl ⟨rest, htx, rfl, ?_⟩
    rw [htx, splitOn_cons_eq_if_modifyHead, if_pos (by rfl)]
  next hsl =>
    have hh : p.text.head? ≠ some '/' := by
      intro h
      obtain ⟨rest, hr⟩ := head?_eq_some_iff.1 h
      exact hsl rest hr
    refine .inr ⟨hh, ?_⟩
    split
    next rest hps => exact .inl ⟨rest, hps, rfl⟩
    next hdot =>
      refine .inr ⟨?_, rfl⟩
      intro h
      obtain ⟨rest, hr⟩ := head?_eq_some_iff.1 h
      exact hdot rest hr

/-- The anchor stands for the components before the pieces, which are fillers. -/
theorem slashed_eq (p : Path) : ∃ front, p.slashed = front ++ p.pieces.2 ∧ front.length = p.anchor.lead.length ∧
    ∀ piece ∈ front, isFiller piece := by
  unfold anchor
  rcases p.pieces_cases with ⟨rest, -, hps, hsl⟩ | ⟨-, ⟨parts, hsl, hps⟩ | ⟨-, hps⟩⟩
  · exact ⟨[[]], by rw [hsl, hps]; rfl, by rw [hps]; rfl, by decide⟩
  · exact ⟨[['.']], by rw [hsl, hps]; rfl, by rw [hps]; rfl, by decide⟩
  · exact ⟨[], by rw [hps]; rfl, by rw [hps]; rfl, by simp⟩

theorem filter_pieces (p : Path) : p.pieces.2.filter (!isFiller ·) = p.names := by
  obtain ⟨front, hsl, -, hfro⟩ := p.slashed_eq
  have hno : front.filter (!isFiller ·) = [] := filter_eq_nil_iff.2 fun piece hpc => by simp [hfro piece hpc]
  rw [names, hsl, filter_append, hno, nil_append]

/-- A path is its anchor and its names. -/
theorem components_eq (p : Path) : p.components = p.anchor.lead ++ p.names.map Component.ofPiece := by
  rw [← filter_pieces]
  unfold components anchor
  obtain ⟨a, parts⟩ := p.pieces
  cases a <;> rfl

variable {a : Anchor} {p q : Path} {piece : Text} {parts : List Text}

/-- Anchor and names can be told from the components. -/
theorem lead_append_inj {b : Anchor} {l m : List Text}
    (h : a.lead ++ l.map Component.ofPiece = b.lead ++ m.map Component.ofPiece) : a = b ∧ l = m := by
  have hmap := map_injective_iff.2 Component.ofPiece_injective
  have hle : ∀ {c : Component} {l m : List Text}, c = .root ∨ c = .here →
      c :: l.map Component.ofPiece ≠ m.map Component.ofPiece := by
    intro c l m hc h
    obtain ⟨piece, pieces, -, hpc, -⟩ := map_eq_cons_iff.1 h.symm
    unfold Component.ofPiece at hpc
    rcases hc with rfl | rfl <;> split at hpc <;> cases hpc
  cases a <;> cases b <;> simp only [Anchor.lead] at h
  case root.root => exact ⟨rfl, hmap (List.cons.inj h).2⟩
  case here.here => exact ⟨rfl, hmap (List.cons.inj h).2⟩
  case none.none => exact ⟨rfl, hmap h⟩
  case root.none => exact absurd h (hle (.inl rfl))
  case here.none => exact absurd h (hle (.inr rfl))
  case none.root => exact absurd h.symm (hle (.inl rfl))
  case none.here => exact absurd h.symm (hle (.inr rfl))
  all_goals cases (List.cons.inj h).1

theorem anchor_eq :
    p.anchor = if p.text.head? = some '/' then .root else if p.slashed.head? = some ['.'] then .here else .none := by
  unfold anchor
  rcases p.pieces_cases with ⟨rest, htx, hps, -⟩ | ⟨hh, ⟨parts, hsl, hps⟩ | ⟨hdot, hps⟩⟩
  · simp [htx, hps]
  · simp [hh, hps, hsl]
  · simp [hh, hps, hdot]

theorem isAbsolute_iff : p.isAbsolute ↔ p.anchor = .root := by
  unfold isAbsolute
  rw [anchor_eq]
  split
  next h => simp [h]
  next h => split <;> simp [h]

/-- A path has at most one component more than it has characters. -/
theorem length_components_le : p.components.length ≤ p.text.length + 1 := by
  obtain ⟨front, hsl, hlen, -⟩ := p.slashed_eq
  calc
    p.components.length = p.anchor.lead.length + p.names.length := by
      rw [components_eq, length_append, length_map]
    _ ≤ front.length + p.pieces.2.length := by
      rw [hlen, ← filter_pieces]
      exact Nat.add_le_add_left (length_filter_le _ _) _
    _ = p.slashed.length := by rw [hsl, length_append]
    _ ≤ p.text.length + 1 := length_splitOn_le _ _

/-- The path goes up somewhere. -/
def climbs (p : Path) : Bool :=
  p.components.contains .parent

theorem ne_of_mem_names (h : p.climbs = false) (hpc : piece ∈ p.names) : piece ≠ ".." := by
  rintro rfl
  have hpar : Component.parent ∈ p.components := by
    rw [components_eq]
    exact mem_append_right _ (mem_map.2 ⟨_, hpc, rfl⟩)
  simp [climbs, hpar] at h

theorem isFiller_of_mem_names (h : piece ∈ p.names) : isFiller piece = false := by
  simpa using (mem_filter.1 h).2

/-! ## Directories -/

theorem filter_splitOn_intercalate (h : ∀ part ∈ parts, '/' ∉ part) :
    (List.splitOn '/' (List.intercalate "/" parts)).filter (!isFiller ·) = parts.filter (!isFiller ·) := by
  cases parts with
  | nil => rfl
  | cons part parts => rw [show (("/" : String) : Text) = ['/'] from rfl, splitOn_intercalate '/' h (by simp)]

/-- A path put together has the anchor and the names it is put together from. -/
theorem assemble_eq (hps : ∀ part ∈ parts, '/' ∉ part) (hno : a = .none → parts.head? ≠ some [] ∧ parts.head? ≠ some ['.']) :
    (assemble a parts).anchor = a ∧ (assemble a parts).names = parts.filter (!isFiller ·) := by
  have hfil := filter_splitOn_intercalate hps
  cases a with
  | root =>
    have hsl : (assemble .root parts).slashed = [] :: List.splitOn '/' (List.intercalate "/" parts) := by
      unfold slashed assemble
      rw [splitOn_cons_eq_if_modifyHead, if_pos (by rfl)]
    refine ⟨by simp [anchor_eq, assemble], ?_⟩
    exact hfil
  | here =>
    cases parts with
    | nil => exact ⟨rfl, rfl⟩
    | cons part parts =>
      have htx : (assemble .here (part :: parts)).text = ['.'] ++ '/' :: List.intercalate "/" (part :: parts) := rfl
      have hsl : (assemble .here (part :: parts)).slashed =
          ['.'] :: List.splitOn '/' (List.intercalate "/" (part :: parts)) := by
        rfl
      refine ⟨by simp [anchor_eq, htx, hsl], ?_⟩
      exact hfil
  | none =>
    refine ⟨?_, hfil⟩
    cases parts with
    | nil => rfl
    | cons part parts =>
      have hsl : (assemble .none (part :: parts)).slashed = part :: parts :=
        splitOn_intercalate '/' hps (by simp)
      have hh : (assemble .none (part :: parts)).text.head? ≠ some '/' := by
        intro h
        obtain ⟨rest, hr⟩ := head?_eq_some_iff.1 h
        rw [slashed, hr] at hsl
        exact (hno rfl).1 (by simp [← (List.cons.inj hsl).1])
      rw [anchor_eq, if_neg hh, hsl, if_neg (hno rfl).2]

theorem filter_trimFillers (parts : List Text) : (trimFillers parts).filter (!isFiller ·) = parts.filter (!isFiller ·) := by
  have htk : (parts.rtakeWhile isFiller).filter (!isFiller ·) = [] := by
    rw [filter_eq_nil_iff]
    intro piece hpc
    simp [mem_rtakeWhile_imp hpc]
  have hps : trimFillers parts ++ parts.rtakeWhile isFiller = parts := rdropWhile_append_rtakeWhile
  nth_rewrite 2 [← hps]
  rw [filter_append, htk, append_nil]

theorem head?_slashed_eq_nil (h : p.slashed.head? = some []) : p.text = [] ∨ p.text.head? = some '/' := by
  unfold slashed at h
  cases htx : p.text with
  | nil => exact .inl rfl
  | cons c t =>
    cases hc : c == '/' with
    | true => exact .inr (by simpa using hc)
    | false =>
      obtain ⟨piece, pieces, ht⟩ := exists_cons_of_ne_nil (splitOn_ne_nil '/' t)
      simp [htx, splitOn_cons_eq_if_modifyHead, hc, ht] at h

/-- Without an anchor a path starts with a name. -/
theorem head?_pieces_ne (h : p.names ≠ []) (hno : p.anchor = .none) :
    p.pieces.2.head? ≠ some [] ∧ p.pieces.2.head? ≠ some ['.'] := by
  unfold anchor at hno
  rcases p.pieces_cases with ⟨_, -, hps, -⟩ | ⟨hsl, ⟨_, -, hps⟩ | ⟨hdot, hps⟩⟩
  · simp [hps] at hno
  · simp [hps] at hno
  · rw [hps]
    refine ⟨fun hnil => ?_, hdot⟩
    rcases head?_slashed_eq_nil hnil with htx | htx
    · exact h (by simp [names, slashed, htx, isFiller])
    · exact hsl htx

theorem exists_trimFillers_eq (h : parts.filter (!isFiller ·) ≠ []) :
    ∃ front last, trimFillers parts = front ++ [last] ∧ isFiller last = false := by
  have hne : trimFillers parts ≠ [] := by
    intro hnil
    rw [← filter_trimFillers, hnil] at h
    exact h rfl
  have hl : ¬isFiller ((trimFillers parts).getLast hne) := rdropWhile_last_not isFiller parts hne
  exact ⟨_, _, (dropLast_append_getLast hne).symm, by simpa using hl⟩

/-- The directory of a path with a name has the names before it. -/
theorem exists_parent (h : p.names ≠ []) : ∃ q, p.parent? = some q ∧ q.anchor = p.anchor ∧ q.names = p.names.dropLast := by
  obtain ⟨front, last, htr, hl⟩ := exists_trimFillers_eq (p.filter_pieces ▸ h)
  have hfst : trimFillers front <+: p.pieces.2 := by
    have hfro : front <+: trimFillers p.pieces.2 := htr ▸ prefix_append _ _
    exact (List.rdropWhile_prefix isFiller _).trans (hfro.trans (List.rdropWhile_prefix isFiller _))
  have hps : ∀ part ∈ trimFillers front, '/' ∉ part := by
    intro part hp
    obtain ⟨lead, hsl, -⟩ := p.slashed_eq
    have hmem : part ∈ p.slashed := hsl ▸ mem_append_right lead (hfst.subset hp)
    exact not_mem_of_mem_splitOn hmem
  have hh : ∀ {part}, (trimFillers front).head? = some part → p.pieces.2.head? = some part := by
    intro part hp
    obtain ⟨more, hm⟩ := hfst
    rw [← hm, head?_append, hp]
    rfl
  have hpar : p.parent? = some (assemble p.anchor (trimFillers front)) := by
    unfold parent? anchor
    dsimp only
    rw [htr, reverse_append, reverse_singleton, singleton_append]
    dsimp only
    rw [reverse_reverse]
  obtain ⟨hanc, hns⟩ := assemble_eq hps fun hno =>
    ⟨fun hp => (head?_pieces_ne h hno).1 (hh hp), fun hp => (head?_pieces_ne h hno).2 (hh hp)⟩
  refine ⟨_, hpar, hanc, ?_⟩
  rw [hns, filter_trimFillers, ← filter_pieces, ← filter_trimFillers p.pieces.2, htr]
  simp [hl]

/-- The pieces of a relative path stand after those of its directory. -/
theorem slashed_join (h : q.isAbsolute = false) (hp : p.text ≠ []) :
    ∃ front, (p.join q).slashed = front ++ q.slashed ∧ front ≠ [] ∧ front.head? = p.slashed.head? ∧
      front.filter (!isFiller ·) = p.names ∧ (p.join q).text.head? = p.text.head? := by
  unfold join names
  rw [if_neg (by simp [h, hp])]
  split
  next hl =>
    obtain ⟨init, hi⟩ := getLast?_eq_some_iff.1 hl
    have hsl : p.slashed = List.splitOn '/' init ++ [[]] := by
      unfold slashed
      rw [hi, splitOn_append_cons_self]
      rfl
    have hne := splitOn_ne_nil '/' init
    refine ⟨List.splitOn '/' init, ?_, hne, ?_, ?_, ?_⟩
    · simp only [slashed]
      rw [hi, append_assoc, singleton_append, splitOn_append_cons_self]
    · rw [hsl, head?_append_of_ne_nil _ hne]
    · rw [hsl]
      simp [isFiller]
    · exact head?_append_of_ne_nil _ hp
  next =>
    have hne : p.slashed ≠ [] := splitOn_ne_nil _ _
    refine ⟨p.slashed, ?_, hne, rfl, rfl, ?_⟩
    · simp only [slashed]
      rw [append_assoc]
      exact splitOn_append_cons_self _ _
    · simp only [append_assoc]
      exact head?_append_of_ne_nil _ hp

/-- A path seen from a directory adds its names to the directory's. -/
theorem join_eq (h : q.isAbsolute = false) (hp : p.text ≠ []) :
    (p.join q).anchor = p.anchor ∧ (p.join q).names = p.names ++ q.names := by
  obtain ⟨front, hsl, hne, hh, hfil, htx⟩ := slashed_join h hp
  constructor
  · rw [anchor_eq, anchor_eq, htx, hsl, head?_append_of_ne_nil _ hne, hh]
  · rw [names, hsl, filter_append, hfil]
    rfl

/-- The last piece of the path is a component. -/
def EndsInName (p : Path) : Prop :=
  ∃ piece, p.slashed.getLast? = some piece ∧ isFiller piece = false

theorem EndsInName.names_ne_nil (h : p.EndsInName) : p.names ≠ [] := by
  obtain ⟨piece, hl, hpc⟩ := h
  exact ne_nil_of_mem (mem_filter.2 ⟨mem_of_getLast? hl, by simp [hpc]⟩)

theorem EndsInName.of_join (h : (p.join q).EndsInName) (hq : q.isAbsolute = false) : q.EndsInName := by
  by_cases hp : p.text = []
  · have hjoin : p.join q = q := by simp [join, hp]
    rwa [hjoin] at h
  · obtain ⟨piece, hl, hpc⟩ := h
    obtain ⟨front, hsl, -⟩ := slashed_join hq hp
    have hne : q.slashed ≠ [] := splitOn_ne_nil _ _
    rw [hsl, getLast?_append_of_ne_nil _ hne] at hl
    exact ⟨piece, hl, hpc⟩

/-- The components of the directory that the path lies in. -/
def above (p : Path) : List Component :=
  p.components.dropLast

theorem above_eq (h : p.names ≠ []) : p.above = p.anchor.lead ++ p.names.dropLast.map Component.ofPiece := by
  rw [above, components_eq, dropLast_append_of_ne_nil (by simpa using h), map_dropLast]

/-- A relative path seen from the directory of another lies at or below it. -/
theorem above_prefix_join (hp : p.names ≠ []) (hq : q.isAbsolute = false) (h : ((p.parent?.getD "").join q).EndsInName) :
    p.above <+: ((p.parent?.getD "").join q).above := by
  obtain ⟨dir, hpar, hanc, hns⟩ := exists_parent hp
  rw [hpar, Option.getD_some] at h ⊢
  have hdir : p.above = dir.components := by rw [above_eq hp, components_eq, hanc, hns]
  by_cases hemp : dir.text = []
  · have hno : dir.components = [] := by
      rw [show dir = ⟨[]⟩ from congrArg Path.mk hemp]
      rfl
    rw [hdir, hno]
    exact nil_prefix
  · obtain ⟨hanc', hns'⟩ := join_eq hq hemp
    have hq' := (h.of_join hq).names_ne_nil
    rw [above_eq h.names_ne_nil, hdir, components_eq, hanc', hns', dropLast_append_of_ne_nil hq', map_append, ← append_assoc]
    exact prefix_append _ _

end Path

end Declass
