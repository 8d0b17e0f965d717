import Declass.Proofs.Text.Trim
import Declass.Type.CType
import Mathlib.Tactic.SplitIfs

/-!
# Tags and signatures

Two tables tell tags and categories from a spelling, and they agree (`Tag.letter_ofSpelling_iff`). A function type is taken apart
into the parts that it is put together from (`parse_spelled`).
-/

namespace Declass

namespace TypeCategory

/-- The tag of the types of a category. -/
def tag : TypeCategory → Tag
  | bool => .bool
  | char => .char
  | integer => .integer
  | float => .float
  | double => .double
  | void | userEnum _ | userClass _ | unknown => .other

theorem tag_category (env : TypeEnv) (spelling : Text) :
    (CType.ofSpelling env spelling).category.tag = Tag.ofSpelling spelling := by
  unfold CType.ofSpelling Tag.ofSpelling ofBase
  dsimp only
  generalize Spelling.base spelling = base
  by_cases hvoid : base = "void"
  · subst hvoid
    rfl
  by_cases hchar : base = "char" ∨ base = "signed char" ∨ base = "unsigned char"
  · rcases hchar with rfl | rfl | rfl <;> rfl
  split_ifs <;> rfl

end TypeCategory

/-- The letter of a spelling is its category's, in any environment. -/
theorem Tag.letter_ofSpelling_iff (env : TypeEnv) (spelling : Text) :
    ((ofSpelling spelling).letter = 'b' ↔ (CType.ofSpelling env spelling).category = .bool) ∧
      ((ofSpelling spelling).letter = 'c' ↔ (CType.ofSpelling env spelling).category = .char) ∧
      ((ofSpelling spelling).letter = 'f' ↔ (CType.ofSpelling env spelling).category = .float) ∧
      ((ofSpelling spelling).letter = 'd' ↔ (CType.ofSpelling env spelling).category = .double) ∧
      ((ofSpelling spelling).letter = 'i' ↔ (CType.ofSpelling env spelling).category = .integer) ∧
      ((ofSpelling spelling).letter = 'x' ↔ (CType.ofSpelling env spelling).category = .void ∨
        (∃ name, (CType.ofSpelling env spelling).category = .userEnum name) ∨
        (∃ name, (CType.ofSpelling env spelling).category = .userClass name) ∨
        (CType.ofSpelling env spelling).category = .unknown) := by
  rw [← TypeCategory.tag_category env]
  cases (CType.ofSpelling env spelling).category <;> simp [TypeCategory.tag, letter]

open List Text

namespace Signature

variable {depth : Nat} {piece rest t : Text}

/-- Inside `depth` brackets the text closes these only, commas inside. -/
def closesAll (depth : Nat) : Text → Bool
  | [] => depth = 0
  | c :: t =>
    if c = '(' ∨ c = '<' ∨ c = '[' then closesAll (depth + 1) t
    else if c = ')' ∨ c = '>' ∨ c = ']' then 0 < depth && closesAll (depth - 1) t
    else (c ≠ ',' || 0 < depth) && closesAll depth t

/-- A spelling of a function type, put together from its parts. -/
def spelled (s : Signature) : Text :=
  s.ret ++ " (" ++ intercalate ", " s.params ++ ") " ++ s.qualifiers

/-- A text that closes its brackets is read into one piece. -/
theorem pieces_append (h : closesAll depth t = true) :
    pieces (depth + 1) piece (t ++ rest) = pieces 1 (t.reverse ++ piece) rest := by
  fun_induction closesAll depth t generalizing piece with
  | case1 depth => rw [of_decide_eq_true h]; rfl
  | case2 depth c t hop ih => rw [cons_append, pieces, if_pos hop, ih h, reverse_cons, append_assoc, singleton_append]
  | case3 depth c t hop hcl ih =>
    obtain ⟨hpos, h⟩ := Bool.and_eq_true_iff.1 h
    have hpos : 0 < depth := of_decide_eq_true hpos
    rw [cons_append, pieces, if_neg hop, if_pos hcl, if_neg (by omega), show depth + 1 - 1 = depth - 1 + 1 by omega, ih h,
      reverse_cons, append_assoc, singleton_append]
  | case4 depth c t hop hcl ih =>
    obtain ⟨hpos, h⟩ := Bool.and_eq_true_iff.1 h
    have hcm : ¬(c = ',' ∧ depth + 1 = 1) := by
      rintro ⟨rfl, hd⟩
      simp_all
    rw [cons_append, pieces, if_neg hop, if_neg hcl, if_neg hcm, ih h, reverse_cons, append_assoc, singleton_append]

/-- A parameter type after a space is read as that type. -/
theorem pieces_parameter {p : Text} (hp : trim p = p ∧ closesAll 0 p = true) (hpc : allBlank piece.reverse = true) :
    pieces 1 piece (p ++ rest) = pieces 1 (p.reverse ++ piece) rest ∧ trim (p.reverse ++ piece).reverse = p :=
  ⟨pieces_append hp.2, by rw [reverse_append, reverse_reverse, trim_append_of_allBlank_left hpc, hp.1]⟩

theorem pieces_join {ps : List Text} (hne : ps ≠ []) (hps : ∀ p ∈ ps, trim p = p ∧ closesAll 0 p = true)
    (hpc : allBlank piece.reverse = true) : pieces 1 piece (intercalate ", " ps ++ ')' :: rest) = (ps, rest) := by
  induction ps generalizing piece with
  | nil => exact absurd rfl hne
  | cons p ps ih =>
    obtain ⟨hp, hps⟩ := forall_mem_cons.1 hps
    cases ps with
    | nil =>
      obtain ⟨hread, htrim⟩ := pieces_parameter hp hpc
      rw [intercalate_singleton, hread, pieces, if_neg (by decide), if_pos (by decide), if_pos (by decide), htrim]
    | cons q ps =>
      obtain ⟨hread, htrim⟩ := pieces_parameter hp hpc
      rw [intercalate_cons_cons, append_assoc, append_assoc, hread]
      change pieces 1 _ (',' :: ' ' :: (intercalate ", " (q :: ps) ++ ')' :: rest)) = _
      rw [pieces, if_neg (by decide), if_neg (by decide), if_pos (by decide), htrim]
      rw [pieces, if_neg (by decide), if_neg (by decide), if_neg (by decide), ih (by simp) hps (by decide)]

theorem cut?_singleton {sep : Char} {x y : Text} (hx : sep ∉ x) : cut? [sep] (x ++ sep :: y) = some (x, y) := by
  induction x with
  | nil => simp [cut?, after?]
  | cons d x ih =>
    obtain ⟨hd, hx⟩ := not_or.1 (mt mem_cons.2 hx)
    simp [cut?, after?, hd, ih hx]

/-- The parts of a function type are read back, if no parameter type is empty or holds a comma outside its brackets. -/
theorem parse_spelled (s : Signature) (hret : '(' ∉ s.ret ∧ trim s.ret = s.ret)
    (hparams : ∀ p ∈ s.params, p ≠ [] ∧ trim p = p ∧ closesAll 0 p = true) (hvoid : s.params ≠ [("void" : Text)])
    (hqualifiers : trim s.qualifiers = s.qualifiers) : parse s.spelled = s := by
  have hcut : cut? "(" s.spelled = some (s.ret ++ " ", intercalate ", " s.params ++ ')' :: ' ' :: s.qualifiers) := by
    have hspace : '(' ∉ s.ret ++ " " := by simp [hret.1]
    simpa [spelled] using cut?_singleton hspace (y := intercalate ", " s.params ++ ')' :: ' ' :: s.qualifiers)
  have hpieces : (pieces 1 [] (intercalate ", " s.params ++ ')' :: ' ' :: s.qualifiers)).2 = ' ' :: s.qualifiers ∧
      (pieces 1 [] (intercalate ", " s.params ++ ')' :: ' ' :: s.qualifiers)).1.filter (· ≠ []) = s.params := by
    by_cases hne : s.params = []
    · rw [hne]
      exact ⟨rfl, rfl⟩
    · rw [pieces_join hne (fun p hp => (hparams p hp).2) rfl]
      exact ⟨rfl, filter_eq_self.2 fun p hp => by simpa using (hparams p hp).1⟩
  have hblank : allBlank " " = true := by decide
  rw [parse, hcut]
  simp only [hpieces.1, hpieces.2, if_neg hvoid, trim_append_of_allBlank_right hblank, hret.2]
  rw [show ' ' :: s.qualifiers = " " ++ s.qualifiers from rfl, trim_append_of_allBlank_left hblank, hqualifiers]

theorem parse_spelled_callback :
    parse (spelled ⟨"bool", ["void (*)(int, char)", "std::map<int, char[3]>"], "const noexcept"⟩) =
      ⟨"bool", ["void (*)(int, char)", "std::map<int, char[3]>"], "const noexcept"⟩ :=
  parse_spelled _ (by decide) (by decide) (by decide) (by decide)

end Signature

end Declass
