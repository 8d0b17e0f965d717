import Declass.Proofs.Token.Scan
import Mathlib.Data.List.Induction

/-!
# Scanning tokens

The scanner reads a token that can be moved as a whole: a literal or a comment that ends, a directive without loose lines, no `#`
within a line. Main statements: `Token.run_lexeme`, and `Token.lexeme_of_run` that it reads no others.
-/

namespace Declass

open List

namespace Token

/-! ## Tokens that can be moved -/

/-- The rest of a literal ends with the first quote that is not hidden. -/
def literalEnds (quote : Char) : Text → Bool
  | [] => false
  | ['\\'] => false
  | '\\' :: _ :: t => literalEnds quote t
  | c :: t => if c = quote then t.isEmpty else literalEnds quote t

/-- A literal or a comment ends where it should. -/
def isTerminated (t : Token) : Bool :=
  match t.kind with
  | .string => literalEnds '"' t.text.tail
  | .char => literalEnds '\'' t.text.tail
  | .comment => Text.startsWith t.text "//" || Text.endsWith (t.text.drop 2) "*/"
  | _ => true

/-- A line of a directive that needs its last blanks. -/
def isLoose (line : Text) : Bool :=
  Text.allBlank line || ((Text.trimEnd line).getLast? == some '\\' && !isContinued line)

/-- None of the lines is loose, and the last one is not continued. -/
def firmLines (t : Text) : Bool :=
  (List.splitOn '\n' t).all (!isLoose ·) && !((List.splitOn '\n' t).getLast?.any isContinued)

/-- The lines of a directive can be moved. -/
def isFirm (t : Token) : Bool :=
  t.kind != .directive || firmLines t.text

/-- Only a line feed ends the token: a directive, or a comment with `//`. -/
def endsLine (t : Token) : Bool :=
  t.kind == .directive || (t.kind == .comment && Text.startsWith t.text "//")

/-- The token means the same wherever a token can start. -/
def isMovable (t : Token) : Bool :=
  t.isTerminated && t.isFirm && !t.isStray

end Token

namespace Bracket

/-- The open groups, innermost first, after one more token. -/
def pass (s : List Bracket) (t : Token) : Option (List Bracket) :=
  match opened? t, closed? t with
  | some b, _ => some (b :: s)
  | none, some b => close b s
  | none, none => some s

end Bracket

namespace Token

open Scan

variable {r rest t l : Text} {c q prev d : Char} {hex lineStart inSpace : Bool} {m : Mode} {s s' : List Bracket}

/-! ## Runs of characters of one kind -/

/-- Where a run of characters stops. -/
theorem takeWhile_stop {p : Char → Bool} (h : ((r ++ rest).takeWhile p).length = r.length) :
    r.all p ∧ ∀ d, rest.head? = some d → p d = false := by
  have hr : r.takeWhile p = r := by
    have htk := takeWhile_append_of_le (Nat.le_of_eq h)
    rw [htk] at h
    exact (List.takeWhile_prefix p).eq_of_length h
  have hall : r.all p := takeWhile_eq_self_iff.1 hr |> all_eq_true.2
  refine ⟨hall, ?_⟩
  intro d hd
  rw [takeWhile_append_of_pos (all_eq_true.1 hall), length_append] at h
  cases rest with
  | nil => nomatch hd
  | cons e rest =>
    cases hd
    rw [Bool.eq_false_iff]
    intro hp
    rw [takeWhile_cons_of_pos hp, length_cons] at h
    omega

theorem isSpace_of_startsSpace (h : startsSpace c) : isSpace c := by
  simp only [startsSpace, isSpace, Bool.or_eq_true] at h ⊢
  exact h.imp_left .inl

theorem isBlank_of_isSpace (h : isSpace c) : Text.isBlank c := by
  simp only [isSpace, Bool.or_eq_true, beq_iff_eq] at h
  rcases h with (((rfl | rfl) | rfl) | rfl) | rfl <;> decide

theorem isSpace_eq_false_of_continuesIdent (h : continuesIdent c) : isSpace c = false :=
  eq_false_of_imp isBlank_of_isSpace (isBlank_eq_false_of_continuesIdent h)

/-- White space keeps the start of a line, and a line feed makes one. -/
theorem run_space (h : r.all isSpace) (lineStart : Bool) (s : List Bracket) :
    run (.code lineStart true, s) r = some (.code (lineStart || r.any (· == '\n')) true, s) := by
  induction r generalizing lineStart with
  | nil => simp
  | cons c r ih =>
    simp only [all_cons, Bool.and_eq_true] at h
    have hst : Mode.start lineStart true c = some (.code (lineStart || c == '\n') true) := by
      have hc := h.1
      simp only [isSpace, Bool.or_eq_true] at hc
      unfold Mode.start
      rw [if_pos]
      simp only [startsSpace, Bool.or_eq_true]
      exact or_right_comm.1 hc
    rw [run_cons, next_code, hst, turn_of_isBlank (isBlank_of_isSpace h.1)]
    exact (ih h.2 _).trans (by rw [any_cons, Bool.or_assoc])

/-- A comment with `//` is read up to a line feed. -/
theorem run_lineComment (h : r.all (· ≠ '\n')) (s : List Bracket) : run (.lineComment, s) r = some (.lineComment, s) := by
  induction r with
  | nil => rfl
  | cons c r ih =>
    simp only [all_cons, Bool.and_eq_true, decide_eq_true_eq] at h
    rw [run_cons, next_onward (by simp [Mode.fresh?, h.1]) rfl]
    exact ih h.2

/-! ## Comments between `/*` and `*/` -/

/-- The `*` that was read matters only for a `/`. -/
theorem run_blockComment_star (h : t.head? ≠ some '/') (ht : t ≠ []) (star : Bool) (s : List Bracket) :
    run (.blockComment star, s) t = run (.blockComment false, s) t := by
  cases t with
  | nil => exact absurd rfl ht
  | cons c t =>
    have hc : c ≠ '/' := by
      rintro rfl
      exact h rfl
    simp [Scan.next, Mode.fresh?, Mode.onward, hc]

theorem next_blockComment {star : Bool} (h : star = false ∨ c ≠ '/') (s : List Bracket) :
    next (.blockComment star, s) c = some (.blockComment (c == '*'), s) := by
  rcases h with rfl | h
  · simp [Scan.next, Mode.fresh?, Mode.onward]
  · simp [Scan.next, Mode.fresh?, Mode.onward, h]

/-- A comment is read to its end, or takes all that follows. -/
theorem run_comment (h : commentLength (t ++ rest) = t.length) (s : List Bracket) :
    Text.endsWith t "*/" ∧ run (.blockComment false, s) t = some (.code false false, s) ∨
      Text.endsWith t "*/" = false ∧ rest = [] ∧ ∃ star, run (.blockComment false, s) t = some (.blockComment star, s) := by
  induction t with
  | nil =>
    refine .inr ⟨rfl, ?_, false, rfl⟩
    rw [nil_append] at h
    unfold commentLength at h
    split at h
    · rfl
    · cases h
    · cases h
  | cons c t ih =>
    by_cases hend : c = '*' ∧ (t ++ rest).head? = some '/'
    · obtain ⟨rfl, hh⟩ := hend
      obtain ⟨u, hu⟩ := head?_eq_some_iff.1 hh
      rw [cons_append, hu, commentLength.eq_2, length_cons] at h
      have hlen : t.length = 1 := by omega
      obtain ⟨d, rfl⟩ := length_eq_one_iff.1 hlen
      cases hu
      exact .inl ⟨rfl, rfl⟩
    · have hs : commentLength (c :: (t ++ rest)) = commentLength (t ++ rest) + 1 := by
        refine commentLength.eq_3 c (t ++ rest) ?_
        intro u hc hu
        exact hend ⟨hc, by rw [hu]; rfl⟩
      rw [cons_append, hs, length_cons, Nat.add_right_cancel_iff] at h
      have hne : ['*', '/'] ≠ c :: t := by
        rintro ⟨⟩
        exact hend ⟨rfl, rfl⟩
      have hends : Text.endsWith (c :: t) "*/" = Text.endsWith t "*/" := by
        rw [Bool.eq_iff_iff, Text.endsWith, Text.endsWith, isSuffixOf_iff_suffix, isSuffixOf_iff_suffix, suffix_cons_iff]
        exact or_iff_right hne
      have hrun : t ≠ [] → run (.blockComment false, s) (c :: t) = run (.blockComment false, s) t := by
        intro ht
        rw [run_cons, next_blockComment (.inl rfl), Option.bind_some]
        by_cases hc : c = '*'
        · refine run_blockComment_star (fun hh => hend ⟨hc, ?_⟩) ht _ s
          rw [head?_append, hh]
          rfl
        · rw [beq_eq_false_iff_ne.2 hc]
      rw [hends]
      cases t with
      | nil => exact (ih h).imp (fun he => by cases he.1) fun he => ⟨he.1, he.2.1, _, next_blockComment (.inl rfl) s⟩
      | cons d t =>
        rw [hrun (cons_ne_nil d t)]
        exact ih h

/-! ## Literals -/

/-- A backslash hides the next character. -/
theorem next_quoted_backslash : next (.quoted q false, s) '\\' = some (.quoted q true, s) := by
  simp [Scan.next, Mode.fresh?, Mode.onward]

/-- A literal goes on up to its mark. -/
theorem next_quoted (hsl : c ≠ '\\') (hf : c ≠ '\n') :
    next (.quoted q false, s) c = some (if c = q then .code false false else .quoted q false, s) := by
  simp only [Scan.next, Mode.fresh?, Mode.onward, hsl, hf, if_false, Bool.false_eq_true]
  split <;> rfl

theorem literalEnds_cons (hsl : c ≠ '\\') : literalEnds q (c :: t) = if c = q then t.isEmpty else literalEnds q t := by
  rw [literalEnds.eq_4]
  · intro hc
    exact absurd hc hsl
  · intro d u hc
    exact absurd hc hsl

/-- A literal is read to its end, a line feed or the text's end. -/
theorem run_literal (h : quotedLength q (t ++ rest) = t.length) (s : List Bracket) :
    literalEnds q t ∧ run (.quoted q false, s) t = some (.code false false, s) ∨
      literalEnds q t = false ∧ ∃ hidden, run (.quoted q false, s) t = some (.quoted q hidden, s) ∧
        (rest = [] ∨ (hidden = false ∧ rest.head? = some '\n')) := by
  induction hn : t.length using Nat.strongRecOn generalizing t with
  | ind n ih =>
    cases t with
    | nil =>
      refine .inr ⟨rfl, false, rfl, ?_⟩
      cases rest with
      | nil => exact .inl rfl
      | cons c rest =>
        refine .inr ⟨rfl, ?_⟩
        rw [nil_append, length_nil] at h
        by_cases hsl : c = '\\'
        · subst hsl
          cases rest <;> simp [quotedLength] at h
        · rw [quotedLength_cons hsl] at h
          by_cases hf : c = '\n'
          · rw [hf]
            rfl
          · rw [if_neg hf] at h
            split at h <;> omega
    | cons c t =>
      rw [length_cons] at hn
      by_cases hsl : c = '\\'
      · subst hsl
        cases t with
        | nil =>
          cases rest with
          | nil => exact .inr ⟨rfl, true, by rw [run_cons]; rfl, .inl rfl⟩
          | cons d rest => simp [quotedLength] at h
        | cons d t =>
          rw [length_cons] at hn
          simp only [cons_append, quotedLength, length_cons, Nat.add_right_cancel_iff] at h
          rw [run_cons, next_quoted_backslash, Option.bind_some, literalEnds]
          exact ih t.length (by omega) h rfl
      · rw [cons_append, quotedLength_cons hsl, length_cons] at h
        rw [literalEnds_cons hsl]
        have hf : c ≠ '\n' := by
          intro hc
          rw [if_pos hc] at h
          omega
        rw [if_neg hf] at h
        rw [run_cons, next_quoted hsl hf]
        by_cases hq : c = q
        · rw [if_pos hq] at h ⊢
          have ht : t = [] := eq_nil_of_length_eq_zero (by omega)
          rw [ht, if_pos hq]
          exact .inl ⟨rfl, rfl⟩
        · rw [if_neg hq] at h ⊢
          rw [if_neg hq]
          exact ih t.length (by omega) (by omega) rfl

/-! ## Numbers -/

/-- The mode after the character `prev` of a number. -/
def numberMode (hex : Bool) (prev : Char) : Mode :=
  .number hex (isExponent prev && !hex) false

/-- One step of a number. -/
theorem numberLength_cons (hex : Bool) (prev c : Char) (t : Text) : numberLength hex prev (c :: t) =
      if (continuesNumber (isExponent prev && !hex) c && (c != '\'' || t.head?.any Char.isAlphanum)) then numberLength hex c t + 1
      else 0 := by
  have hcond : (c.isAlphanum || c == '.' || c == '_' ||
      (c == '+' || c == '-') && (prev == 'e' || prev == 'E' || prev == 'p' || prev == 'P') && !hex ||
      c == '\'' && t.head?.any Char.isAlphanum) =
      (continuesNumber (isExponent prev && !hex) c && (c != '\'' || t.head?.any Char.isAlphanum)) := by
    by_cases hc : c = '\''
    · subst hc
      simp [continuesNumber]
    · rw [bne_iff_ne.2 hc]
      simp only [continuesNumber, isExponent, beq_eq_false_iff_ne.2 hc, Bool.false_and, Bool.or_false, Bool.true_or,
        Bool.and_true]
      rw [Bool.and_comm (c == '+' || c == '-'), Bool.and_assoc, Bool.and_assoc, Bool.and_comm !hex]
  rw [numberLength]
  simp only [hcond]

/-- The scanner goes on with a number as the lexer does. -/
theorem next_number {zero : Bool} (hz : zero = false ∨ c ≠ 'x') (hq : c ≠ '\'')
    (hc : continuesNumber (isExponent prev && !hex) c) (s : List Bracket) :
    next (.number hex (isExponent prev && !hex) zero, s) c = some (numberMode hex c, s) := by
  have hx : (zero && c == 'x') = false := by
    rcases hz with rfl | hx
    · rfl
    · rw [beq_eq_false_iff_ne.2 hx, Bool.and_false]
  rw [next_onward]
  · simp [Mode.fresh?, hc]
  · simp [Mode.onward, hq, hx, numberMode]

theorem continuesNumber_of_isAlphanum (h : c.isAlphanum) (sign : Bool) : continuesNumber sign c := by
  simp [continuesNumber, h]

theorem ne_quote_of_isAlphanum (h : c.isAlphanum) : c ≠ '\'' := by
  rintro rfl
  exact absurd h (by decide)

/-- The scanner reads a number to its end. -/
theorem run_number (h : numberLength hex prev (t ++ rest) = t.length) (s : List Bracket) :
    ∃ last, run (numberMode hex prev, s) t = some (numberMode hex last, s) ∧ numberLength hex last rest = 0 := by
  induction t generalizing prev with
  | nil => exact ⟨prev, rfl, h⟩
  | cons c t ih =>
    rw [cons_append, numberLength_cons, length_cons] at h
    split at h
    · rename_i hgo
      rw [Nat.add_right_cancel_iff] at h
      rw [Bool.and_eq_true] at hgo
      obtain ⟨hc, hquo⟩ := hgo
      obtain ⟨last, hr, hl⟩ := ih h
      refine ⟨last, ?_, hl⟩
      rw [run_cons]
      by_cases hq : c = '\''
      · subst hq
        have hsep : next (numberMode hex prev, s) '\'' = some (.separator hex, s) := by
          rw [next_onward]
          · simp [numberMode, Mode.fresh?, continuesNumber]
          · simp [numberMode, Mode.onward]
        rw [hsep, Option.bind_some, ← hr]
        cases t with
        | nil =>
          cases rest with
          | nil => simp at hquo
          | cons d rest =>
            have hd : d.isAlphanum := by simpa using hquo
            have := numberLength_pos hex '\'' hd rest
            rw [nil_append, length_nil] at h
            omega
        | cons d t =>
          have hd : d.isAlphanum := by simpa using hquo
          rw [run_cons, run_cons, numberMode, next_number (.inl rfl) (ne_quote_of_isAlphanum hd)
            (continuesNumber_of_isAlphanum hd _), next_onward (n := numberMode hex d) rfl (by simp [Mode.onward, hd, numberMode])]
      · rw [numberMode, next_number (.inl rfl) hq hc]
        exact hr
    · omega

/-- What follows a number does not go on with it, unless it is a quote. -/
theorem continuesNumber_of_numberLength {last : Char} (h : numberLength hex last (d :: rest) = 0) (hd : d ≠ '\'') :
    continuesNumber (isExponent last && !hex) d = false := by
  rw [numberLength_cons, bne_iff_ne.2 hd] at h
  split at h
  · nomatch h
  · rename_i hc
    simpa using hc

theorem isExponent_of_isDigit (h : c.isDigit) : isExponent c = false := by
  simp only [isExponent, Bool.or_eq_false_iff, beq_eq_false_iff_ne]
  exact ⟨⟨⟨ne_of_holds h (by decide), ne_of_holds h (by decide)⟩, ne_of_holds h (by decide)⟩, ne_of_holds h (by decide)⟩

/-- A number is hexadecimal if its first digit is `0` and an `x` follows. -/
theorem run_number_cons (hc : c.isDigit) (zero : Bool) (d : Char) (t : Text) (s : List Bracket) :
    run (.number false false zero, s) (d :: t) = run (numberMode (zero && d == 'x') c, s) (d :: t) := by
  have hfr (h₁ h₂ z₁ z₂ : Bool) : (Mode.number h₁ false z₁).fresh? d = (Mode.number h₂ false z₂).fresh? d := rfl
  have honw : (Mode.number false false zero).onward d = (Mode.number (zero && d == 'x') false false).onward d := by
    by_cases hd : d = '\''
    · subst hd
      cases zero <;> rfl
    · simp [Mode.onward, hd]
  have hnx : next (.number false false zero, s) d = next (numberMode (zero && d == 'x') c, s) d := by
    rw [numberMode, isExponent_of_isDigit hc, Bool.false_and]
    simp only [Scan.next, honw, hfr false (zero && d == 'x') zero false]
  rw [run_cons, run_cons, hnx]

/-! ## Directives -/

/-- The last character tells if a line is continued. -/
theorem isContinued_concat : isContinued (l ++ [c]) = if c = '\r' then isContinued l else c == '\\' := by
  by_cases hc : c = '\r' <;> simp [isContinued, hc]

theorem trimEnd_concat : Text.trimEnd (l ++ [c]) = if Text.isBlank c then Text.trimEnd l else l ++ [c] := by
  cases hc : Text.isBlank c <;> simp [Text.trimEnd, Text.dropEndWhile, hc]

/-- A continued line is trimmed to its backslash. -/
theorem getLast_trimEnd_of_isContinued (h : isContinued l) : (Text.trimEnd l).getLast? = some '\\' := by
  induction l using reverseRecOn with
  | nil => nomatch h
  | append_singleton l c ih =>
    rw [isContinued_concat] at h
    rw [trimEnd_concat]
    by_cases hc : c = '\r'
    · rw [if_pos hc] at h
      rw [hc]
      exact ih h
    · rw [if_neg hc, beq_iff_eq] at h
      rw [h, if_neg (by decide)]
      simp

/-- What a whole line of a directive holds. -/
def lineTail (l : Text) : LineTail :=
  if Text.allBlank l then .blank
  else if isContinued l then .backslash
  else if (Text.trimEnd l).getLast? = some '\\' then .loose
  else .text

theorem foldl_add : l.foldl LineTail.add .blank = lineTail l := by
  induction l using reverseRecOn with
  | nil => rfl
  | append_singleton l c ih =>
    rw [foldl_append, ih]
    have hall : Text.allBlank (l ++ [c]) = (Text.allBlank l && Text.isBlank c) := by simp [Text.allBlank]
    rw [lineTail, lineTail, hall, isContinued_concat, trimEnd_concat]
    by_cases hsl : c = '\\'
    · subst hsl
      simp [LineTail.add, Text.isBlank]
    cases hbl : Text.isBlank c with
    | false =>
      have hcr : c ≠ '\r' := by
        rintro rfl
        exact absurd hbl (by decide)
      simp [LineTail.add, hsl, hbl, hcr]
    | true =>
      by_cases hl : Text.allBlank l
      · simp [LineTail.add, hsl, hbl, hl]
      have hret : Text.isBlank '\r' := by decide
      by_cases hc : isContinued l
      · by_cases hcr : c = '\r'
        · simp [LineTail.add, hcr, hret]
        · simp [LineTail.add, hbl, hl, hc, hcr, getLast_trimEnd_of_isContinued hc]
      · by_cases hla : (Text.trimEnd l).getLast? = some '\\' <;>
          by_cases hcr : c = '\r' <;> simp [LineTail.add, hbl, hl, hc, hcr, hla, hret]

/-- A line of a directive is read to its end. -/
theorem run_directiveLine (h : '\n' ∉ l) (tail : LineTail) (s : List Bracket) :
    run (.directive tail, s) l = some (.directive (l.foldl LineTail.add tail), s) := by
  induction l generalizing tail with
  | nil => rfl
  | cons c l ih =>
    rw [mem_cons, not_or] at h
    have hc : c ≠ '\n' := fun hc => h.1 hc.symm
    rw [run_cons, next_onward (n := .directive (tail.add c)) (by simp [Mode.fresh?, hc]) (by simp [Mode.onward, hc])]
    exact ih h.2 (tail.add c)

/-- A line ends in text if it is firm and not continued. -/
theorem lineTail_eq_text_iff : lineTail l = .text ↔ isLoose l = false ∧ isContinued l = false := by
  unfold lineTail isLoose
  cases Text.allBlank l <;> cases isContinued l <;> by_cases h : (Text.trimEnd l).getLast? = some '\\' <;> simp

theorem lineTail_eq_backslash_iff : lineTail l = .backslash ↔ isLoose l = false ∧ isContinued l := by
  unfold lineTail isLoose
  cases Text.allBlank l <;> cases isContinued l <;> by_cases h : (Text.trimEnd l).getLast? = some '\\' <;> simp [h]

theorem firmLines_single (h : '\n' ∉ l) : firmLines l ↔ lineTail l = .text := by
  rw [firmLines, splitOn_eq_singleton h, lineTail_eq_text_iff]
  simp

/-- A directive is firm line by line. -/
theorem firmLines_line (h : '\n' ∉ l) (r : Text) : firmLines (l ++ '\n' :: r) ↔ isLoose l = false ∧ firmLines r := by
  have hl : (l :: List.splitOn '\n' r).getLast? = (List.splitOn '\n' r).getLast? :=
    getLast?_cons_of_ne_nil (splitOn_ne_nil _ r)
  rw [firmLines, firmLines, splitOn_append_cons_self_of_not_mem h, hl]
  simp [and_assoc]

/-- A directive with firm lines is read to its end. -/
theorem run_directive (h : directiveLength t = t.length) (hfm : firmLines t) :
    run (.directive .blank, s) t = some (.directive .text, s) := by
  induction t using line_induction with
  | line t hln => rw [run_directiveLine hln, foldl_add, (firmLines_single hln).1 hfm]
  | feed l r hl ih =>
    obtain ⟨hloose, hfm'⟩ := (firmLines_line hl r).1 hfm
    rw [directiveLength_feed hl, length_append, length_cons] at h
    split at h
    · rename_i hc
      rw [run_append_of_eq (run_directiveLine hl _ s), foldl_add, lineTail_eq_backslash_iff.2 ⟨hloose, hc⟩]
      exact ih (by omega) hfm'
    · omega

/-- A directive that is not the end of the text ends before a line feed. -/
theorem head_drop_directiveLength (h : directiveLength t < t.length) : (t.drop (directiveLength t)).head? = some '\n' := by
  induction t using line_induction with
  | line t hln =>
    rw [directiveLength_line hln] at h
    omega
  | feed l r hl ih =>
    rw [directiveLength_feed hl, length_append, length_cons] at h
    rw [directiveLength_feed hl]
    split
    · rename_i hc
      rw [if_pos hc] at h
      have hd : (l ++ '\n' :: r).drop (l.length + 1 + directiveLength r) = r.drop (directiveLength r) := by
        rw [Nat.add_assoc, Nat.add_comm 1, drop_append, drop_of_length_le (by omega), Nat.add_sub_cancel_left]
        rfl
      rw [hd]
      exact ih (by omega)
    · rw [drop_left]
      rfl

/-- The scanner gives up in a directive whose lines are not firm. -/
theorem firmLines_of_run (h : directiveLength (t ++ rest) = t.length)
    (hr : run (.directive .blank, s) (t ++ rest) = some (m, s')) (hm : m.isCode) : firmLines t := by
  induction t using line_induction with
  | line t hln =>
    rw [run_append_of_eq (run_directiveLine hln _ s), foldl_add] at hr
    rw [firmLines_single hln]
    cases rest with
    | nil =>
      cases hr
      nomatch hm
    | cons d rest =>
      have hd : d = '\n' := by
        have hlt : directiveLength (t ++ d :: rest) < (t ++ d :: rest).length := by
          rw [length_append, length_cons]
          omega
        have hh := head_drop_directiveLength hlt
        rw [h, drop_left] at hh
        exact Option.some.inj hh
      subst hd
      rw [directiveLength_feed hln] at h
      cases htl : lineTail t with
      | text => rfl
      | backslash =>
        rw [if_pos (lineTail_eq_backslash_iff.1 htl).2] at h
        omega
      | blank =>
        rw [htl] at hr
        nomatch hr
      | loose =>
        rw [htl] at hr
        nomatch hr
  | feed l r hl ih =>
    rw [append_assoc, cons_append] at h hr
    rw [directiveLength_feed hl, length_append, length_cons] at h
    split at h
    · rename_i hc
      rw [run_append_of_eq (run_directiveLine hl _ s), foldl_add] at hr
      cases htl : lineTail l with
      | backslash =>
        rw [htl] at hr
        exact (firmLines_line hl r).2 ⟨(lineTail_eq_backslash_iff.1 htl).1, ih (by omega) hr⟩
      | text => exact absurd (hc.symm.trans (lineTail_eq_text_iff.1 htl).2) (by decide)
      | blank =>
        rw [htl] at hr
        nomatch hr
      | loose =>
        rw [htl] at hr
        nomatch hr
    · omega

/-! ## Brackets -/

theorem opened?_single {t : Token} (hk : t.kind = .punct) (ht : t.text = [c]) : Bracket.opened? t = Bracket.openedBy? c := by
  unfold Bracket.openedBy?
  split <;> simp_all [Bracket.opened?, isPunct, Bracket.opening]

theorem closed?_single {t : Token} (hk : t.kind = .punct) (ht : t.text = [c]) : Bracket.closed? t = Bracket.closedBy? c := by
  unfold Bracket.closedBy?
  split <;> simp_all [Bracket.closed?, isPunct, Bracket.closing]

/-- A token of one character turns the groups as that does. -/
theorem pass_single {t : Token} (hk : t.kind = .punct) (ht : t.text = [c]) : Bracket.pass s t = Bracket.turn s c := by
  have ho := opened?_single hk ht
  have hc := closed?_single hk ht
  cases h₁ : Bracket.openedBy? c <;> cases h₂ : Bracket.closedBy? c <;>
    simp [Bracket.pass, Bracket.turn, ho, hc, h₁, h₂]

/-- Only punctuation opens or closes groups. -/
theorem pass_of_kind {t : Token} (h : t.kind ≠ .punct) : Bracket.pass s t = some s := by
  have hno (b : Text) : t.isPunct b = false := by simp [isPunct, h]
  simp [Bracket.pass, Bracket.opened?, Bracket.closed?, hno]

theorem pass_pair {t : Token} (ht : t.text = [c, d]) : Bracket.pass s t = some s := by
  have ho (b : Bracket) : t.isPunct b.opening = false := by cases b <;> simp [isPunct, ht, Bracket.opening]
  have hcl (b : Bracket) : t.isPunct b.closing = false := by cases b <;> simp [isPunct, ht, Bracket.closing]
  simp [Bracket.pass, Bracket.opened?, Bracket.closed?, ho, hcl]

/-! ## Whole tokens -/

/-- The mode is one in which the scanner can be after the token. -/
def endsIn (t : Token) : Mode → Bool
  | .word => t.kind == .ident
  | .number _ _ _ => t.kind == .number
  | .point => t.isPunct "."
  | _ => true

/-- Where the scanner stands after a token, where `rest` follows. -/
structure After (lineStart : Bool) (t : Token) (rest : Text) (m : Mode) : Prop where
  settles : m.settles = true
  isCode : t.endsLine = false → m.isCode = true
  ends : t.endsIn m = true
  /-- The next character starts a token, a form feed only if no white space. -/
  fresh : ∀ d, rest.head? = some d →
    ∃ inSpace, m.fresh? d = some (lineStartAfter lineStart t, inSpace) ∧ (d = '\x0c' → inSpace = false)

theorem After.of_isCode {t : Token} (hk : t.kind ≠ .space) (hm : m.isCode) (he : t.endsIn m)
    (h : ∀ d, rest.head? = some d → m.fresh? d = some (false, false)) : After lineStart t rest m where
  settles := by
    unfold Mode.settles
    split
    · rfl
    · rfl
    · exact hm
  isCode _ := hm
  ends := he
  fresh d hd := by
    have hl : lineStartAfter lineStart t = false := by simp [lineStartAfter, hk]
    rw [hl]
    exact ⟨false, h d hd, fun _ => rfl⟩

/-- The mode after a single character of punctuation. -/
def punctMode (c : Char) : Mode :=
  if c = '/' then .slash else if c = '.' then .point else .code false false

theorem start_punct (hsp : startsSpace c = false) (hid : startsIdent c = false) (hdig : c.isDigit = false)
    (hq : c ≠ '"' ∧ c ≠ '\'') (hf : c = '\x0c' → inSpace = false) (hh : c ≠ '#') :
    Mode.start lineStart inSpace c = some (punctMode c) := by
  have hfst : (startsSpace c || inSpace && c == '\x0c') = false := by
    by_cases hc : c = '\x0c'
    · rw [hf hc, hsp]
      rfl
    · rw [beq_eq_false_iff_ne.2 hc, hsp, Bool.and_false]
      rfl
  simp only [Mode.start, punctMode, hfst, hid, hdig, hq.1, hq.2, hh, Bool.false_eq_true, if_false]
  split
  · rfl
  · split <;> rfl

section

variable {lineStart inSpace : Bool} {t : Token} {c : Char} {r rest : Text} {d : Char}

/-- The scanner reads white space. -/
theorem run_lexeme_space (hk : t.kind = .space) (ht : t.text = c :: r) (h : startsSpace c)
    (hn : ((r ++ rest).takeWhile isSpace).length = r.length) :
    ∃ m, run (.code lineStart inSpace, s) (c :: r) = some (m, s) ∧ After lineStart t rest m := by
  obtain ⟨hall, hs⟩ := takeWhile_stop hn
  have hst : Mode.start lineStart inSpace c = some (.code (lineStart || c == '\n') true) := by simp [Mode.start, h]
  have hl : lineStartAfter lineStart t = (lineStart || c == '\n' || r.any (· == '\n')) := by
    rw [lineStartAfter, hk, ht, Bool.or_assoc]
    rfl
  have hbl : Text.isBlank c := isBlank_of_isSpace (isSpace_of_startsSpace h)
  refine ⟨.code (lineStart || c == '\n' || r.any (· == '\n')) true, ?_, rfl, fun _ => rfl, rfl, ?_⟩
  · rw [run_cons, next_code, hst, turn_of_isBlank hbl]
    exact run_space hall _ s
  · intro d hd
    refine ⟨true, by rw [hl]; rfl, ?_⟩
    rintro rfl
    exact absurd (hs _ hd) (by decide)

theorem start_slash (lineStart inSpace : Bool) : Mode.start lineStart inSpace '/' = some .slash := by
  cases inSpace <;> rfl

/-- The scanner reads a comment with `//`. -/
theorem run_lexeme_line (hk : t.kind = .comment) (ht : t.text = '/' :: '/' :: r)
    (hn : lineLength ('/' :: r ++ rest) = r.length + 1) :
    ∃ m, run (.code lineStart inSpace, s) ('/' :: '/' :: r) = some (m, s) ∧ After lineStart t rest m := by
  obtain ⟨hall, hs⟩ := takeWhile_stop hn
  rw [all_cons, Bool.and_eq_true] at hall
  have he : t.endsLine := by
    rw [endsLine, hk, ht]
    rfl
  refine ⟨.lineComment, ?_, rfl, ?_, rfl, ?_⟩
  · rw [run_cons, next_code, start_slash]
    exact run_lineComment hall.2 s
  · intro h
    exact absurd (he.symm.trans h) (by decide)
  · intro d hd
    have hf : d = '\n' := by simpa using hs d hd
    have hl : lineStartAfter lineStart t = false := by simp [lineStartAfter, hk]
    rw [hl, hf]
    exact ⟨false, rfl, fun _ => rfl⟩

/-- The scanner reads a comment with `/*`. -/
theorem run_lexeme_block (hk : t.kind = .comment) (ht : t.text = '/' :: '*' :: r)
    (hn : commentLength (r ++ rest) = r.length) (htm : t.isTerminated) (s : List Bracket) :
    ∃ m, run (.code lineStart inSpace, s) ('/' :: '*' :: r) = some (m, s) ∧ After lineStart t rest m := by
  rw [isTerminated, hk, ht] at htm
  have he : Text.endsWith r "*/" := htm
  refine ⟨.code false false, ?_, .of_isCode (by simp [hk]) rfl rfl fun d _ => rfl⟩
  rw [run_cons, next_code, start_slash]
  exact ((run_comment hn s).resolve_right fun ho => Bool.false_ne_true (ho.1.symm.trans he)).2

/-- The scanner reads a directive. -/
theorem run_lexeme_directive (hk : t.kind = .directive) (ht : t.text = '#' :: r)
    (hn : directiveLength ('#' :: r ++ rest) = r.length + 1) (hfm : t.isFirm) :
    ∃ m, run (.code true inSpace, s) ('#' :: r) = some (m, s) ∧ After true t rest m := by
  have hlines : firmLines ('#' :: r) := by
    rw [isFirm, hk, ht] at hfm
    exact hfm
  have he : t.endsLine := by
    rw [endsLine, hk]
    rfl
  refine ⟨.directive .text, ?_, rfl, ?_, rfl, ?_⟩
  · have hr : run (.directive .blank, s) ('#' :: r) = some (.directive .text, s) := by
      refine run_directive ?_ hlines
      rw [directiveLength_append_of_le (Nat.le_of_eq hn)] at hn
      exact hn
    cases inSpace <;> exact hr
  · intro h
    exact absurd (he.symm.trans h) (by decide)
  · intro d hd
    have hl : lineStartAfter true t = false := by simp [lineStartAfter, hk]
    obtain ⟨rest', rfl⟩ := head?_eq_some_iff.1 hd
    have hh := head_drop_directiveLength
      (by rw [hn, length_append, length_cons, length_cons]; omega)
    have hdr : ('#' :: r ++ d :: rest').drop (r.length + 1) = d :: rest' := drop_left
    rw [hn, hdr] at hh
    cases hh
    rw [hl]
    exact ⟨false, rfl, fun _ => rfl⟩

/-- The scanner reads a literal. -/
theorem run_lexeme_literal (hk : t.kind ≠ .space) (hc : c = '"' ∨ c = '\'') (hn : quotedLength c (r ++ rest) = r.length)
    (he : literalEnds c r) : ∃ m, run (.code lineStart inSpace, s) (c :: r) = some (m, s) ∧ After lineStart t rest m := by
  refine ⟨.code false false, ?_, .of_isCode hk rfl rfl fun d _ => rfl⟩
  have hr := ((run_literal hn s).resolve_right fun ho => Bool.false_ne_true (ho.1.symm.trans he)).2
  rcases hc with rfl | rfl
  · cases inSpace <;> exact hr
  · cases inSpace <;> exact hr

/-- The scanner reads a name. -/
theorem run_lexeme_ident (hk : t.kind = .ident) (h : startsIdent c)
    (hn : ((r ++ rest).takeWhile continuesIdent).length = r.length) :
    ∃ m, run (.code lineStart inSpace, s) (c :: r) = some (m, s) ∧ After lineStart t rest m := by
  obtain ⟨hall, hs⟩ := takeWhile_stop hn
  refine ⟨.word, ?_, .of_isCode (by simp [hk]) rfl (by simp [endsIn, hk]) fun d hd => by simp [Mode.fresh?, hs d hd]⟩
  refine run_name ?_ lineStart inSpace s
  rw [isName, all_cons, hall, continuesIdent_of_startsIdent h]
  simpa using h

/-- A character that does not go on with a number starts a token. -/
theorem after_number {hex zero : Bool} {last : Char} (hk : t.kind = .number) (hl : numberLength hex last rest = 0)
    (hq : rest.head? ≠ some '\'') : After lineStart t rest (.number hex (isExponent last && !hex) zero) := by
  refine .of_isCode (by simp [hk]) rfl (by simp [endsIn, hk]) ?_
  intro d hd
  obtain ⟨rest', rfl⟩ := head?_eq_some_iff.1 hd
  have hs := continuesNumber_of_numberLength hl (by
    rintro rfl
    exact hq rfl)
  simp [Mode.fresh?, hs]

/-- The scanner reads a number that starts with a digit. -/
theorem run_digit (lineStart inSpace : Bool) (h : c.isDigit)
    (hn : numberLength (c == '0' && (r ++ rest).head? == some 'x') c (r ++ rest) = r.length) (s : List Bracket) :
    ∃ hex zero last, run (.code lineStart inSpace, s) (c :: r) = some (.number hex (isExponent last && !hex) zero, s) ∧
      numberLength hex last rest = 0 := by
  have hturn := turn_of_continuesIdent (continuesIdent_of_isDigit h) s
  cases r with
  | nil =>
    refine ⟨false, c == '0', c, ?_, ?_⟩
    · rw [run_cons, next_code, start_digit h, hturn, isExponent_of_isDigit h]
      rfl
    · rw [nil_append, length_nil] at hn
      by_cases hx : rest.head? = some 'x'
      · obtain ⟨u, rfl⟩ := head?_eq_some_iff.1 hx
        have hpos := numberLength_pos (c == '0' && ('x' :: u).head? == some 'x') c (c := 'x') (by decide) u
        omega
      · rw [beq_eq_false_iff_ne.2 hx, Bool.and_false] at hn
        exact hn
  | cons d r =>
    obtain ⟨last, hr, hl⟩ := run_number hn s
    refine ⟨c == '0' && d == 'x', false, last, ?_, hl⟩
    rw [run_cons, next_code, start_digit h, hturn]
    exact (run_number_cons h (c == '0') d r s).trans hr

theorem start_point (lineStart inSpace : Bool) : Mode.start lineStart inSpace '.' = some .point := by
  cases inSpace <;> rfl

/-- The scanner reads a number that starts with a point. -/
theorem run_point (lineStart inSpace : Bool) (hd : d.isDigit)
    (hn : numberLength false '.' (d :: r ++ rest) = r.length + 1) (s : List Bracket) :
    ∃ last, run (.code lineStart inSpace, s) ('.' :: d :: r) = some (numberMode false last, s) ∧
      numberLength false last rest = 0 := by
  obtain ⟨last, hr, hl⟩ := run_number hn s
  refine ⟨last, ?_, hl⟩
  have hnum : next (numberMode false '.', s) d = some (numberMode false d, s) :=
    next_number (.inl rfl) (ne_quote_of_isAlphanum (isAlphanum_of_isDigit hd))
      (continuesNumber_of_isAlphanum (isAlphanum_of_isDigit hd) _) s
  have hpt : next (.point, s) d = some (numberMode false d, s) := by
    refine next_onward (by simp [Mode.fresh?, hd]) ?_ s
    simp [Mode.onward, numberMode, isExponent_of_isDigit hd]
  have hdot : next (.code lineStart inSpace, s) '.' = some (.point, s) := by
    rw [next_code, start_point]
    rfl
  rw [run_cons, hnum] at hr
  rw [run_cons, hdot, Option.bind_some, run_cons, hpt]
  exact hr

/-- The scanner reads `::` and `->`. -/
theorem run_lexeme_pair (hk : t.kind = .punct) (h : (c = ':' ∧ d = ':') ∨ (c = '-' ∧ d = '>')) :
    ∃ m, run (.code lineStart inSpace, s) [c, d] = some (m, s) ∧ After lineStart t rest m := by
  refine ⟨.code false false, ?_, .of_isCode (by simp [hk]) rfl rfl fun d _ => rfl⟩
  rcases h with ⟨rfl, rfl⟩ | ⟨rfl, rfl⟩
  · cases inSpace <;> rfl
  · cases inSpace <;> rfl

/-- After a mark of one character another token can start. -/
theorem after_punctMode (hk : t.kind = .punct) (ht : t.text = [c]) (hsl : c = '/' → rest.head? ≠ some '/' ∧ rest.head? ≠ some '*')
    (hpt : c = '.' → rest.head?.any Char.isDigit = false) : After lineStart t rest (punctMode c) := by
  refine .of_isCode (by simp [hk]) ?_ ?_ ?_
  · unfold punctMode
    split
    · rfl
    · split <;> rfl
  · unfold punctMode
    split
    · rfl
    · split
      · rename_i hc
        simp [endsIn, isPunct, hk, ht, hc]
      · rfl
  · intro d hd
    unfold punctMode
    split
    · rename_i hc
      have hne := hsl hc
      rw [hd] at hne
      simp only [ne_eq, Option.some.injEq] at hne
      simp [Mode.fresh?, hne]
    · split
      · rename_i hc
        have hdig := hpt hc
        rw [hd] at hdig
        simp only [Option.any_some] at hdig
        simp [Mode.fresh?, hdig]
      · rfl

end

/-- The first character after a token's first is its second. -/
theorem cons_of_head? (h : (r ++ rest).head? = some d) (hr : 0 < r.length) : ∃ r', r = d :: r' := by
  cases r with
  | nil => nomatch hr
  | cons e r =>
    cases h
    exact ⟨r, rfl⟩

theorem directiveLength_pos (hc : c ≠ '\n') (t : Text) : 0 < directiveLength (c :: t) := by
  rcases line_or_feed (c :: t) with hln | ⟨l, r, heq, hl⟩
  · rw [directiveLength_line hln]
    exact Nat.succ_pos _
  · cases l with
    | nil => exact absurd (cons.inj heq).1 hc
    | cons d l =>
      rw [heq, directiveLength_feed hl, length_cons]
      split <;> omega

theorem ne_hash_of_not_isStray {t : Token} (hk : t.kind = .punct) (ht : t.text = [c]) (h : t.isStray = false) : c ≠ '#' := by
  rintro rfl
  rw [isStray, isPunct, hk, ht] at h
  exact absurd h (by decide)

/-- The token that is cut off before `rest`, kind by kind. -/
inductive Cut (lineStart : Bool) (rest : Text) : TokenKind → Text → Prop where
  | space {c : Char} {r : Text} (h : startsSpace c = true)
      (hn : ((r ++ rest).takeWhile isSpace).length = r.length) : Cut lineStart rest .space (c :: r)
  | line {r : Text} (hn : lineLength ('/' :: r ++ rest) = r.length + 1) : Cut lineStart rest .comment ('/' :: '/' :: r)
  | block {r : Text} (hn : commentLength (r ++ rest) = r.length) : Cut lineStart rest .comment ('/' :: '*' :: r)
  | directive {r : Text} (hl : lineStart = true) (hn : directiveLength ('#' :: r ++ rest) = r.length + 1) :
      Cut lineStart rest .directive ('#' :: r)
  | string {r : Text} (hn : quotedLength '"' (r ++ rest) = r.length) : Cut lineStart rest .string ('"' :: r)
  | char {r : Text} (hn : quotedLength '\'' (r ++ rest) = r.length) : Cut lineStart rest .char ('\'' :: r)
  | ident {c : Char} {r : Text} (h : startsIdent c = true)
      (hn : ((r ++ rest).takeWhile continuesIdent).length = r.length) : Cut lineStart rest .ident (c :: r)
  | digit {c : Char} {r : Text} (h : c.isDigit = true)
      (hn : numberLength (c == '0' && (r ++ rest).head? == some 'x') c (r ++ rest) = r.length) :
      Cut lineStart rest .number (c :: r)
  | point {d : Char} {r : Text} (hd : d.isDigit = true) (hn : numberLength false '.' (d :: r ++ rest) = r.length + 1) :
      Cut lineStart rest .number ('.' :: d :: r)
  | pair {c d : Char} (h : (c = ':' ∧ d = ':') ∨ (c = '-' ∧ d = '>')) : Cut lineStart rest .punct [c, d]
  | single {c : Char} (hspace : startsSpace c = false) (hident : startsIdent c = false) (hdigit : c.isDigit = false)
      (hquote : c ≠ '"' ∧ c ≠ '\'') (hslash : c = '/' → rest.head? ≠ some '/' ∧ rest.head? ≠ some '*')
      (hhash : c = '#' → lineStart = false) (hpoint : c = '.' → rest.head?.any Char.isDigit = false) :
      Cut lineStart rest .punct [c]

theorem Lexeme.cut {kind : TokenKind} (hl : Lexeme lineStart c (r ++ rest) kind r.length) : Cut lineStart rest kind (c :: r) := by
  generalize hn : r.length = n at hl
  cases hl with
  | space h => exact .space h hn.symm
  | line hc hr =>
    have hpos : 0 < r.length := by
      obtain ⟨u, hu⟩ := head?_eq_some_iff.1 hr
      rw [hn, hu]
      exact Nat.succ_pos _
    obtain ⟨r, rfl⟩ := cons_of_head? hr hpos
    subst hc
    exact .line hn.symm
  | block hc hr =>
    obtain ⟨r, rfl⟩ := cons_of_head? hr (by omega)
    subst hc
    exact .block (Nat.add_right_cancel hn).symm
  | directive hc hln =>
    subst hc
    have hpos := directiveLength_pos (c := '#') (by decide) (r ++ rest)
    exact .directive hln (by rw [cons_append]; omega)
  | string hc =>
    subst hc
    exact .string hn.symm
  | char hc =>
    subst hc
    exact .char hn.symm
  | ident h => exact .ident h hn.symm
  | digit h => exact .digit h hn.symm
  | point hc hr =>
    obtain ⟨d, hd, hdig⟩ := (Option.any_eq_true _ _).1 hr
    obtain ⟨u, hu⟩ := head?_eq_some_iff.1 hd
    have hpos := numberLength_pos false c (isAlphanum_of_isDigit hdig) u
    obtain ⟨r, rfl⟩ := cons_of_head? hd (by rw [hn, hu]; exact hpos)
    subst hc
    exact .point hdig hn.symm
  | pair h =>
    obtain ⟨d, rfl⟩ := length_eq_one_iff.1 hn
    exact .pair (by simpa using h)
  | single hsp hid hdig hq hsl hh hpt hp =>
    cases eq_nil_of_length_eq_zero hn
    exact .single hsp hid hdig hq hsl hh hpt

/-- Where a token can start, the scanner reads a token that can be moved. -/
theorem run_cut {t : Token} (hcut : Cut lineStart rest t.kind t.text) (hf : t.text.head? = some '\x0c' → inSpace = false)
    (hmov : t.isMovable) (hquo : t.kind = .number → rest.head? ≠ some '\'') (hps : Bracket.pass s t = some s') :
    ∃ m, run (.code lineStart inSpace, s) t.text = some (m, s') ∧ After lineStart t rest m := by
  simp only [isMovable, Bool.and_eq_true, Bool.not_eq_true'] at hmov
  obtain ⟨⟨htm, hfm⟩, hstr⟩ := hmov
  have hs (hk : t.kind ≠ .punct) : s' = s := by
    rw [pass_of_kind hk] at hps
    exact (Option.some.inj hps).symm
  generalize hk : t.kind = kind at hcut
  generalize ht : t.text = text at hcut
  cases hcut with
  | space h hn =>
    rw [hs (by simp [hk])]
    exact run_lexeme_space hk ht h hn
  | line hn =>
    rw [hs (by simp [hk])]
    exact run_lexeme_line hk ht hn
  | block hn =>
    rw [hs (by simp [hk])]
    exact run_lexeme_block hk ht hn htm s
  | directive hln hn =>
    rw [hs (by simp [hk]), hln]
    exact run_lexeme_directive hk ht hn hfm
  | string hn =>
    rw [hs (by simp [hk])]
    rw [isTerminated, hk, ht] at htm
    exact run_lexeme_literal (by simp [hk]) (.inl rfl) hn htm
  | char hn =>
    rw [hs (by simp [hk])]
    rw [isTerminated, hk, ht] at htm
    exact run_lexeme_literal (by simp [hk]) (.inr rfl) hn htm
  | ident h hn =>
    rw [hs (by simp [hk])]
    exact run_lexeme_ident hk h hn
  | digit h hn =>
    rw [hs (by simp [hk])]
    obtain ⟨hex, zero, last, hr, hl⟩ := run_digit lineStart inSpace h hn s
    exact ⟨_, hr, after_number hk hl (hquo hk)⟩
  | point hd hn =>
    rw [hs (by simp [hk])]
    obtain ⟨last, hr, hl⟩ := run_point lineStart inSpace hd hn s
    exact ⟨_, hr, after_number hk hl (hquo hk)⟩
  | pair h =>
    rw [pass_pair ht] at hps
    cases hps
    exact run_lexeme_pair hk h
  | @single c hsp hid hdig hq hsl hh hpt =>
    rw [pass_single hk ht] at hps
    rw [ht] at hf
    have hst : Mode.start lineStart inSpace c = some (punctMode c) :=
      start_punct hsp hid hdig hq (fun hc => hf (by rw [hc]; rfl)) (ne_hash_of_not_isStray hk ht hstr)
    refine ⟨punctMode c, ?_, after_punctMode hk ht hsl hpt⟩
    rw [run_cons, next_code, hst, hps]
    rfl

/-! ## What the scanner has read -/

section

variable {lineStart inSpace : Bool} {t : Token} {c : Char} {r rest : Text} {m : Mode} {s s' : List Bracket}

/-- A number that the scanner reads has no quote after it. -/
theorem head?_ne_quote {hex : Bool} {last : Char} (hl : numberLength hex last rest = 0) {sign zero : Bool}
    (hr : run (.number hex sign zero, s) rest = some (m, s')) (hm : m.isCode) : rest.head? ≠ some '\'' := by
  intro hq
  obtain ⟨rest, rfl⟩ := head?_eq_some_iff.1 hq
  have hs : rest.head?.any Char.isAlphanum = false := by
    have hc : continuesNumber (isExponent last && !hex) '\'' := by simp [continuesNumber]
    rw [numberLength_cons, hc] at hl
    by_contra h
    simp [h] at hl
  have hsep : next (.number hex sign zero, s) '\'' = some (.separator hex, s) := by
    rw [next_onward]
    · simp [Mode.fresh?, continuesNumber]
    · simp [Mode.onward]
  rw [run_cons, hsep] at hr
  cases rest with
  | nil =>
    cases hr
    cases hm
  | cons e rest =>
    have he : e.isAlphanum = false := by simpa using hs
    simp [Scan.next, Mode.fresh?, Mode.onward, he] at hr

theorem isTerminated_of_run_block (hk : t.kind = .comment) (ht : t.text = '/' :: '*' :: r)
    (hn : commentLength (r ++ rest) = r.length)
    (hr : run (.code lineStart inSpace, s) ('/' :: '*' :: (r ++ rest)) = some (m, s')) (hm : m.isCode) : t.isTerminated := by
  rw [isTerminated, hk, ht]
  rcases run_comment hn s with ⟨he, -⟩ | ⟨-, rfl, star, ho⟩
  · exact he
  · rw [run_cons, next_code, start_slash, append_nil] at hr
    cases ho.symm.trans hr
    nomatch hm

theorem literalEnds_of_run (hc : c = '"' ∨ c = '\'') (hn : quotedLength c (r ++ rest) = r.length)
    (hr : run (.code lineStart inSpace, s) (c :: (r ++ rest)) = some (m, s')) (hm : m.isCode) : literalEnds c r := by
  rcases run_literal hn s with ⟨he, -⟩ | ⟨-, hidden, ho, hrs⟩
  · exact he
  have hr' : run (.quoted c false, s) (r ++ rest) = some (m, s') := by
    rcases hc with rfl | rfl
    · cases inSpace <;> exact hr
    · cases inSpace <;> exact hr
  rw [run_append_of_eq ho] at hr'
  rcases hrs with rfl | ⟨rfl, hf⟩
  · cases hr'
    nomatch hm
  · obtain ⟨u, rfl⟩ := head?_eq_some_iff.1 hf
    simp [Scan.next, Mode.fresh?, Mode.onward] at hr'

theorem isFirm_of_run (hk : t.kind = .directive) (ht : t.text = '#' :: r) (hn : directiveLength ('#' :: r ++ rest) = r.length + 1)
    (hr : run (.code true inSpace, s) ('#' :: (r ++ rest)) = some (m, s')) (hm : m.isCode) : t.isFirm := by
  have hr' : run (.directive .blank, s) ('#' :: r ++ rest) = some (m, s') := by cases inSpace <;> exact hr
  rw [isFirm, hk, ht]
  exact firmLines_of_run hn hr' hm

/-- A token that the scanner reads can be moved, and its bracket fits. -/
theorem isMovable_of_run (hcut : Cut lineStart rest t.kind t.text) (hf : t.text.head? = some '\x0c' → inSpace = false)
    (hr : run (.code lineStart inSpace, s) (t.text ++ rest) = some (m, s')) (hm : m.isCode) :
    t.isMovable ∧ (t.kind = .number → rest.head? ≠ some '\'') ∧ ∃ s₁, Bracket.pass s t = some s₁ := by
  have hstr (h : t.kind ≠ .punct) : t.isStray = false := by simp [isStray, isPunct, h]
  have hps (h : t.kind ≠ .punct) : ∃ s₁, Bracket.pass s t = some s₁ := ⟨s, pass_of_kind h⟩
  have hfm (h : t.kind ≠ .directive) : t.isFirm := by simp [isFirm, h]
  generalize hk : t.kind = kind at hcut
  generalize ht : t.text = text at hcut
  rw [ht] at hr
  cases hcut with
  | space h hn | ident h hn =>
    refine ⟨?_, by simp, hps (by simp [hk])⟩
    simp [isMovable, isTerminated, hk, hfm, hstr]
  | line hn =>
    refine ⟨?_, by simp, hps (by simp [hk])⟩
    have htm : t.isTerminated := by
      rw [isTerminated, hk, ht]
      rfl
    simp [isMovable, htm, hk, hfm, hstr]
  | block hn =>
    refine ⟨?_, by simp, hps (by simp [hk])⟩
    simp [isMovable, isTerminated_of_run_block hk ht hn hr hm, hk, hfm, hstr]
  | directive hln hn =>
    refine ⟨?_, by simp, hps (by simp [hk])⟩
    rw [hln] at hr
    simp [isMovable, isTerminated, isFirm_of_run hk ht hn hr hm, hk, hstr]
  | string hn =>
    refine ⟨?_, by simp, hps (by simp [hk])⟩
    simp [isMovable, isTerminated, ht, literalEnds_of_run (.inl rfl) hn hr hm, hk, hfm, hstr]
  | char hn =>
    refine ⟨?_, by simp, hps (by simp [hk])⟩
    simp [isMovable, isTerminated, ht, literalEnds_of_run (.inr rfl) hn hr hm, hk, hfm, hstr]
  | digit h hn =>
    refine ⟨by simp [isMovable, isTerminated, hk, hfm, hstr], fun _ => ?_, hps (by simp [hk])⟩
    obtain ⟨hex, zero, last, hr', hl⟩ := run_digit lineStart inSpace h hn s
    rw [run_append_of_eq hr'] at hr
    exact head?_ne_quote hl hr hm
  | point hd hn =>
    refine ⟨by simp [isMovable, isTerminated, hk, hfm, hstr], fun _ => ?_, hps (by simp [hk])⟩
    obtain ⟨last, hr', hl⟩ := run_point lineStart inSpace hd hn s
    rw [run_append_of_eq hr'] at hr
    exact head?_ne_quote hl hr hm
  | pair h =>
    refine ⟨?_, by simp, s, pass_pair ht⟩
    simp [isMovable, isTerminated, hk, hfm, isStray, isPunct, ht]
  | @single c hsp hid hdig hq hsl hh hpt =>
    rw [singleton_append, run_cons, next_code] at hr
    obtain ⟨q, hnx, -⟩ := Option.bind_eq_some_iff.1 hr
    obtain ⟨m₁, hst, hturn⟩ := Option.bind_eq_some_iff.1 hnx
    obtain ⟨s₁, hs₁, -⟩ := Option.map_eq_some_iff.1 hturn
    refine ⟨?_, by simp, s₁, by rw [pass_single hk ht]; exact hs₁⟩
    have hne : c ≠ '#' := by
      rintro rfl
      rw [hh rfl] at hst
      cases inSpace <;> cases hst
    simp [isMovable, isTerminated, hk, hfm, isStray, isPunct, ht, hne]

end

end Token

end Declass
