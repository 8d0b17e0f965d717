import Declass.Token.Fragment
import Mathlib.Data.List.TakeWhile
import Mathlib.Tactic.SplitIfs

/-!
# Tokens lexed again

How far a token reaches is decided by its own characters and the first ones after it. So any run of the tokens of a text is cut into
the same tokens again: `Token.Lexed` passes to the runs of a list.
-/

namespace Declass

open List

namespace Token

/-! ## Lengths of tokens -/

theorem length_takeWhile_le (p : Char → Bool) (t : Text) : (t.takeWhile p).length ≤ t.length :=
  (List.takeWhile_prefix p).length_le

variable {x y l rest : Text} {q c d : Char} {kind : TokenKind} {n : Nat} {ts us : List Token}

/-- What is taken from a longer text is taken from its start alone. -/
theorem takeWhile_append_of_le {p : Char → Bool} (h : ((x ++ y).takeWhile p).length ≤ x.length) :
    (x ++ y).takeWhile p = x.takeWhile p := by
  induction x with
  | nil => simpa using h
  | cons c x ih =>
    by_cases hc : p c
    · simp only [cons_append, takeWhile_cons, hc, if_true, length_cons] at h ⊢
      rw [ih (by omega)]
    · simp [hc]

theorem commentLength_le (t : Text) : commentLength t ≤ t.length := by
  fun_induction commentLength t with
  | case1 => exact Nat.le_refl _
  | case2 t => simp
  | case3 c t _ ih => simpa using ih

theorem commentLength_append_of_le (h : commentLength (x ++ y) ≤ x.length) : commentLength (x ++ y) = commentLength x := by
  fun_induction commentLength x with
  | case1 => simpa using h
  | case2 t => simp [commentLength]
  | case3 c x hne ih =>
    have hs : commentLength (c :: (x ++ y)) = commentLength (x ++ y) + 1 := by
      refine commentLength.eq_3 c (x ++ y) ?_
      intro t hc ht
      cases x with
      | nil =>
        subst hc ht
        simp [commentLength] at h
      | cons d x =>
        obtain ⟨rfl, _⟩ := List.cons.inj ht
        exact hne x hc rfl
    rw [cons_append, hs] at h ⊢
    rw [ih (by simpa using h)]

theorem quotedLength_le (t : Text) : quotedLength q t ≤ t.length := by
  fun_induction quotedLength q t with
  | case1 | case2 => exact Nat.le_refl _
  | case3 c t ih => simpa using ih
  | case4 t => exact Nat.zero_le _
  | case5 t => simp
  | case6 c t _ _ _ _ ih => simpa using ih

theorem quotedLength_cons (hc : c ≠ '\\') (t : Text) :
    quotedLength q (c :: t) = if c = '\n' then 0 else if c = q then 1 else quotedLength q t + 1 := by
  rw [quotedLength.eq_4]
  · intro h
    exact absurd h hc
  · intro d u h
    exact absurd h hc

theorem quotedLength_append_of_le (h : quotedLength q (x ++ y) ≤ x.length) : quotedLength q (x ++ y) = quotedLength q x := by
  induction hn : x.length using Nat.strongRecOn generalizing x with
  | ind n ih =>
    cases x with
    | nil => simpa [quotedLength] using h
    | cons c x =>
      by_cases hc : c = '\\'
      · subst hc
        cases x with
        | nil =>
          cases y with
          | nil => rfl
          | cons d y => simp [quotedLength] at h
        | cons d x =>
          simp only [cons_append, quotedLength, length_cons] at h hn ⊢
          rw [ih x.length (by omega) (by omega) rfl]
      · rw [cons_append, quotedLength_cons hc] at h
        rw [cons_append, quotedLength_cons hc, quotedLength_cons hc]
        split
        · rfl
        · rename_i hf
          split
          · rfl
          · rename_i hq
            rw [if_neg hf, if_neg hq, length_cons] at h
            rw [length_cons] at hn
            rw [ih x.length (by omega) (by omega) rfl]

theorem numberLength_le (hex : Bool) (prev : Char) (t : Text) : numberLength hex prev t ≤ t.length := by
  induction t generalizing prev with
  | nil => exact Nat.le_refl _
  | cons c t ih =>
    rw [numberLength]
    split
    · simpa using ih c
    · exact Nat.zero_le _

/-- A number goes on with a letter or a digit. -/
theorem numberLength_pos (hex : Bool) (prev : Char) (h : c.isAlphanum) (t : Text) : 0 < numberLength hex prev (c :: t) := by
  simp [numberLength, h]

theorem numberLength_append_of_le {hex : Bool} {prev : Char} (h : numberLength hex prev (x ++ y) ≤ x.length) :
    numberLength hex prev (x ++ y) = numberLength hex prev x := by
  induction x generalizing prev with
  | nil => simpa [numberLength] using h
  | cons c x ih =>
    have hh : (c == '\'' && (x ++ y).head?.any Char.isAlphanum) = (c == '\'' && x.head?.any Char.isAlphanum) := by
      cases x with
      | cons d x => rfl
      | nil =>
        cases y with
        | nil => rfl
        | cons d y =>
          by_cases hd : c = '\'' ∧ d.isAlphanum
          · have hpos := numberLength_pos hex c hd.2 y
            simp [numberLength, hd.1, hd.2] at h hpos
          · simp only [head?_nil]
            by_contra hne
            exact hd (by simpa using hne)
    rw [cons_append, numberLength] at h ⊢
    rw [numberLength]
    simp only [hh] at h ⊢
    split
    · rename_i hgo
      rw [if_pos hgo, length_cons] at h
      rw [ih (by omega)]
    · rfl

/-- A text is one line, or a line, a line feed and the rest. -/
theorem line_or_feed (t : Text) : '\n' ∉ t ∨ ∃ l r, t = l ++ '\n' :: r ∧ '\n' ∉ l := by
  by_cases h : '\n' ∈ t
  · obtain ⟨l, r, rfl, hl⟩ := eq_append_cons_of_mem h
    exact .inr ⟨l, r, rfl, hl⟩
  · exact .inl h

/-- Induction along the lines of a text. -/
@[elab_as_elim]
theorem line_induction {P : Text → Prop} (line : ∀ l, '\n' ∉ l → P l) (feed : ∀ l r, '\n' ∉ l → P r → P (l ++ '\n' :: r))
    (t : Text) : P t := by
  induction hn : t.length using Nat.strongRecOn generalizing t with
  | ind n ih =>
    rcases line_or_feed t with h | ⟨l, r, rfl, hl⟩
    · exact line t h
    · refine feed l r hl (ih r.length ?_ r rfl)
      simp only [← hn, length_append, length_cons]
      omega

theorem takeWhile_line (h : '\n' ∉ l) (t : Text) : (l ++ t).takeWhile (· ≠ '\n') = l ++ t.takeWhile (· ≠ '\n') := by
  refine takeWhile_append_of_pos ?_
  intro c hc
  exact decide_eq_true (ne_of_mem_of_not_mem hc h)

theorem dropWhile_line (h : '\n' ∉ l) (t : Text) : (l ++ t).dropWhile (· ≠ '\n') = t.dropWhile (· ≠ '\n') := by
  refine dropWhile_append_of_pos ?_
  intro c hc
  exact decide_eq_true (ne_of_mem_of_not_mem hc h)

theorem directiveLength_line (h : '\n' ∉ l) : directiveLength l = l.length := by
  have hd : l.dropWhile (· ≠ '\n') = [] := by simpa using dropWhile_line h []
  rw [directiveLength]
  split
  · rfl
  · rename_i heq
    rw [hd] at heq
    cases heq

theorem directiveLength_feed (h : '\n' ∉ l) (r : Text) :
    directiveLength (l ++ '\n' :: r) = if isContinued l then l.length + 1 + directiveLength r else l.length := by
  have hd : (l ++ '\n' :: r).dropWhile (· ≠ '\n') = '\n' :: r := by simpa using dropWhile_line h ('\n' :: r)
  have ht : (l ++ '\n' :: r).takeWhile (· ≠ '\n') = l := by simpa using takeWhile_line h ('\n' :: r)
  rw [directiveLength]
  split
  · rename_i heq
    rw [hd] at heq
    cases heq
  · rename_i heq
    rw [hd] at heq
    obtain ⟨_, rfl⟩ := List.cons.inj heq
    rw [lineLength, ht]

theorem directiveLength_le (t : Text) : directiveLength t ≤ t.length := by
  induction t using line_induction with
  | line l h => exact Nat.le_of_eq (directiveLength_line h)
  | feed l r hl ih =>
    rw [directiveLength_feed hl, length_append, length_cons]
    split <;> omega

theorem directiveLength_append_of_le (h : directiveLength (x ++ y) ≤ x.length) :
    directiveLength (x ++ y) = directiveLength x := by
  induction x using line_induction with
  | line x hx =>
    rw [directiveLength_line hx]
    rcases line_or_feed y with hy | ⟨l, r, rfl, hl⟩
    · have hxy : '\n' ∉ x ++ y := by simp [hx, hy]
      rw [directiveLength_line hxy] at h ⊢
      simp only [length_append] at h ⊢
      omega
    · have hxl : '\n' ∉ x ++ l := by simp [hx, hl]
      rw [← append_assoc, directiveLength_feed hxl] at h ⊢
      simp only [length_append] at h ⊢
      split at h
      · omega
      · rw [if_neg (by assumption)]
        omega
  | feed l r hl ih =>
    rw [append_assoc, cons_append, directiveLength_feed hl] at h
    rw [append_assoc, cons_append, directiveLength_feed hl, directiveLength_feed hl]
    simp only [length_append, length_cons] at h
    split
    · rename_i hc
      rw [if_pos hc] at h
      rw [ih (by omega)]
    · rfl

/-! ## One token -/

theorem lexeme_le (lineStart : Bool) (c : Char) (rest : Text) : (lexeme lineStart c rest).2 ≤ rest.length := by
  unfold lexeme
  split_ifs with hsp hl hblk hdir hstr hchar hid hnum hp
  · exact length_takeWhile_le _ _
  · exact length_takeWhile_le _ _
  · cases rest with
    | nil => simp at hblk
    | cons d rest => simpa using commentLength_le rest
  · have := directiveLength_le (c :: rest)
    simp only [length_cons] at this
    omega
  · exact quotedLength_le _
  · exact quotedLength_le _
  · exact length_takeWhile_le _ _
  · exact numberLength_le _ _ _
  · cases rest with
    | nil => simp at hp
    | cons d rest => simp
  · exact Nat.zero_le _

theorem isAlphanum_of_isDigit (h : c.isDigit) : c.isAlphanum := by
  simp [Char.isAlphanum, h]

/-- What `lexeme` finds: each kind of token with its start and its reach. -/
inductive Lexeme (lineStart : Bool) (c : Char) (rest : Text) : TokenKind → Nat → Prop where
  | space (h : startsSpace c = true) : Lexeme lineStart c rest .space (rest.takeWhile isSpace).length
  | line (hc : c = '/') (hr : rest.head? = some '/') : Lexeme lineStart c rest .comment (lineLength rest)
  | block (hc : c = '/') (hr : rest.head? = some '*') :
      Lexeme lineStart c rest .comment (commentLength rest.tail + 1)
  | directive (hc : c = '#') (hl : lineStart = true) :
      Lexeme lineStart c rest .directive (directiveLength (c :: rest) - 1)
  | string (hc : c = '"') : Lexeme lineStart c rest .string (quotedLength c rest)
  | char (hc : c = '\'') : Lexeme lineStart c rest .char (quotedLength c rest)
  | ident (h : startsIdent c = true) : Lexeme lineStart c rest .ident (rest.takeWhile continuesIdent).length
  | digit (h : c.isDigit = true) :
      Lexeme lineStart c rest .number (numberLength (c == '0' && rest.head? == some 'x') c rest)
  | point (hc : c = '.') (hr : rest.head?.any Char.isDigit = true) :
      Lexeme lineStart c rest .number (numberLength false c rest)
  | pair (h : (c = ':' ∧ rest.head? = some ':') ∨ (c = '-' ∧ rest.head? = some '>')) : Lexeme lineStart c rest .punct 1
  | single (hspace : startsSpace c = false) (hident : startsIdent c = false) (hdigit : c.isDigit = false)
      (hquote : c ≠ '"' ∧ c ≠ '\'') (hslash : c = '/' → rest.head? ≠ some '/' ∧ rest.head? ≠ some '*')
      (hhash : c = '#' → lineStart = false) (hpoint : c = '.' → rest.head?.any Char.isDigit = false)
      (hpair : ¬((c = ':' ∧ rest.head? = some ':') ∨ (c = '-' ∧ rest.head? = some '>'))) :
      Lexeme lineStart c rest .punct 0

theorem lexeme_spec (lineStart : Bool) (c : Char) (rest : Text) :
    Lexeme lineStart c rest (lexeme lineStart c rest).1 (lexeme lineStart c rest).2 := by
  unfold lexeme
  split_ifs with hsp hl hblk hdir hstr hchar hid hnum hp
  · exact .space hsp
  · exact .line hl.1 hl.2
  · exact .block hblk.1 hblk.2
  · exact .directive hdir.1 hdir.2
  · subst hstr
    exact .string rfl
  · subst hchar
    exact .char rfl
  · exact .ident hid
  · rcases hnum with hdig | ⟨rfl, hr⟩
    · exact .digit hdig
    · exact .point rfl hr
  · exact .pair hp
  · rw [not_or] at hnum
    refine .single (by simpa using hsp) (by simpa using hid) (by simpa using hnum.1) ⟨hstr, hchar⟩ ?_ ?_ ?_
      hp
    · intro hc
      exact ⟨fun hr => hl ⟨hc, hr⟩, fun hr => hblk ⟨hc, hr⟩⟩
    · intro hc
      simpa [hc] using hdir
    · intro hc
      simpa [hc] using hnum.2

/-- A character of one sort is no character that is not of it. -/
theorem ne_of_holds {p : Char → Bool} (h : p c) (hd : p d = false) : c ≠ d := by
  rintro rfl
  exact absurd (h.symm.trans hd) (by decide)

theorem eq_false_of_imp {a b : Bool} (h : a → b) (hb : b = false) : a = false :=
  Bool.eq_false_iff.2 (mt h (Bool.eq_false_iff.1 hb))

theorem eq_false_of_excludes {a b : Bool} (h : a → b = false) (hb : b) : a = false :=
  Bool.eq_false_iff.2 fun ha => Bool.eq_false_iff.1 (h ha) hb

theorem startsSpace_eq_false {p : Char → Bool} (h : p c) (hp : [' ', '\t', '\n', '\r'].all (!p ·)) : startsSpace c = false := by
  rw [Bool.eq_false_iff]
  intro hs
  have hc := all_eq_true.1 hp c (by simpa [startsSpace, or_assoc] using hs)
  simp [h] at hc

theorem continuesIdent_of_startsIdent (h : startsIdent c) : continuesIdent c := by
  simp only [startsIdent, continuesIdent, Char.isAlphanum, Bool.or_eq_true] at h ⊢
  exact h.imp_left .inl

theorem continuesIdent_of_isDigit (h : c.isDigit) : continuesIdent c := by
  simp [continuesIdent, Char.isAlphanum, h]

theorem isAlpha_iff : c.isAlpha ↔ (65 ≤ c.toNat ∧ c.toNat ≤ 90) ∨ (97 ≤ c.toNat ∧ c.toNat ≤ 122) := by
  have h : c.isAlpha = (decide ('A'.val ≤ c.val ∧ c.val ≤ 'Z'.val) ||
      decide ('a'.val ≤ c.val) && decide (c.val ≤ 'z'.val)) := rfl
  simp only [h, Bool.or_eq_true, Bool.and_eq_true, decide_eq_true_eq]
  rfl

theorem startsIdent_eq_false_of_isDigit (h : c.isDigit) : startsIdent c = false := by
  have hne : c ≠ '_' := ne_of_holds h (by decide)
  simp only [Char.isDigit, Bool.and_eq_true, decide_eq_true_eq, UInt32.le_iff_toNat_le] at h
  have h9 : '9'.val.toNat = 57 := rfl
  rw [Bool.eq_false_iff]
  intro hs
  simp only [startsIdent, Bool.or_eq_true, isAlpha_iff, beq_iff_eq, hne, or_false, Char.toNat] at hs
  omega

/-- The guards exclude each other, so `lexeme` finds nothing else. -/
theorem Lexeme.eq {lineStart : Bool} (h : Lexeme lineStart c rest kind n) : lexeme lineStart c rest = (kind, n) := by
  cases h with
  | space h => rw [lexeme, if_pos h]
  | line hc hr | block hc hr =>
    obtain ⟨u, rfl⟩ := head?_eq_some_iff.1 hr
    subst hc
    rfl
  | directive hc hl =>
    subst hc hl
    rfl
  | string hc | char hc =>
    subst hc
    rfl
  | ident h =>
    have hsl := ne_of_holds h (d := '/') (by decide)
    have hh := ne_of_holds h (d := '#') (by decide)
    have hsp := startsSpace_eq_false h rfl
    rw [lexeme, if_neg (by simp [hsp]), if_neg (by simp [hsl]), if_neg (by simp [hsl]), if_neg (by simp [hh]),
      if_neg (ne_of_holds h (by decide)), if_neg (ne_of_holds h (by decide)), if_pos h]
  | digit h =>
    have hsl := ne_of_holds h (d := '/') (by decide)
    have hh := ne_of_holds h (d := '#') (by decide)
    have hsp := startsSpace_eq_false h rfl
    rw [lexeme, if_neg (by simp [hsp]), if_neg (by simp [hsl]), if_neg (by simp [hsl]), if_neg (by simp [hh]),
      if_neg (ne_of_holds h (by decide)), if_neg (ne_of_holds h (by decide)),
      if_neg (by simp [startsIdent_eq_false_of_isDigit h]), if_pos (.inl h)]
  | point hc hr =>
    subst hc
    rw [lexeme, if_neg (by decide), if_neg (by simp), if_neg (by simp), if_neg (by simp), if_neg (by decide),
      if_neg (by decide), if_neg (by decide), if_pos (.inr ⟨rfl, hr⟩)]
    rfl
  | pair h =>
    rcases h with ⟨rfl, hr⟩ | ⟨rfl, hr⟩ <;> obtain ⟨u, rfl⟩ := head?_eq_some_iff.1 hr <;> rfl
  | single hsp hid hdig hq hsl hh hpt hp =>
    rw [lexeme, if_neg (by simp [hsp]), if_neg (fun h => (hsl h.1).1 h.2), if_neg (fun h => (hsl h.1).2 h.2),
      if_neg (by rintro ⟨hc, hl⟩; simp [hh hc] at hl), if_neg hq.1, if_neg hq.2, if_neg (by simp [hid]),
      if_neg (by rintro (h | ⟨hc, hr⟩); · simp [hdig] at h
                 · simp [hpt hc] at hr), if_neg hp]

/-- A token that ends within `x` is the same whatever follows `x`. -/
theorem Lexeme.of_append {lineStart : Bool} (h : Lexeme lineStart c (x ++ y) kind n) (hn : n ≤ x.length) :
    Lexeme lineStart c x kind n := by
  cases h with
  | space h =>
    rw [takeWhile_append_of_le hn]
    exact .space h
  | line hc hr =>
    cases x with
    | nil =>
      obtain ⟨t, rfl⟩ := head?_eq_some_iff.1 hr
      simp [lineLength] at hn
    | cons d x =>
      rw [lineLength, takeWhile_append_of_le hn]
      exact .line hc hr
  | block hc hr =>
    cases x with
    | nil => simp at hn
    | cons d x =>
      rw [cons_append, tail_cons] at hn ⊢
      rw [commentLength_append_of_le (by simpa using hn)]
      exact .block hc hr
  | directive hc hl =>
    have hle := directiveLength_append_of_le (x := c :: x) (y := y) (by simp; omega)
    rw [← cons_append, hle]
    exact .directive hc hl
  | string hc =>
    rw [quotedLength_append_of_le hn]
    exact .string hc
  | char hc =>
    rw [quotedLength_append_of_le hn]
    exact .char hc
  | ident h =>
    rw [takeWhile_append_of_le hn]
    exact .ident h
  | digit h =>
    rw [numberLength_append_of_le hn]
    cases x with
    | nil | cons => exact .digit h
  | point hc hr =>
    rw [numberLength_append_of_le hn]
    cases x with
    | nil =>
      obtain ⟨d, hd, hdig⟩ := (Option.any_eq_true _ _).1 hr
      obtain ⟨t, rfl⟩ := head?_eq_some_iff.1 hd
      have hpos := numberLength_pos false c (isAlphanum_of_isDigit hdig) t
      rw [nil_append, length_nil] at hn
      omega
    | cons d x => exact .point hc hr
  | pair h =>
    cases x with
    | nil => simp at hn
    | cons d x => exact .pair h
  | single hsp hid hdig hq hsl hh hpt hp =>
    cases x with
    | nil => exact .single hsp hid hdig hq (by simp) hh (by simp) (by simp)
    | cons d x => exact .single hsp hid hdig hq hsl hh hpt hp

/-! ## Lists of tokens -/

theorem spelling_append (ts us : List Token) : spelling (ts ++ us) = spelling ts ++ spelling us := by
  simp [spelling]

/-- The tokens are those of their spelling, at a line's start or not. -/
inductive Lexed : Bool → List Token → Prop where
  | nil (lineStart : Bool) : Lexed lineStart []
  | cons {lineStart : Bool} {t : Token} {ts : List Token} (c : Char) (r : Text) (ht : t.text = c :: r)
      (hl : Lexeme lineStart c (r ++ spelling ts) t.kind r.length) (h : Lexed (lineStartAfter lineStart t) ts) :
      Lexed lineStart (t :: ts)

/-- The first token of a text, at the byte offset `offset`. -/
def first (lineStart : Bool) (offset : Nat) (c : Char) (rest : Text) : Token :=
  { kind := (lexeme lineStart c rest).1, text := c :: rest.take (lexeme lineStart c rest).2, start := offset }

theorem tokenizeFrom_cons (lineStart : Bool) (offset : Nat) (c : Char) (rest : Text) :
    tokenizeFrom lineStart offset (c :: rest) = first lineStart offset c rest ::
        tokenizeFrom (lineStartAfter lineStart (first lineStart offset c rest)) (first lineStart offset c rest).stop
          (rest.drop (lexeme lineStart c rest).2) := by
  rw [tokenizeFrom]
  rfl

theorem lexed_tokenizeFrom (lineStart : Bool) (offset : Nat) (t : Text) : Lexed lineStart (tokenizeFrom lineStart offset t) := by
  induction h : t.length using Nat.strongRecOn generalizing t lineStart offset with
  | ind n ih =>
    cases t with
    | nil =>
      rw [tokenizeFrom]
      exact .nil lineStart
    | cons c rest =>
      have hle := lexeme_le lineStart c rest
      rw [tokenizeFrom_cons]
      refine .cons c (rest.take (lexeme lineStart c rest).2) rfl ?_ ?_
      · rw [spelling_tokenizeFrom, take_append_drop, length_take, Nat.min_eq_left hle]
        exact lexeme_spec lineStart c rest
      · refine ih _ ?_ _ _ _ rfl
        rw [← h]
        simp only [length_drop, length_cons]
        omega

/-- What a token is, wherever it stands. -/
def shape (t : Token) : TokenKind × Text :=
  (t.kind, t.text)

theorem lineStartAfter_congr {t u : Token} (h : t.shape = u.shape) (lineStart : Bool) :
    lineStartAfter lineStart t = lineStartAfter lineStart u := by
  obtain ⟨hk, ht⟩ := Prod.ext_iff.1 h
  simp only [shape] at hk ht
  rw [lineStartAfter, lineStartAfter, hk, ht]

/-- Such a list is cut into tokens of the same kinds and texts. -/
theorem Lexed.shape_tokenizeFrom {lineStart : Bool} (h : Lexed lineStart ts) (offset : Nat) :
    (tokenizeFrom lineStart offset (spelling ts)).map shape = ts.map shape := by
  induction h generalizing offset with
  | nil lineStart => simp [spelling, tokenizeFrom]
  | @cons lineStart t ts c r ht hl _ ih =>
    have hspl : spelling (t :: ts) = c :: (r ++ spelling ts) := by simp [spelling, ht]
    have hfst : (first lineStart offset c (r ++ spelling ts)).shape = t.shape := by
      simp [first, shape, hl.eq, ht]
    rw [hspl, tokenizeFrom_cons, map_cons, map_cons, hfst, lineStartAfter_congr hfst, hl.eq]
    rw [drop_left, ih]

/-- The runs of lexed tokens are lexed. -/
theorem Lexed.append_left {lineStart : Bool} (h : Lexed lineStart (ts ++ us)) : Lexed lineStart ts := by
  induction ts generalizing lineStart with
  | nil => exact .nil lineStart
  | cons t ts ih =>
    rw [cons_append] at h
    cases h with
    | cons c r ht hl h =>
      refine .cons c r ht ?_ (ih h)
      have hspl : r ++ spelling (ts ++ us) = (r ++ spelling ts) ++ spelling us := by simp [spelling]
      rw [hspl] at hl
      exact hl.of_append (by simp)

/-- Whether a directive can start after the tokens. -/
def lineStartAfterAll (lineStart : Bool) (ts : List Token) : Bool :=
  ts.foldl lineStartAfter lineStart

theorem Lexed.append_right {lineStart : Bool} (h : Lexed lineStart (ts ++ us)) : Lexed (lineStartAfterAll lineStart ts) us := by
  induction ts generalizing lineStart with
  | nil => exact h
  | cons t ts ih =>
    cases h with
    | cons c r ht hl h => exact ih h

/-- The token is a `#` that starts no directive. -/
def isStray (t : Token) : Bool :=
  t.isPunct "#"

/-- Where a line starts matters to a directive and to a lone `#` only. -/
theorem Lexeme.anywhere {a b : Bool} (h : Lexeme a c rest kind n) (hdir : kind = .directive → a → b)
    (hhash : c = '#' → kind = .punct → n = 0 → b = false) : Lexeme b c rest kind n := by
  cases h with
  | space h => exact .space h
  | line hc hr => exact .line hc hr
  | block hc hr => exact .block hc hr
  | directive hc hl => exact .directive hc (hdir rfl hl)
  | string hc => exact .string hc
  | char hc => exact .char hc
  | ident h => exact .ident h
  | digit h => exact .digit h
  | point hc hr => exact .point hc hr
  | pair h => exact .pair h
  | single hsp hid hdig hq hsl hh hpt hp =>
    exact .single hsp hid hdig hq hsl (fun hc => hhash hc rfl rfl) hpt hp

theorem Lexeme.lineStart (h : Lexeme false c rest kind n) (hc : c ≠ '#') : Lexeme true c rest kind n :=
  h.anywhere (fun _ h => nomatch h) fun h => absurd h hc

/-- Within a line, a `#` is a token of its own. -/
theorem Lexeme.hash (h : Lexeme false '#' rest kind n) : kind = .punct ∧ n = 0 := by
  have hsing : Lexeme false '#' rest .punct 0 :=
    .single (by decide) (by decide) (by decide) (by decide) (by simp) (fun _ => rfl) (by simp) (by simp)
  exact Prod.ext_iff.1 (h.eq.symm.trans hsing.eq)

/-- The start of a line matters only to a stray `#` at the start. -/
theorem Lexed.lineStart_of_first (h : Lexed false ts)
    (hfst : ∀ t, ts.find? (·.kind != .space) = some t → t.isStray = false) : Lexed true ts := by
  induction ts with
  | nil => exact .nil true
  | cons t ts ih =>
    cases h with
    | cons c r ht hl hrs =>
      by_cases hsp : t.kind = .space
      · have hc : c ≠ '#' := by
          rintro rfl
          rw [hl.hash.1] at hsp
          cases hsp
        refine .cons c r ht (hl.lineStart hc) ?_
        have htrue : lineStartAfter true t := by simp [lineStartAfter, hsp]
        rw [htrue]
        cases hf : lineStartAfter false t with
        | true => rwa [hf] at hrs
        | false =>
          rw [hf] at hrs
          refine ih hrs fun u hu => hfst u ?_
          rw [find?_cons_of_neg (by simp [hsp]), hu]
      · have hc : c ≠ '#' := by
          rintro rfl
          obtain ⟨hk, hr⟩ := hl.hash
          have hs := hfst t (find?_cons_of_pos (by simpa using hsp))
          rw [length_eq_zero_iff.1 hr] at ht
          simp [isStray, isPunct, hk, ht] at hs
        have haft (lineStart : Bool) : lineStartAfter lineStart t = false := by simp [lineStartAfter, hsp]
        refine .cons c r ht (hl.lineStart hc) ?_
        rw [haft] at hrs ⊢
        exact hrs

/-- Without a stray `#` the start of a line does not matter. -/
theorem Lexed.lineStart (h : Lexed false ts) (hstr : ∀ t ∈ ts, t.isStray = false) : Lexed true ts :=
  h.lineStart_of_first fun t ht => hstr t (mem_of_find?_eq_some ht)

end Token

/-! ## Fragments -/

namespace Fragment

open Token

theorem length_gather_gaps (lead : Text) (ts : List Token) : (gather lead ts).1.length = (gather lead ts).2.length + 1 := by
  induction ts generalizing lead with
  | nil => rfl
  | cons t ts ih =>
    unfold gather
    split
    · exact ih _
    · simpa using ih []

theorem gather_tokens (lead : Text) (ts : List Token) : (gather lead ts).2 = ts.filter (!·.isTrivia) := by
  induction ts generalizing lead with
  | nil => rfl
  | cons t ts ih =>
    unfold gather
    split
    · rename_i h
      simp [ih, h]
    · rename_i h
      simp [ih, h]

variable {t : Token} {s : Text} {us vs : List Token}

/-- Gaps and tokens are those before and after a significant token. -/
theorem gather_append (h : t.isTrivia = false) (lead : Text) (ts us : List Token) : gather lead (ts ++ t :: us) =
      ((gather lead ts).1 ++ (gather [] us).1, (gather lead ts).2 ++ t :: (gather [] us).2) := by
  induction ts generalizing lead with
  | nil => simp [gather, h]
  | cons u ts ih =>
    rw [cons_append, gather, gather]
    split
    · exact ih _
    · rw [ih]
      rfl

/-- The significant token at `k`, with the tokens around it. -/
theorem split_at (ts : List Token) {k : Nat} (h : (ts.filter (!·.isTrivia))[k]? = some t) :
    ∃ us vs, ts = us ++ t :: vs ∧ (us.filter (!·.isTrivia)).length = k ∧ t.isTrivia = false := by
  induction ts generalizing k with
  | nil => simp at h
  | cons u ts ih =>
    by_cases hu : u.isTrivia
    · rw [filter_cons_of_neg (by simp [hu])] at h
      obtain ⟨us, vs, rfl, hk, ht⟩ := ih h
      exact ⟨u :: us, vs, rfl, by simp [hu, hk], ht⟩
    · rw [filter_cons_of_pos (by simp [hu])] at h
      cases k with
      | zero =>
        cases h
        exact ⟨[], ts, rfl, rfl, by simpa using hu⟩
      | succ k =>
        obtain ⟨us, vs, rfl, hk, ht⟩ := ih h
        exact ⟨u :: us, vs, rfl, by simp [hu, hk], ht⟩

theorem tokens_ofText (t : Text) : (ofText t).tokens = (tokenize t).filter (!·.isTrivia) :=
  gather_tokens [] (tokenize t)

theorem drop_of_tok? {F : Fragment} {k : Nat} (h : F.tok? k = some t) : F.tokens.drop k = t :: F.tokens.drop (k + 1) := by
  obtain ⟨hk, rfl⟩ := List.getElem?_eq_some_iff.1 h
  exact drop_eq_getElem_cons hk

/-- The text before a significant token is that of its tokens. -/
theorem before_eq (h : tokenize s = us ++ t :: vs) (ht : t.isTrivia = false) :
    (ofText s).before (us.filter (!·.isTrivia)).length = Token.spelling us := by
  have hlen := length_gather_gaps [] us
  have hw := weave_gather [] us
  rw [← gather_tokens [] us]
  simp only [before, ofText, h, gather_append ht]
  rw [take_left' hlen, take_left' rfl, hw, nil_append]

/-- The text between significant tokens is that of its tokens. -/
theorem between_eq {ms : List Token} {u : Token} (h : tokenize s = us ++ t :: (ms ++ u :: vs)) (ht : t.isTrivia = false)
    (hu : u.isTrivia = false) : (ofText s).between (us.filter (!·.isTrivia)).length
      ((us.filter (!·.isTrivia)).length + 1 + (ms.filter (!·.isTrivia)).length) = Token.spelling ms := by
  have hus := length_gather_gaps [] us
  have hms := length_gather_gaps [] ms
  have hw := weave_gather [] ms
  rw [← gather_tokens [] us, ← gather_tokens [] ms]
  simp only [between, ofText, h, gather_append ht, gather_append hu]
  have hg : ((gather [] us).1 ++ ((gather [] ms).1 ++ (gather [] vs).1)).drop ((gather [] us).2.length + 1) =
      (gather [] ms).1 ++ (gather [] vs).1 := drop_left' hus
  have hts : ((gather [] us).2 ++ t :: ((gather [] ms).2 ++ u :: (gather [] vs).2)).drop
      ((gather [] us).2.length + 1) = (gather [] ms).2 ++ u :: (gather [] vs).2 := by
    rw [← drop_drop, drop_left]
    rfl
  rw [hg, hts, take_left' (by omega), take_left' (by omega), hw, nil_append]

end Fragment

end Declass
