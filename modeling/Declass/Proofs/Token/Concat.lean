import Declass.Proofs.Token.Reading
import Declass.Proofs.Token.Spans

/-!
# Tokens of texts put together

Main statement: the tokens of a text and of what follows it are the tokens of the two, if its last token is complete and cannot go on
(`Token.tokenizeFrom_append`; `Token.Closed`, `Token.Stops`). Names, marks and texts between brackets are instances.
-/

namespace Declass

open List Text

namespace Token

open Scan

variable {x y r rest : Text} {c : Char} {t : Token} {lineStart : Bool} {kind : TokenKind} {ts us : List Token} {offset : Nat}

/-! ## Lengths when more text follows -/

theorem takeWhile_append_of_stop {p : Char → Bool}
    (h : (x.takeWhile p).length = x.length → ∀ d, y.head? = some d → p d = false) : (x ++ y).takeWhile p = x.takeWhile p := by
  rw [takeWhile_append]
  split
  next hx =>
    have hy : y.takeWhile p = [] := by
      cases y with
      | nil => rfl
      | cons d y => simp [h hx d rfl]
    rw [hy, append_nil, takeWhile_eq_self_iff.2]
    intro c hc
    have hs : x.takeWhile p = x := (List.takeWhile_prefix p).eq_of_length hx
    rw [← hs] at hc
    exact mem_takeWhile_imp hc
  · rfl

theorem commentLength_append (h : commentLength x < x.length ∨ endsWith x "*/") : commentLength (x ++ y) = commentLength x := by
  fun_induction commentLength x with
  | case1 => simp [endsWith] at h
  | case2 t => simp [commentLength]
  | case3 c x hne ih =>
    have hx : commentLength x < x.length ∨ endsWith x "*/" := by
      rcases h with h | h
      · exact .inl (by simpa using h)
      · right
        simp only [endsWith, isSuffixOf_iff_suffix] at h ⊢
        rcases suffix_cons_iff.1 h with h | h
        · obtain ⟨hc, hx⟩ := List.cons.inj h.symm
          exact absurd hx (hne [] hc)
        · exact h
    have hs : commentLength (c :: (x ++ y)) = commentLength (x ++ y) + 1 := by
      refine commentLength.eq_3 c (x ++ y) fun t hc ht => ?_
      cases x with
      | nil => simp [endsWith] at hx
      | cons d x => exact hne x hc (by rw [(List.cons.inj ht).1])
    rw [cons_append, hs, ih hx]

theorem not_backslash {t : Text} (hone : c = '\\' → t = [] → False) (hm : ∀ d u, c = '\\' → t = d :: u → False) : c ≠ '\\' := by
  intro hc
  cases t with
  | nil => exact hone hc rfl
  | cons d u => exact hm d u hc rfl

theorem quotedLength_append {q : Char} (h : quotedLength q x < x.length ∨ literalEnds q x) :
    quotedLength q (x ++ y) = quotedLength q x := by
  fun_induction quotedLength q x with
  | case1 | case2 => simp [literalEnds] at h
  | case3 d t ih =>
    have ht : quotedLength q t < t.length ∨ literalEnds q t := by
      rcases h with h | h
      · exact .inl (by simpa using h)
      · exact .inr (by simpa [literalEnds] using h)
    rw [cons_append, cons_append, quotedLength, ih ht]
  | case4 t hne hne' =>
    rw [cons_append, quotedLength_cons (by decide), if_pos rfl]
  | case5 t hne hne' hf =>
    have hq : q ≠ '\\' := not_backslash hne hne'
    rw [cons_append, quotedLength_cons hq, if_neg hf, if_pos rfl]
  | case6 c t hne hne' hf hc ih =>
    have hb : c ≠ '\\' := not_backslash hne hne'
    have ht : quotedLength q t < t.length ∨ literalEnds q t := by
      rcases h with h | h
      · exact .inl (by simpa using h)
      · right
        rw [literalEnds.eq_4 q c t hne hne', if_neg hc] at h
        exact h
    rw [cons_append, quotedLength_cons hb, if_neg hf, if_neg hc, ih ht]

theorem directiveLength_append (h : directiveLength x < x.length) : directiveLength (x ++ y) = directiveLength x := by
  induction x using line_induction with
  | line x hx =>
    rw [directiveLength_line hx] at h
    omega
  | feed l r hl ih =>
    rw [directiveLength_feed hl] at h
    rw [append_assoc, cons_append, directiveLength_feed hl, directiveLength_feed hl]
    simp only [length_append, length_cons] at h
    split
    next hc =>
      rw [if_pos hc] at h
      rw [ih (by omega)]
    · rfl

theorem numberLength_append {hex : Bool} {prev : Char}
    (hwh : numberLength hex prev x = x.length → ∀ d, y.head? = some d → continuesNumber true d = false)
    (hq : x.drop (numberLength hex prev x) ≠ ['\'']) : numberLength hex prev (x ++ y) = numberLength hex prev x := by
  induction x generalizing prev with
  | nil =>
    cases y with
    | nil => rfl
    | cons d y =>
      have hd := hwh rfl d rfl
      simp only [continuesNumber, Bool.or_eq_false_iff, Bool.true_and] at hd
      simp [numberLength, hd]
  | cons c x ih =>
    have hh : (c == '\'' && (x ++ y).head?.any Char.isAlphanum) = (c == '\'' && x.head?.any Char.isAlphanum) := by
      cases x with
      | cons d x => rfl
      | nil =>
        by_cases hc : c = '\''
        · subst hc
          simp [numberLength] at hq
        · simp [hc]
    rw [cons_append, numberLength]
    rw [numberLength] at hwh hq ⊢
    simp only [hh]
    split
    next hgo =>
      rw [if_pos hgo] at hwh hq
      rw [ih (fun hx => hwh (by rw [hx, length_cons])) (by simpa using hq)]
    · rfl

/-! ## One token -/

/-- The character would be read as part of the token before it. -/
def takesUp (t : Token) (d : Char) : Bool :=
  match t.kind with
  | .space => isSpace d
  | .ident => continuesIdent d
  | .number => continuesNumber true d
  | .punct =>
    (t.text == ['/'] && (d == '/' || d == '*')) || (t.text == ['.'] && d.isDigit) || (t.text == [':'] && d == ':') ||
      (t.text == ['-'] && d == '>')
  | .string | .char | .comment | .directive => false

/-- The token is complete, and no character that it takes up follows. -/
def IsOver (t : Token) (y : Text) : Prop :=
  t.isTerminated = true ∧ t.endsLine = false ∧ ∀ d, y.head? = some d → t.takesUp d = false

/-- A token that is over where nothing follows ends there whatever is added, a lone quote apart. -/
theorem Lexeme.append {z : Text} (ht : t.text = c :: r) (h : Lexeme lineStart c (r ++ z) t.kind r.length)
    (hz : z = [] → t.IsOver y) (hquo : z ≠ ['\'']) : Lexeme lineStart c (r ++ (z ++ y)) t.kind r.length := by
  obtain ⟨kind, text, start⟩ := t
  subst ht
  rw [← append_assoc]
  have hnil (hw : r.length = (r ++ z).length) : z = [] := by
    rw [length_append] at hw
    exact eq_nil_of_length_eq_zero (by omega)
  have hwithin {P : Prop} (hp : z = [] → P) : r.length < (r ++ z).length ∨ P := by
    by_cases hne : z = []
    · exact .inr (hp hne)
    · have := length_pos_iff.2 hne
      exact .inl (by rw [length_append]; omega)
  have hhd {d : Char} (hd : (r ++ z).head? = some d) : (r ++ z ++ y).head? = some d := by
    rw [head?_append, hd]
    rfl
  have hdrop : (r ++ z).drop r.length ≠ ['\''] := by
    rw [drop_left]
    exact hquo
  generalize hn : r.length = n at h hwithin hdrop
  cases h with
  | space h =>
    have ht : (r ++ z ++ y).takeWhile isSpace = (r ++ z).takeWhile isSpace :=
      takeWhile_append_of_stop fun hw => (hz (hnil (hn.trans hw))).2.2
    rw [← ht]
    exact .space h
  | line hc hr =>
    have ht : (r ++ z ++ y).takeWhile (· ≠ '\n') = (r ++ z).takeWhile (· ≠ '\n') := by
      refine takeWhile_append_of_stop fun hw => ?_
      have hz' := hnil (hn.trans hw)
      have hln := (hz hz').2.1
      rw [hz', append_nil] at hr
      obtain ⟨u, rfl⟩ := head?_eq_some_iff.1 hr
      simp [endsLine, hc, startsWith, after?] at hln
    rw [lineLength, ← ht]
    exact .line hc (hhd hr)
  | block hc hr =>
    obtain ⟨u, hu⟩ := head?_eq_some_iff.1 hr
    have hend : commentLength u < u.length ∨ endsWith u "*/" := by
      refine (hwithin fun hz' => ?_).imp_left fun hlt => by simpa [hu] using hlt
      rw [hz', append_nil] at hu
      simpa [isTerminated, hu, startsWith, after?] using (hz hz').1
    rw [hu, tail_cons, ← commentLength_append hend]
    exact .block hc rfl
  | directive hc hl =>
    have hlt : directiveLength (c :: (r ++ z)) < (c :: (r ++ z)).length := by
      have := (hwithin fun hz' => by cases (hz hz').2.1).resolve_right id
      rw [length_cons]
      omega
    rw [← directiveLength_append hlt]
    exact .directive hc hl
  | string hc =>
    subst hc
    rw [← quotedLength_append (hwithin fun hz' => by simpa [isTerminated, hz'] using (hz hz').1)]
    exact .string rfl
  | char hc =>
    subst hc
    rw [← quotedLength_append (hwithin fun hz' => by simpa [isTerminated, hz'] using (hz hz').1)]
    exact .char rfl
  | ident h =>
    have ht : (r ++ z ++ y).takeWhile continuesIdent = (r ++ z).takeWhile continuesIdent :=
      takeWhile_append_of_stop fun hw => (hz (hnil (hn.trans hw))).2.2
    rw [← ht]
    exact .ident h
  | digit h =>
    have hx : ((r ++ z ++ y).head? == some 'x') = ((r ++ z).head? == some 'x') := by
      cases hrz : r ++ z with
      | cons d u => rfl
      | nil =>
        obtain ⟨-, hz'⟩ := append_eq_nil_iff.1 hrz
        have hd := (hz hz').2.2
        rw [Bool.eq_iff_iff, beq_iff_eq]
        exact ⟨fun hy => absurd (hd 'x' hy) (by simp [takesUp, continuesNumber]), by simp⟩
    rw [← hx] at hn hdrop ⊢
    rw [← numberLength_append (fun hw => (hz (hnil (hn.trans hw))).2.2) hdrop]
    exact .digit h
  | point hc hr =>
    obtain ⟨d, hd, hdig⟩ := (Option.any_eq_true _ _).1 hr
    rw [← numberLength_append (fun hw => (hz (hnil (hn.trans hw))).2.2) hdrop]
    exact .point hc (by rw [hhd hd]; exact hdig)
  | pair h => exact .pair (h.imp (fun h => ⟨h.1, hhd h.2⟩) fun h => ⟨h.1, hhd h.2⟩)
  | single hsp hid hdig hq hsl hh hpt hp =>
    cases eq_nil_of_length_eq_zero hn
    cases z with
    | cons d z => exact .single hsp hid hdig hq hsl hh hpt hp
    | nil =>
      cases y with
      | nil => exact .single hsp hid hdig hq hsl hh hpt hp
      | cons d y =>
        have hd : takesUp ⟨.punct, [c], start⟩ d = false := (hz rfl).2.2 d rfl
        simp only [takesUp, Bool.or_eq_false_iff, Bool.and_eq_false_imp, beq_iff_eq, List.cons.injEq, and_true] at hd
        obtain ⟨⟨⟨hsl', hpt'⟩, hcol⟩, hminus⟩ := hd
        refine .single hsp hid hdig hq ?_ hh ?_ ?_
        · intro hc
          simpa using hsl' hc
        · intro hc
          simpa using hpt' hc
        · rintro (⟨hc, hd⟩ | ⟨hc, hd⟩)
          · exact absurd (hcol hc) (by simpa using hd)
          · exact absurd (hminus hc) (by simpa using hd)

/-- A character that ends every token that it is not within. -/
def divides (c : Char) : Bool :=
  c == ',' || c == ')' || c == '\x7d' || c == ']'

/-- What follows the token cannot be part of it: no white space after trivia, else a bracket or a comma. -/
def Stops (t : Token) (rest : Text) : Prop :=
  ∀ d, rest.head? = some d → (t.isTrivia = true ∧ isSpace d = false) ∨ divides d = true

theorem eq_of_divides {c : Char} (h : divides c) : c = ',' ∨ c = ')' ∨ c = '\x7d' ∨ c = ']' := by
  simpa [divides, or_assoc] using h

theorem Stops.takesUp (h : t.Stops rest) {d : Char} (hd : rest.head? = some d) : t.takesUp d = false := by
  rcases h d hd with ⟨htr, hsp⟩ | hdivides
  · cases hk : t.kind <;> simp_all [Token.takesUp, isTrivia]
  · rcases eq_of_divides hdivides with rfl | rfl | rfl | rfl <;> cases hk : t.kind <;>
      simp [Token.takesUp, hk, isSpace, continuesIdent, continuesNumber]

/-! ## Texts -/

/-- The last token is complete, and what follows cannot be part of it. -/
def EndsBefore (ts : List Token) (rest : Text) : Prop :=
  ∀ t, ts.getLast? = some t → t.isTerminated = true ∧ t.endsLine = false ∧ t.Stops rest

/-- A text that is a lone quote is a literal without an end. -/
theorem Lexed.spelling_ne_quote (h : Lexed lineStart ts) (he : ∀ t, ts.getLast? = some t → t.isTerminated) :
    spelling ts ≠ ['\''] := by
  intro hs
  cases h with
  | nil => simp [spelling] at hs
  | @cons _ t ts c r ht hl h =>
    simp only [spelling, flatMap_cons, ht, cons_append, List.cons.injEq, append_eq_nil_iff] at hs
    obtain ⟨rfl, rfl, hts⟩ := hs
    have hnil : ts = [] := by
      cases h with
      | nil => rfl
      | cons d r' hd _ _ => simp [hd] at hts
    subst hnil
    have hk : t.kind = .char := (Prod.ext_iff.1 (hl.eq.symm.trans (Lexeme.char rfl).eq)).1
    have hend := he t rfl
    simp [isTerminated, hk, ht, literalEnds] at hend

theorem Lexed.append (h : Lexed lineStart ts) (he : EndsBefore ts (spelling us))
    (hus : Lexed (lineStartAfterAll lineStart ts) us) : Lexed lineStart (ts ++ us) := by
  induction h with
  | nil => exact hus
  | @cons lineStart t ts c r ht hl h ih =>
    cases ts with
    | nil =>
      obtain ⟨htm, hln, hstp⟩ := he t rfl
      refine .cons c r ht ?_ hus
      exact hl.append ht (fun _ => ⟨htm, hln, fun _ => hstp.takesUp⟩) (by simp [spelling])
    | cons u ts =>
      have he' : EndsBefore (u :: ts) (spelling us) := fun v hv => he v (by rw [getLast?_cons_cons, hv])
      refine .cons c r ht ?_ (ih he' hus)
      have hne : spelling (u :: ts) ≠ [] := by
        cases h with
        | cons d r' hd _ _ => simp [spelling, hd]
      change Lexeme lineStart c (r ++ spelling (u :: ts ++ us)) t.kind r.length
      rw [spelling_append]
      exact hl.append ht (fun hnil => absurd hnil hne) (h.spelling_ne_quote fun v hv => (he' v hv).1)

theorem Placed.append (h : Placed offset ts) (hus : Placed (offset + (spelling ts).byteSize) us) : Placed offset (ts ++ us) := by
  induction h with
  | nil => simpa [spelling, byteSize] using hus
  | @cons offset t ts hst hne _ ih =>
    refine .cons hst hne (ih ?_)
    rw [stop, hst, Nat.add_assoc, ← byteSize_append]
    exact hus

/-- The spelling of lexed tokens in a row is cut into these tokens. -/
theorem Lexed.tokenizeFrom_eq (h : Lexed lineStart ts) (hp : Placed offset ts) :
    tokenizeFrom lineStart offset (spelling ts) = ts := by
  induction h generalizing offset with
  | nil => simp [spelling, tokenizeFrom]
  | @cons lineStart t ts c r ht hl h ih =>
    cases hp with
    | cons hst _ hp =>
      have hspl : spelling (t :: ts) = c :: (r ++ spelling ts) := by simp [spelling, ht]
      have hfst : first lineStart offset c (r ++ spelling ts) = t := by
        simp [first, hl.eq, ← ht, ← hst]
      rw [hspl, tokenizeFrom_cons, hfst, hl.eq]
      rw [drop_left, ih hp]

/-- Texts put together are cut into their tokens, if the first ends before. -/
theorem tokenizeFrom_append (h : EndsBefore (tokenizeFrom lineStart offset x) y) :
    tokenizeFrom lineStart offset (x ++ y) = tokenizeFrom lineStart offset x ++
      tokenizeFrom (lineStartAfterAll lineStart (tokenizeFrom lineStart offset x)) (offset + x.byteSize) y := by
  have hx := spelling_tokenizeFrom lineStart offset x
  have hy := spelling_tokenizeFrom (lineStartAfterAll lineStart (tokenizeFrom lineStart offset x)) (offset + x.byteSize) y
  have hlex := (lexed_tokenizeFrom lineStart offset x).append (by rwa [hy]) (lexed_tokenizeFrom _ (offset + x.byteSize) y)
  have hpl := (placed_tokenizeFrom lineStart offset x).append (by
    rw [hx]
    exact placed_tokenizeFrom (lineStartAfterAll lineStart (tokenizeFrom lineStart offset x)) (offset + x.byteSize) y)
  have heq := hlex.tokenizeFrom_eq hpl
  rwa [spelling_append, hx, hy] at heq

/-! ## Names and marks -/

theorem tokenizeFrom_of_lexeme (h : Lexeme lineStart c (r ++ rest) kind r.length) (hk : kind ≠ .space) (offset : Nat) :
    tokenizeFrom lineStart offset (c :: r ++ rest) =
      ⟨kind, c :: r, offset⟩ :: tokenizeFrom false (offset + byteSize (c :: r)) rest := by
  have hfst : first lineStart offset c (r ++ rest) = ⟨kind, c :: r, offset⟩ := by simp [first, h.eq]
  rw [cons_append, tokenizeFrom_cons, hfst, h.eq]
  simp [lineStartAfter, beq_eq_false_iff_ne.2 hk, stop]

theorem Lexeme.of_isName (hw : isName (c :: r)) (hrs : ∀ d, rest.head? = some d → continuesIdent d = false) :
    Lexeme lineStart c (r ++ rest) .ident r.length := by
  simp only [isName, all_cons, Bool.and_eq_true] at hw
  obtain ⟨hc, -, hr⟩ := hw
  have hs : r.takeWhile continuesIdent = r := takeWhile_eq_self_iff.2 (all_eq_true.1 hr)
  have hlen : ((r ++ rest).takeWhile continuesIdent).length = r.length := by
    rw [takeWhile_append_of_stop fun _ => hrs, hs]
  rw [← hlen]
  exact .ident hc

theorem tokenizeFrom_name {w : Text} (hw : isName w) (hrs : ∀ d, rest.head? = some d → continuesIdent d = false)
    (lineStart : Bool) (offset : Nat) : tokenizeFrom lineStart offset (w ++ rest) =
      ⟨.ident, w, offset⟩ :: tokenizeFrom false (offset + w.byteSize) rest := by
  cases w with
  | nil => simp [isName] at hw
  | cons c r => exact tokenizeFrom_of_lexeme (.of_isName hw hrs) (by decide) offset

/-- Punctuation of one character, to which only a `:` matters. -/
def isMark (c : Char) : Bool :=
  c == '(' || c == ')' || c == '\x7b' || c == '\x7d' || c == '[' || c == ']' || c == ';' || c == ',' || c == '~' ||
    c == ':'

theorem tokenizeFrom_mark (hc : isMark c) (rest : Text) (hr : c = ':' → rest.head? ≠ some ':') (lineStart : Bool)
    (offset : Nat) : tokenizeFrom lineStart offset (c :: rest) =
      ⟨.punct, [c], offset⟩ :: tokenizeFrom false (offset + byteSize [c]) rest := by
  have hp : ¬((c = ':' ∧ rest.head? = some ':') ∨ (c = '-' ∧ rest.head? = some '>')) := by
    rintro (⟨hcol, hh⟩ | ⟨rfl, -⟩)
    · exact hr hcol hh
    · exact absurd hc (by decide)
  have hlex : Lexeme lineStart c ([] ++ rest) .punct ([] : Text).length := by
    simp only [isMark, Bool.or_eq_true, beq_iff_eq] at hc
    rcases hc with (((((((((rfl | rfl) | rfl) | rfl) | rfl) | rfl) | rfl) | rfl) | rfl) | rfl) <;>
      exact .single (by decide) (by decide) (by decide) (by decide) (by simp) (by simp) (by simp) hp
  exact tokenizeFrom_of_lexeme hlex (by decide) offset

theorem tokenizeFrom_colons (rest : Text) (lineStart : Bool) (offset : Nat) : tokenizeFrom lineStart offset (':' :: ':' :: rest) =
      ⟨.punct, "::", offset⟩ :: tokenizeFrom false (offset + byteSize "::") rest :=
  tokenizeFrom_of_lexeme (r := [':']) (.pair (.inl ⟨rfl, rfl⟩)) (by decide) offset

/-! ## Places -/

/-- The token, further on. -/
def shift (n : Nat) (t : Token) : Token :=
  { t with start := t.start + n }

/-- The same text at another place has the same tokens, moved. -/
theorem tokenizeFrom_shift (lineStart : Bool) (offset n : Nat) (s : Text) :
    tokenizeFrom lineStart (offset + n) s = (tokenizeFrom lineStart offset s).map (shift n) := by
  induction hlen : s.length using Nat.strongRecOn generalizing s lineStart offset with
  | ind len ih =>
    cases s with
    | nil => simp [tokenizeFrom]
    | cons c rest =>
      have hfst : first lineStart (offset + n) c rest = shift n (first lineStart offset c rest) := rfl
      have hs : (shift n (first lineStart offset c rest)).stop = (first lineStart offset c rest).stop + n :=
        Nat.add_right_comm offset n _
      have hd : (rest.drop (lexeme lineStart c rest).2).length < len := by
        simp only [length_cons] at hlen
        simp only [length_drop]
        omega
      rw [tokenizeFrom_cons, tokenizeFrom_cons, hfst, hs, ih _ hd _ _ _ rfl]
      rfl

end Token

end Declass
