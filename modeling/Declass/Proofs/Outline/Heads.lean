import Declass.Proofs.Outline.Params

/-!
# Reading a function up to its body

The walks over the tokens of a function: the qualified name (`Head.chain_nameText`), the parameters (`Head.params_eq`), the
qualifiers (`skipQualifiers_eq`) and the member initializers (`bodyAfterInits?_eq`).
-/

namespace Declass

open List
open Fragment (ofText)

namespace Fragment

variable {F : Fragment} {k : Nat} {t : Token} {w : Text} {start : Nat} {ps : List Text}

variable {is : List Init}

/-! ## Walks from a token that is known -/

theorem isPunct_of_tok? (h : F.tok? k = some t) (p : Text) : F.isPunct k p = t.isPunct p := by
  rw [isPunct, h, Option.any_some]

/-- A qualified name goes on after a segment and `::`. -/
theorem chain_of_segment {name : Text} {n : Nat} (hs : Token.segment? (F.tokens.drop k) = some (name, n)) : F.chain k =
      if F.isPunct (k + n) "::" then (name :: (F.chain (k + n + 1)).1, (F.chain (k + n + 1)).2) else ([name], k + n) := by
  have hget : (F.tokens.drop k)[n]? = F.tok? (k + n) := getElem?_drop
  have hd : (F.tokens.drop k).drop (n + 1) = F.tokens.drop (k + n + 1) := by rw [drop_drop, add_assoc]
  unfold chain
  rw [Token.chain, hs]
  dsimp only
  split
  · next hno =>
    rw [hget] at hno
    simp [isPunct, hno]
  · next u hso =>
    rw [hget] at hso
    rw [isPunct_of_tok? hso, hd]
    by_cases hcol : u.isPunct "::"
    · simp only [hcol, if_true]
      congr 1
      omega
    · simp only [hcol]
      rfl

/-- A name is a segment. -/
theorem segment?_ident (h : F.tok? k = some ⟨.ident, w, start⟩) : Token.segment? (F.tokens.drop k) = some (w, 1) := by
  rw [drop_of_tok? h]
  rfl

/-- A name after `~` is a segment. -/
theorem segment?_tilde {start' : Nat} (h : F.tok? k = some ⟨.punct, "~", start⟩)
    (h' : F.tok? (k + 1) = some ⟨.ident, w, start'⟩) : Token.segment? (F.tokens.drop k) = some ('~' :: w, 2) := by
  rw [drop_of_tok? h, drop_of_tok? h']
  simp [Token.segment?, Token.isIdent, Token.isPunct]

theorem skipDims_of_not_isPunct (h : F.isPunct k "[" = false) : F.skipDims k = k := by
  rw [skipDims, dif_neg (by rw [h]; decide)]

/-- Qualifiers are skipped one by one. -/
theorem skipQualifiers_of_tok? (h : F.tok? k = some t) : F.skipQualifiers k =
      if t.isWordOf functionQualifiers || t.isPunct "&" || t.isWord "throw" then F.skipQualifiers (F.skipGroup (k + 1))
      else if t.isPunct "->" then (F.findPunct? ["\x7b", ";", ":"] k).getD F.size else k := by
  rw [skipQualifiers]
  split
  · next hno => simp [h] at hno
  · next u hu =>
    cases h.symm.trans hu
    rfl

theorem skipQualifiers_of_none (h : F.tok? k = none) : F.skipQualifiers k = k := by
  rw [skipQualifiers]
  split
  · rfl
  · next u hu => simp [h] at hu

/-- One step of the search for the body. -/
theorem bodyAfterInits?_unfold : F.bodyAfterInits? k = if (F.chain k).1.isEmpty then none
      else if F.isPunct (F.initArgs k) "(" || F.isPunct (F.initArgs k) "\x7b" then (F.close? (F.initArgs k)).bind fun c =>
          if F.isPunct (c + 1) "," then F.bodyAfterInits? (c + 2) else if F.isPunct (c + 1) "\x7b" then some (c + 1) else none
      else none := by
  rw [bodyAfterInits?]
  split
  · rfl
  split
  · split
    · next hno => rw [hno, Option.bind_none]
    · next c hc =>
      rw [hc, Option.bind_some]
      simp only [dite_eq_ite]
  · rfl

/-- A qualifier without arguments is skipped. -/
theorem skipQualifiers_word {w : Text} {start : Nat} (h : F.tok? k = some ⟨.ident, w, start⟩)
    (hw : w ∈ functionQualifiers) (hnx : F.isPunct (k + 1) "(" = false) : F.skipQualifiers k = F.skipQualifiers (k + 1) := by
  have hg : F.skipGroup (k + 1) = k + 1 := by rw [skipGroup, hnx, if_neg (by decide)]
  have hwd : Token.isWordOf ⟨.ident, w, start⟩ functionQualifiers := by
    simp only [Token.isWordOf, any_eq_true]
    exact ⟨w, hw, by simp [Token.isWord, Token.isIdent]⟩
  rw [skipQualifiers_of_tok? h, hwd, Bool.true_or, Bool.true_or, if_pos rfl, hg]

theorem skipQualifiers_mark {c : Char} (h : F.tok? k = some ⟨.punct, [c], start⟩) (hc : c ≠ '&') : F.skipQualifiers k = k := by
  rw [skipQualifiers_of_tok? h]
  simp [Token.isWordOf, Token.isWord, Token.isIdent, Token.isPunct, hc]

theorem findPunct?_ident (h : F.tok? k = some ⟨.ident, w, start⟩) : F.findPunct? ps k = F.findPunct? ps (k + 1) := by
  have hp : Token.isPunctOf ⟨.ident, w, start⟩ ps = false := by simp [Token.isPunctOf, Token.isPunct]
  rw [findPunct?, drop_of_tok? h, findIdx?_cons, hp, if_neg Bool.false_ne_true, Option.map_map]
  congr 1
  funext n
  exact add_right_comm n 1 k

theorem findPunct?_punct {p : Text} (h : F.tok? k = some ⟨.punct, p, start⟩) (hp : p ∈ ps) : F.findPunct? ps k = some k := by
  have hpun : Token.isPunctOf ⟨.punct, p, start⟩ ps :=
    any_eq_true.2 ⟨p, hp, by simp [Token.isPunct]⟩
  rw [findPunct?, drop_of_tok? h, findIdx?_cons, hpun, if_pos rfl, Option.map_some, zero_add]

/-- After an initializer comes another or the body. -/
theorem bodyAfterInits?_of_close? {c : Nat} (hch : (F.chain k).1 ≠ [])
    (ho : (F.isPunct (F.initArgs k) "(" || F.isPunct (F.initArgs k) "\x7b")) (hcl : F.close? (F.initArgs k) = some c) :
    F.bodyAfterInits? k = if F.isPunct (c + 1) "," then F.bodyAfterInits? (c + 2)
      else if F.isPunct (c + 1) "\x7b" then some (c + 1) else none := by
  rw [bodyAfterInits?_unfold, if_neg (by simpa using hch), if_pos ho, hcl, Option.bind_some]

end Fragment

namespace Grammar

open Token

variable {src rest : Text} {k : Nat} {d c : Char} {qs : List Qualifier} (i : Init)

/-! ## What a text starts with -/

/-- The text starts with a name or a `~`. -/
def Leads (rest : Text) : Prop :=
  ∃ d, rest.head? = some d ∧ (startsIdent d = true ∨ d = '~')

/-- What leads a declaration starts a token. -/
theorem Leads.starts (h : Leads rest) : Starts rest := by
  obtain ⟨c, hc, hd⟩ := h
  intro d hd'
  cases hc.symm.trans hd'
  rcases hd with hd | rfl
  · exact isSpace_eq_false_of_continuesIdent (continuesIdent_of_startsIdent hd)
  · decide

theorem Starts.of_mark (hc : isMark c) (rest : Text) : Starts (c :: rest) := by
  intro d hd
  cases hd
  simp only [isMark, Bool.or_eq_true, beq_iff_eq] at hc
  rcases hc with (((((((((rfl | rfl) | rfl) | rfl) | rfl) | rfl) | rfl) | rfl) | rfl) | rfl) <;> decide

theorem continuesIdent_of_isMark (hc : isMark c) : continuesIdent c = false := by
  simp only [isMark, Bool.or_eq_true, beq_iff_eq] at hc
  rcases hc with (((((((((rfl | rfl) | rfl) | rfl) | rfl) | rfl) | rfl) | rfl) | rfl) | rfl) <;> decide

theorem Word.head (w : Word) (rest : Text) : ∃ d, (w.spelled ++ rest).head? = some d ∧ startsIdent d := by
  have hw := w.isName
  rw [Scan.isName, Bool.and_eq_true] at hw
  obtain ⟨d, hd, hst⟩ := (Option.any_eq_true _ _).1 hw.1
  refine ⟨d, ?_, hst⟩
  rw [spelled, append_assoc, head?_append, hd]
  rfl

theorem Word.leads (w : Word) (rest : Text) : Leads (w.spelled ++ rest) := by
  obtain ⟨d, hd, hst⟩ := w.head rest
  exact ⟨d, hd, .inl hst⟩

/-- The name of a function leads a declaration. -/
theorem Head.declared_leads (h : Head) : Leads (h.tildeText ++ (h.name.spelled ++ rest)) := by
  unfold tildeText
  split
  · exact h.name.leads rest
  · exact ⟨'~', rfl, .inr rfl⟩

theorem Head.nameText_leads (h : Head) : Leads (h.nameText ++ rest) := by
  unfold nameText ownerText
  split
  · simpa using h.declared_leads
  · next c g _ =>
    simp only [append_assoc]
    exact c.leads _

/-- A word, a name and an opening brace. -/
theorem At.opening {w : Word} {name : Name} {g : Gap} (hw : w.gap.text ≠ []) (hr : Starts rest)
    (hk : At src k (w.spelled ++ (name.spelled ++ '\x7b' :: (g.text ++ rest)))) : ∃ start start', (ofText src).tok? k =
        some ⟨.ident, w.text, place src (w.spelled ++ (name.spelled ++ '\x7b' :: (g.text ++ rest)))⟩ ∧
      (ofText src).tok? (k + 1) = some ⟨.ident, name.text, start⟩ ∧
      (ofText src).tok? (k + 2) = some ⟨.punct, "\x7b", start'⟩ ∧ At src (k + 3) rest := by
  obtain ⟨hwd, hk⟩ := hk.word (name.leads _).starts fun hnil => absurd hnil hw
  obtain ⟨hn, hk⟩ := word hk (.of_mark rfl _) fun _ d hd => by cases hd; decide
  obtain ⟨hbr, hk⟩ := hk.mark rfl (fun h => nomatch h) hr
  exact ⟨_, _, hwd, hn, hbr, hk⟩

/-- What follows the qualifiers: a body, member initializers or a `;`. -/
inductive Ends : Text → Prop where
  | body (rest : Text) : Ends ('\x7b' :: rest)
  | inits (rest : Text) (h : rest.head? ≠ some ':') : Ends (':' :: rest)
  | semicolon (rest : Text) : Ends (';' :: rest)

/-- What ends a head starts a token. -/
theorem Ends.starts (he : Ends rest) : Starts rest := by
  cases he <;> exact .of_mark rfl _

theorem Ends.apart (he : Ends rest) : ∀ d, rest.head? = some d → continuesIdent d = false := by
  cases he <;> exact fun d hd => by cases hd; decide

/-- What ends a head is a brace, a `:` or a `;`. -/
theorem Ends.tok? (he : Ends rest) (h : At src k rest) :
    ∃ c, (ofText src).tok? k = some ⟨.punct, [c], place src rest⟩ ∧ (c = '\x7b' ∨ c = ':' ∨ c = ';') := by
  cases he with
  | body r => exact ⟨_, h.tok_mark rfl (fun h => nomatch h), by decide⟩
  | inits r hr => exact ⟨_, h.tok_mark rfl (fun _ => hr), by decide⟩
  | semicolon r => exact ⟨_, h.tok_mark rfl (fun h => nomatch h), by decide⟩

/-- A name stands where its first character does. -/
theorem At.tok_ident (h : At src k rest) (hd : rest.head? = some d) (hst : startsIdent d) :
    ∃ w start, (ofText src).tok? k = some ⟨.ident, w, start⟩ := by
  obtain ⟨r, rfl⟩ := head?_eq_some_iff.1 hd
  obtain ⟨lineStart, h⟩ := h
  have hlex : lexeme lineStart d r = _ := (Lexeme.ident hst).eq
  have hts := tokenizeFrom_cons lineStart (place src (d :: r)) d r
  rw [Token.first, hlex] at hts
  exact ⟨_, _, h.tok? hts rfl⟩

/-- A token that neither continues a name before it nor declares it. -/
def IsApart (t : Token) : Prop :=
  t.kind ≠ .string ∧ t.isPunctOf ["::", "[", "=", "("] = false

theorem isApart_mark {c : Char} (hc : c ∉ ['[', '=', '(']) (start : Nat) : IsApart ⟨.punct, [c], start⟩ := by
  simp_all [IsApart, isPunctOf, isPunct]

/-- What leads a declaration stands apart. -/
theorem Leads.isApart (hl : Leads rest) (h : At src k rest) : ∃ t, (ofText src).tok? k = some t ∧ IsApart t := by
  obtain ⟨d, hd, hst | rfl⟩ := hl
  · obtain ⟨w, start, ht⟩ := h.tok_ident hd hst
    exact ⟨_, ht, by simp [IsApart, isPunctOf, isPunct]⟩
  · obtain ⟨r, rfl⟩ := head?_eq_some_iff.1 hd
    exact ⟨_, h.tok_mark rfl (absurd · (by decide)), isApart_mark (by decide) _⟩

theorem Ends.isApart (he : Ends rest) (h : At src k rest) : ∃ t, (ofText src).tok? k = some t ∧ IsApart t := by
  obtain ⟨c, ht, hc⟩ := he.tok? h
  refine ⟨_, ht, isApart_mark ?_ _⟩
  rcases hc with rfl | rfl | rfl <;> decide

theorem IsApart.isPunct_eq_false {F : Fragment} {t : Token} (h : IsApart t) (ht : F.tok? k = some t) :
    F.isPunct k "::" = false ∧ F.isPunct k "[" = false ∧ F.isPunct k "=" = false ∧ F.isPunct k "(" = false := by
  simpa [isPunctOf, Fragment.isPunct_of_tok? ht] using h.2

/-! ## The name -/

namespace Head

variable (h : Head)

/-- The parts of the qualified name. -/
def segments : List Text :=
  h.owner.toList.map (·.1.text) ++ [h.declared]

/-- The declared name is a chain of its own. -/
theorem chain_declared (hk : At src k (h.tildeText ++ (h.name.spelled ++ '(' :: rest))) :
    ∃ i, k < i ∧ (ofText src).chain k = ([h.declared], i) ∧ At src i ('(' :: rest) := by
  have hr : Starts ('(' :: rest) := .of_mark rfl rest
  have happart d (hd : ('(' :: rest).head? = some d) : continuesIdent d = false := by
    cases hd
    decide
  unfold tildeText declared at *
  cases ht : h.tilde with
  | none =>
    rw [ht] at hk
    obtain ⟨hn, hnx⟩ := At.word hk hr fun _ => happart
    have hpar := hnx.tok_mark rfl (fun h => nomatch h)
    refine ⟨k + 1, by omega, ?_, hnx⟩
    rw [Fragment.chain_of_segment (Fragment.segment?_ident hn), Fragment.isPunct_of_tok? hpar]
    rfl
  | some g =>
    rw [ht] at hk
    obtain ⟨htilde, hk⟩ := At.mark (c := '~') (by simpa using hk) rfl (fun h => nomatch h)
      (h.name.leads _).starts
    obtain ⟨hn, hnx⟩ := At.word hk hr fun _ => happart
    have hpar := hnx.tok_mark rfl (fun h => nomatch h)
    refine ⟨k + 2, by omega, ?_, hnx⟩
    rw [Fragment.chain_of_segment (Fragment.segment?_tilde htilde hn), Fragment.isPunct_of_tok? hpar]
    rfl

/-- The qualified name is read to its end. -/
theorem chain_nameText (hk : At src k (h.nameText ++ '(' :: rest)) :
    ∃ i, k < i ∧ (ofText src).chain k = (h.segments, i) ∧ At src i ('(' :: rest) := by
  unfold nameText ownerText segments at *
  cases ho : h.owner with
  | none =>
    rw [ho] at hk
    exact h.chain_declared (by simpa using hk)
  | some cg =>
    obtain ⟨c, g⟩ := cg
    rw [ho] at hk
    have htx : c.spelled ++ "::" ++ g.text ++ h.tildeText ++ h.name.spelled ++ '(' :: rest =
        c.spelled ++ ':' :: ':' :: (g.text ++ (h.tildeText ++ (h.name.spelled ++ '(' :: rest))) := by simp
    rw [htx] at hk
    obtain ⟨hown, hk⟩ := At.word hk (.of_mark rfl _) (fun _ d hd => by cases hd; decide)
    obtain ⟨hcol, hk⟩ := At.colons hk h.declared_leads.starts
    obtain ⟨i, hi, hch, hnx⟩ := h.chain_declared hk
    refine ⟨i, by omega, ?_, hnx⟩
    rw [Fragment.chain_of_segment (Fragment.segment?_ident hown), Fragment.isPunct_of_tok? hcol, hch]
    rfl

/-! ## The parameters -/

/-- The parameters between the parentheses at `i` and `j`. -/
theorem params_eq {i : Nat} (hi : At src i ('(' :: (joinParams h.params ++ ')' :: rest))) :
    (ofText src).tok? i = some ⟨.punct, "(", place src ('(' :: (joinParams h.params ++ ')' :: rest))⟩ ∧
      ∃ j, (ofText src).close? i = some j ∧ At src j (')' :: rest) ∧
        (ofText src).params i j = h.params.filterMap Param.written? := by
  obtain ⟨ho, j, hcl, hj, offset, hin⟩ := At.group (x := h.inner) hi
  refine ⟨ho, j, hcl, hj, ?_⟩
  rw [Fragment.params, hin, ← filter_tokenizeFrom]
  exact listOfTokens_joinParams h.params offset

end Head

/-! ## The qualifiers -/

/-- One qualifier is passed. -/
theorem Qualifier.next {q : Qualifier} (hap : (q :: qs).IsChain fun q _ => q.gap.text ≠ []) (hr : Ends rest)
    (hk : At src k ((q :: qs).flatMap (·.spelled) ++ rest)) :
    ∃ start, (ofText src).tok? k = some ⟨.ident, q.text, start⟩ ∧ At src (k + 1) (qs.flatMap (·.spelled) ++ rest) ∧
      ∃ t, (ofText src).tok? (k + 1) = some t ∧ IsApart t := by
  rw [flatMap_cons, append_assoc] at hk
  cases qs with
  | nil =>
    obtain ⟨hq, hnx⟩ := At.word hk hr.starts fun _ => hr.apart
    exact ⟨_, hq, hnx, hr.isApart hnx⟩
  | cons q' qs =>
    have hleads : Leads ((q' :: qs).flatMap (·.spelled) ++ rest) := by
      rw [flatMap_cons, append_assoc]
      exact q'.leads _
    have hgap : q.gap.text ≠ [] := by
      cases hap
      assumption
    obtain ⟨hq, hnx⟩ := At.word hk hleads.starts fun hnil => absurd hnil hgap
    exact ⟨_, hq, hnx, hleads.isApart hnx⟩

/-- The qualifiers are passed up to what ends the head. -/
theorem skipQualifiers_eq (hap : qs.IsChain fun q _ => q.gap.text ≠ []) (hr : Ends rest)
    (hk : At src k (qs.flatMap (·.spelled) ++ rest)) : ∃ q, k ≤ q ∧ (ofText src).skipQualifiers k = q ∧ At src q rest := by
  induction qs generalizing k with
  | nil =>
    obtain ⟨c, ht, hc⟩ := hr.tok? hk
    refine ⟨k, le_refl k, Fragment.skipQualifiers_mark ht ?_, hk⟩
    rcases hc with rfl | rfl | rfl <;> decide
  | cons q qs ih =>
    obtain ⟨start, hq, hnx, t, ht, happart⟩ := Qualifier.next hap hr hk
    obtain ⟨j, hj, hsk, hat⟩ := ih hap.tail hnx
    refine ⟨j, by omega, ?_, hat⟩
    rw [Fragment.skipQualifiers_word hq q.known (happart.isPunct_eq_false ht).2.2.2, hsk]

/-! ## The member initializers -/

theorem joinInits_singleton (i : Init) : joinInits [i] = i.text := intercalate_singleton

/-- Member initializers are separated by commas. -/
theorem joinInits_cons (i j : Init) : joinInits (i :: j :: is) = i.text ++ ',' :: joinInits (j :: is) := by
  simp [joinInits]

theorem Gap.head_append_ne (g : Gap) (h : rest.head? ≠ some ':') : (g.text ++ rest).head? ≠ some ':' := by
  intro hd
  cases hg : g.text with
  | nil => exact h (by rwa [hg] at hd)
  | cons c r =>
    have hc : g.text.head? = some ':' := by simpa [hg] using hd
    rcases g.head hc with hs | hs
    · exact absurd hs (by decide)
    · exact absurd hs (by decide)

theorem Word.head_ne (w : Word) (rest : Text) : (w.spelled ++ rest).head? ≠ some ':' := by
  obtain ⟨d, hd, hst⟩ := w.head rest
  rw [hd]
  rintro ⟨⟩
  exact absurd hst (by decide)

theorem Init.text_append (rest : Text) :
    i.text ++ rest = i.lead.text ++ (i.name.spelled ++ (i.bracket.opening ++ (i.args.text ++ (i.bracket.closing ++
      (i.gap.text ++ rest))))) := by
  simp [text]

theorem Init.head_ne (rest : Text) : (i.text ++ rest).head? ≠ some ':' := by
  rw [i.text_append]
  exact i.lead.head_append_ne (i.name.head_ne _)

/-- No member initializer starts with a `:`. -/
theorem joinInits_head_ne (is : List Init) (rest : Text) : (joinInits (i :: is) ++ rest).head? ≠ some ':' := by
  cases is with
  | nil =>
    rw [joinInits_singleton]
    exact i.head_ne rest
  | cons j is =>
    rw [joinInits_cons, append_assoc]
    exact i.head_ne _

theorem isPunct_opening (b : Bracket) (start : Nat) :
    isPunct ⟨.punct, b.opening, start⟩ "::" = false ∧ isPunct ⟨.punct, b.opening, start⟩ "<" = false ∧
      (b ≠ .square → (isPunct ⟨.punct, b.opening, start⟩ "(" || isPunct ⟨.punct, b.opening, start⟩ "\x7b")) := by
  cases b with
  | round | curly => exact ⟨rfl, rfl, fun _ => rfl⟩
  | square => exact ⟨rfl, rfl, fun h => absurd rfl h⟩

/-- One initializer after a mark, up to the next mark. -/
theorem Init.next {i : Init} (hc : isMark c) (hr : Starts rest) (hk : At src k (c :: (i.text ++ rest))) :
    ∃ j, k < j ∧ At src (j + 1) rest ∧ (ofText src).bodyAfterInits? (k + 1) =
        if (ofText src).isPunct (j + 1) "," then (ofText src).bodyAfterInits? (j + 2)
        else if (ofText src).isPunct (j + 1) "\x7b" then some (j + 1) else none := by
  obtain ⟨o, ho, homark, -⟩ := opening_mark
  obtain ⟨e, he, hemark, hecolon, -⟩ := closing_mark
  have hcol (_ : c = ':') := i.head_ne rest
  rw [i.text_append] at hk hcol
  obtain ⟨-, hk⟩ := hk.mark hc hcol (i.name.leads _).starts
  have hopening : (i.bracket.opening ++ (i.args.text ++ (i.bracket.closing ++ (i.gap.text ++ rest)))).head? = some o := by
    rw [ho]
    rfl
  obtain ⟨hn, hk⟩ := hk.word (fun d hd => Starts.of_mark homark [] d (hopening.symm.trans hd))
    fun _ d hd => continuesIdent_of_isMark (Option.some.inj (hopening.symm.trans hd) ▸ homark)
  obtain ⟨hop, j, hcl, hj, -⟩ := hk.group
  obtain ⟨hcs, hang, hbracket⟩ := isPunct_opening i.bracket
    (place src (i.bracket.opening ++ (i.args.text ++ (i.bracket.closing ++ (i.gap.text ++ rest)))))
  have hch : (ofText src).chain (k + 1) = ([i.name.text], k + 2) := by
    rw [Fragment.chain_of_segment (Fragment.segment?_ident hn), Fragment.isPunct_of_tok? hop, hcs]
    rfl
  have ha : (ofText src).initArgs (k + 1) = k + 2 := by
    rw [Fragment.initArgs, hch, Fragment.isPunct_of_tok? hop, hang]
    rfl
  have hlt := Fragment.lt_of_close? hcl
  rw [he] at hj
  refine ⟨j, by omega, (hj.mark hemark (fun h => absurd h hecolon) hr).2, ?_⟩
  refine Fragment.bodyAfterInits?_of_close? (by simp [hch]) ?_ (by rwa [ha])
  rw [ha, Fragment.isPunct_of_tok? hop, Fragment.isPunct_of_tok? hop]
  exact hbracket i.round_or_curly

/-- After the initializers stands the brace that opens the body. -/
theorem bodyAfterInits?_eq (hc : isMark c) (hk : At src k (c :: (joinInits (i :: is) ++ '\x7b' :: rest))) :
    ∃ j, k < j ∧ (ofText src).bodyAfterInits? (k + 1) = some j ∧ At src j ('\x7b' :: rest) := by
  induction is generalizing i k c with
  | nil =>
    rw [joinInits_singleton] at hk
    obtain ⟨j, hj, hnx, hb⟩ := Init.next hc (.of_mark (by decide) _) hk
    have hbr := hnx.tok_mark (by decide) (fun h => nomatch h)
    refine ⟨j + 1, by omega, ?_, hnx⟩
    rw [hb, Fragment.isPunct_of_tok? hbr, Fragment.isPunct_of_tok? hbr]
    rfl
  | cons i' is ih =>
    rw [joinInits_cons, append_assoc] at hk
    obtain ⟨j, hj, hnx, hs⟩ := Init.next hc (.of_mark (by decide) _) hk
    have hcom := hnx.tok_mark (by decide) (fun h => nomatch h)
    obtain ⟨p, hp, hb, hat⟩ := ih i' (by decide) hnx
    refine ⟨p, by omega, ?_, hat⟩
    rw [hs, Fragment.isPunct_of_tok? hcom]
    exact hb

end Grammar

namespace Fragment

variable {F : Fragment} {k p : Nat} {t : Token}

/-! ## Walks move on -/

/-- Where no name starts, the chain is empty. -/
theorem chain_of_segment_none (h : Token.segment? (F.tokens.drop k) = none) : F.chain k = ([], k) := by
  simp only [chain]
  rw [Token.chain, h]
  rfl

theorem segment?_pos {ts : List Token} {name : Text} {n : Nat} (h : Token.segment? ts = some (name, n)) : 0 < n := by
  unfold Token.segment? at h
  split at h
  · cases h
  · split at h
    · cases h
      exact one_pos
    · split at h
      · obtain ⟨u, -, hu⟩ := Option.map_eq_some_iff.1 h
        cases hu
        exact Nat.two_pos
      · cases h

/-- A name takes at least one token. -/
theorem lt_chain (h : (F.chain k).1 ≠ []) : k < (F.chain k).2 := by
  cases hs : Token.segment? (F.tokens.drop k) with
  | none =>
    rw [chain_of_segment_none hs] at h
    exact absurd rfl h
  | some seg =>
    obtain ⟨name, n⟩ := seg
    have hpos := segment?_pos hs
    have hle := F.le_chain (k + n + 1)
    rw [chain_of_segment hs]
    split
    · dsimp only
      omega
    · dsimp only
      omega

theorem le_of_findPunct? {ps : List Text} (h : F.findPunct? ps k = some p) : k ≤ p := by
  obtain ⟨n, -, rfl⟩ := Option.map_eq_some_iff.1 h
  exact Nat.le_add_left k n

/-- Skipping qualifiers never goes back. -/
theorem le_skipQualifiers (F : Fragment) (k : Nat) : k ≤ F.skipQualifiers k := by
  fun_induction skipQualifiers F k with
  | case1 k => exact le_refl k
  | case2 k t ht hq ih =>
    have hg := F.le_skipGroup (k + 1)
    omega
  | case3 k t ht hq harrow =>
    have hsz := lt_size_of_tok? ht
    cases hf : F.findPunct? ["\x7b", ";", ":"] k with
    | none => exact le_of_lt hsz
    | some p => exact le_of_findPunct? hf
  | case4 k => exact le_refl k

/-- The body comes after its member initializers. -/
theorem lt_of_bodyAfterInits? (h : F.bodyAfterInits? k = some p) : k < p := by
  fun_induction bodyAfterInits? F k with
  | case1 => cases h
  | case2 => cases h
  | case3 k _ _ c hc _ ih =>
    have ha := F.le_initArgs k
    have hcl := lt_of_close? hc
    have hnx := ih h
    omega
  | case4 k _ _ c hc =>
    have ha := F.le_initArgs k
    have hcl := lt_of_close? hc
    cases h
    omega
  | case5 => cases h
  | case6 => cases h

/-! ## A move at a time -/

/-- One step back across dimensions. -/
theorem skipDimsBack?_unfold : F.skipDimsBack? k = if F.isPunct k "]" then (F.squareOpenBefore? 0 k).bind fun j => match j with
          | 0 => none | j + 1 => F.skipDimsBack? j else some k := by
  rw [skipDimsBack?]
  split
  · split
    · next j hj => rw [hj, Option.bind_some]
    · next hno =>
      cases ho : F.squareOpenBefore? 0 k with
      | none => rfl
      | some j =>
        cases j with
        | zero => rfl
        | succ j => exact absurd ho (hno j)
  · rfl

/-- One step across dimensions. -/
theorem skipDims_unfold : F.skipDims k = if F.isPunct k "[" then (F.close? k).elim k fun c => F.skipDims (c + 1) else k := by
  rw [skipDims]
  split
  · split
    · next hno => rw [hno, Option.elim_none]
    · next c hc => rw [hc, Option.elim_some]
  · rfl

end Fragment

end Declass
