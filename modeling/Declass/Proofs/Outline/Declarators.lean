import Declass.Proofs.Outline.Declaration

/-!
# How the pass reads declarators

From a declarator on, the pass takes one of five ways, after the form of the initializer, lists the initializer and comes out where
the declarator ends (`Layout.passes`); so it reads declarators one after the other (`passes_declarators`).
-/

namespace Declass

open Fragment List Outline
open Option (any_eq_true bind_eq_bind bind_some elim_some isNone_none map_some)

namespace Variable

open Token

/-! ## Dimensions -/

section Dims


variable {F : Fragment} {b : List Enclosing} {k : Nat} {dims : List (Enclosed .square)}

/-- The significant tokens of the dimensions. -/
def dimTokens (dims : List (Enclosed .square)) : List Token :=
  significant (dims.flatMap Enclosed.tokens)

theorem dimTokens_cons (g : Enclosed .square) :
    dimTokens (g :: dims) = (g.opener.token :: (significant g.inside ++ [g.closer])) ++ dimTokens dims := by
  rw [dimTokens, flatMap_cons, significant_append, g.significant_tokens, dimTokens]

theorem add_length_dimTokens_cons (g : Enclosed .square) :
    k + (dimTokens (g :: dims)).length = k + 1 + (significant g.inside).length + 1 + (dimTokens dims).length := by
  rw [dimTokens_cons, length_append, length_cons, length_append, length_singleton]
  omega

/-- The first of the dimensions, and the others after it. -/
theorem shows_dimTokens_cons {g : Enclosed .square} (h : F.Shows k (dimTokens (g :: dims))) :
    F.Shows k (g.opener.token :: (significant g.inside ++ [g.closer])) ∧
      F.Shows (k + 1 + (significant g.inside).length + 1) (dimTokens dims) := by
  rw [dimTokens_cons] at h
  obtain ⟨hg, hr⟩ := shows_append.1 h
  refine ⟨hg, ?_⟩
  rw [length_cons, length_append, length_singleton] at hr
  convert hr using 1
  omega

theorem Enclosed.level (g : Enclosed .square) (b : Bracket) : b.level 0 (significant g.inside) = some 0 := by
  rw [level_significant]
  exact g.balanced b

theorem skipDims_dims (h : F.Shows k (dimTokens dims)) : F.skipDims k = F.skipDims (k + (dimTokens dims).length) := by
  induction dims generalizing k with
  | nil => rfl
  | cons g dims ih =>
    obtain ⟨hg, hr⟩ := shows_dimTokens_cons h
    rw [skipDims_group hg g.opener.isToken g.isCloser (g.level _), ih hr, add_length_dimTokens_cons]

theorem skipDimsBack?_dims (h : F.Shows (k + 1) (dimTokens dims)) :
    F.skipDimsBack? (k + (dimTokens dims).length) = F.skipDimsBack? k := by
  induction dims generalizing k with
  | nil => rfl
  | cons g dims ih =>
    obtain ⟨hg, hr⟩ := shows_dimTokens_cons h
    rw [add_length_dimTokens_cons, ih (by convert hr using 1; omega),
      skipDimsBack?_group hg g.opener.isToken g.isCloser (g.level _)]

theorem declarationStart_dims (h : F.Shows k (dimTokens dims)) :
    F.declarationStart 0 (k + (dimTokens dims).length) = F.declarationStart 0 k := by
  induction dims generalizing k with
  | nil => rfl
  | cons g dims ih =>
    obtain ⟨hg, hr⟩ := shows_dimTokens_cons h
    rw [add_length_dimTokens_cons, ih hr,
      declarationStart_group 0 hg g.opener.isToken g.isCloser g.level]
    exact fun hb => by cases hb

/-- The pass finds nothing in inert dimensions. -/
theorem passes_dims (hb : IsSearched b) (h : F.Shows k (dimTokens dims))
    (hint : ∀ g ∈ dims, Inert (significant g.inside)) : Passes F b k [] b (k + (dimTokens dims).length) := by
  induction dims generalizing k with
  | nil => exact .refl b k
  | cons g dims ih =>
    obtain ⟨hgrp, hr⟩ := shows_dimTokens_cons h
    obtain ⟨ho, hgrp⟩ := shows_cons.1 hgrp
    obtain ⟨hins, hcl⟩ := shows_append.1 hgrp
    have hfirst : F.isPunct k "[" := by
      rw [isPunct_of_tok? ho]
      exact g.opener.isToken
    have hl : F.isPunct (k + 1 + (significant g.inside).length) "]" := by
      rw [isPunct_of_tok? hcl.tok?]
      exact g.isCloser
    have hregion : F.InertTo (k + 1 + (significant g.inside).length) (k + 1) :=
      ⟨hl, significant g.inside, hins, rfl, fun b => ⟨0, g.level b⟩, hint g mem_cons_self⟩
    have hothers := ih hr fun g hg => hint g (mem_cons_of_mem _ hg)
    rw [add_length_dimTokens_cons]
    exact (((passes_mark hb hfirst (by decide)).trans (passes_inert hb hregion)).trans
      (passes_mark hb hl (by decide))).trans hothers

end Dims

/-! ## Names and marks -/

section Names

variable {F : Fragment} {b : List Enclosing} {k : Nat} {t : Token} {p : Text}

theorem eq_of_isIdent (h : t.isIdent) : ∃ start, t = ⟨.ident, t.text, start⟩ := by
  obtain ⟨kind, text, start⟩ := t
  obtain rfl : kind = .ident := beq_iff_eq.1 h
  exact ⟨start, rfl⟩

theorem isOrdinary_iff : isOrdinary t ↔ t.isIdent ∧ t.isWordOf Grammar.structuralWords = false ∧ t.text ∉ notCallable := by
  simp [isOrdinary, and_assoc]

theorem isPunct_eq_false_of_isIdent (h : t.isIdent) (p : Text) : t.isPunct p = false := by
  obtain ⟨start, ht⟩ := eq_of_isIdent h
  rw [ht]
  rfl

theorem isPunctOf_eq_false_of_isIdent (h : t.isIdent) (ps : List Text) : t.isPunctOf ps = false := by
  rw [isPunctOf, any_eq_false]
  intro p _
  rw [isPunct_eq_false_of_isIdent h]
  exact Bool.false_ne_true

/-- The walk back to a declaration's start goes across a name. -/
theorem declarationStart_name (ht : F.tok? k = some t) (h : t.isIdent) : F.declarationStart 0 (k + 1) = F.declarationStart 0 k :=
  declarationStart_plain (shows_cons.2 ⟨ht, nil_prefix⟩) (by simp [isPunctOf_eq_false_of_isIdent h])

/-- The walk back to a declaration's start goes across a mark. -/
theorem declarationStart_mark (h : F.isPunct k p) (hp : p ∉ ([";", "(", "[", "\x7b", ")", "]", "\x7d"] : List Text)) :
    F.declarationStart 0 (k + 1) = F.declarationStart 0 k := by
  obtain ⟨t, ht, hpun⟩ := (any_eq_true _ _).1 h
  exact declarationStart_plain (shows_cons.2 ⟨ht, nil_prefix⟩)
    (by simpa using isPunctOf_of_isPunct hpun hp)

theorem ident?_of_tok? (ht : F.tok? k = some t) (h : t.isIdent) : F.ident? k = some t.text := by
  rw [ident?, ht, Option.filter_some, if_pos h, map_some]

theorem chain_name (ht : F.tok? k = some t) (h : t.isIdent) (hcol : F.isPunct (k + 1) "::" = false) :
    F.chain k = ([t.text], k + 1) := by
  obtain ⟨start, heq⟩ := eq_of_isIdent h
  rw [chain_of_segment (segment?_ident (ht.trans (congrArg some heq))), hcol]
  rfl

theorem step_name (hb : IsSearched b) (h : isOrdinary t)
    (hnx : (F.tok? (k + 1)).any (·.kind == .string) = false) : step F b k t = nameStep F b k := by
  obtain ⟨hid, hw, -⟩ := isOrdinary_iff.1 h
  have hp := isPunct_eq_false_of_isIdent hid
  rw [step_of_plain hb hw (hp _) (hp _) (by rw [hnx, Bool.and_false, Bool.false_and]), hid]
  rfl

/-- A name that neither a value nor arguments follow is passed. -/
theorem nameStep_skipped {w : Text} (hch : F.chain k = ([w], k + 1)) (hr : F.isPunct (k + 1) "(" = false)
    (hasg : F.isPunct (F.skipDims (k + 1)) "=" → F.assignedInit? k w (F.skipDims (k + 1)) = none) :
    nameStep F b k = some ⟨b, none, k + 1⟩ := by
  have hno : ∀ c : Bool, (if c && F.isPunct (F.skipDims (k + 1)) "=" then
      F.assignedInit? k w (F.skipDims (k + 1)) else none) = none := by
    intro c
    split
    · next heq => exact hasg (Bool.and_eq_true_iff.1 heq).2
    · rfl
  simp only [nameStep, hch, getLast?_singleton, hno, hr, Bool.not_false, Bool.true_or, if_true]

/-- A name with a value is listed. -/
theorem nameStep_assigned {w : Text} {init : GlobalInit} {stop : Nat} (hb : Grammar.InFile b)
    (hch : F.chain k = ([w], k + 1)) (heq : F.isPunct (F.skipDims (k + 1)) "=")
    (hasg : F.assignedInit? k w (F.skipDims (k + 1)) = some (init, stop)) :
    nameStep F b k = some ⟨b, some (.global init), stop + 1⟩ := by
  simp only [nameStep, hch, getLast?_singleton, hb.currentClass, isNone_none, length_singleton,
    decide_true, Bool.true_and, heq, if_true, hasg]

theorem endsInitializer_iff : F.endsInitializer k ↔ ∃ p ∈ ([";", ","] : List Text), F.isPunct k p := by
  simp [Fragment.endsInitializer]

theorem isPunct_of_endsInitializer (h : F.endsInitializer k) (hp : p ∉ ([";", ","] : List Text)) : F.isPunct k p = false := by
  obtain ⟨p', hp', hk⟩ := endsInitializer_iff.1 h
  exact isPunct_eq_false hk fun heq => hp (heq ▸ hp')

theorem skipQualifiers_of_endsInitializer (h : F.endsInitializer k) : F.skipQualifiers k = k := by
  obtain ⟨p, hp, hk⟩ := endsInitializer_iff.1 h
  obtain ⟨t, ht, hpun⟩ := (any_eq_true _ _).1 hk
  obtain ⟨start, rfl⟩ := eq_of_isPunct hpun
  simp only [mem_cons, not_mem_nil, or_false] at hp
  rcases hp with rfl | rfl <;> exact skipQualifiers_mark ht (by decide)

theorem passes_separator (hb : IsSearched b) (h : F.endsInitializer k) : Passes F b k [] b (k + 1) := by
  obtain ⟨p, hp, hk⟩ := endsInitializer_iff.1 h
  have hpl : ∀ p ∈ ([";", ","] : List Text), p ∉ (["\x7b", "\x7d", "~"] : List Text) := by decide
  exact passes_mark hb hk (hpl p hp)

/-- A name with arguments, before the end of its declarator. -/
theorem nameStep_called {w : Text} {j : Nat} (hb : Grammar.InFile b) (hch : F.chain k = ([w], k + 1))
    (hw : w ∉ notCallable) (hr : F.isPunct (k + 1) "(") (hcl : F.close? (k + 1) = some j) (he : F.endsInitializer (j + 1)) :
    nameStep F b k = some ⟨b, (F.parenInit? k w (k + 1) j).map .global, j + 1⟩ := by
  obtain ⟨t, ht, hp⟩ := (any_eq_true _ _).1 hr
  obtain ⟨start, rfl⟩ := eq_of_isPunct hp
  have hch' : F.chain k = ([] ++ [w], k + 1) := hch
  have hcol : F.isPunct (j + 1) ":" = false := isPunct_of_endsInitializer he (by decide)
  have hbr : F.isPunct (j + 1) "\x7b" = false := isPunct_of_endsInitializer he (by decide)
  rw [nameStep_of_params hch' hw ht hcl]
  simp only [callableStep, skipQualifiers_of_endsInitializer he, hcol, hbr, hb.currentClass, he,
    Option.getD_none, isNone_none, nil_append, length_singleton, decide_true, Bool.and_self, if_true,
    Bool.false_eq_true, if_false]

end Names

/-! ## Readers of initializers -/

section Readers

variable {F : Fragment} {b : List Enclosing} {k i j : Nat} {w name : Text} {p : Nat}

theorem parenInit?_direct (hk : 0 < k) (htx : (F.between i j).trim ≠ []) (heq : F.isPunct (k - 1) "=" = false)
    (hty : F.declaredType? k = some w) (hw : w ∉ typeWords) (hne : name ≠ w) :
    F.parenInit? k name i j = some ⟨w, name, (F.between i j).trim⟩ := by
  rw [parenInit?, heq]
  simp [hk, htx, hty, hw, Ne.symm hne]

theorem parenInit?_assigned (hk : 2 ≤ k) (htx : (F.between i j).trim ≠ []) (heq : F.isPunct (k - 1) "=")
    (hty : F.declaredType? k = some w) (htgt : F.skipDimsBack? (k - 2) = some p) (hn : F.ident? p = some name) :
    F.parenInit? k w i j = some ⟨w, name, (F.between i j).trim⟩ := by
  have hpos : 0 < k := by omega
  rw [parenInit?, heq]
  simp [hk, hpos, htx, hty, htgt, hn]

theorem braceInit?_direct (hcl : F.close? k = some j) (he : F.endsInitializer (j + 1)) (hk : 0 < k)
    (heq : F.isPunct (k - 1) "=" = false) (htgt : F.skipDimsBack? (k - 1) = some p) (hn : F.ident? p = some name)
    (hty : F.declaredType? p = some w) (hne : name ≠ w) (htx : (F.between k j).trim ≠ []) :
    F.braceInit? k = some ⟨w, name, (F.between k j).trim⟩ := by
  rw [braceInit?, heq]
  simp [hcl, he, hk, htgt, hn, hty, Ne.symm hne, htx]

theorem braceInit?_assigned (hcl : F.close? k = some j) (he : F.endsInitializer (j + 1)) (hk : 2 ≤ k)
    (heq : F.isPunct (k - 1) "=") (htgt : F.skipDimsBack? (k - 2) = some p) (hn : F.ident? p = some name)
    (hty : F.declaredType? p = some w) (hne : name ≠ w) (htx : (F.between k j).trim ≠ []) :
    F.braceInit? k = some ⟨w, name, (F.between k j).trim⟩ := by
  have hpos : 0 < k := by omega
  rw [braceInit?, heq]
  simp [hcl, he, hk, hpos, htgt, hn, hty, Ne.symm hne, htx]

/-- Values in braces are left to the reader of braces. -/
theorem assignedInit?_braces (hbr : F.isPunct (k + 1) "\x7b") : F.assignedInit? i name k = none := by
  obtain ⟨t, ht, hp⟩ := (any_eq_true _ _).1 hbr
  rw [assignedInit?, ht]
  simp only [bind_eq_bind, bind_some, hp]
  cases F.declaredType? i <;> rfl

/-- Values `T(...)` are left to the reader of calls. -/
theorem assignedInit?_call {t : Token} (hty : F.declaredType? i = some w) (ht : F.tok? (k + 1) = some t)
    (htx : t.text = w) (hr : F.isPunct (k + 2) "(") : F.assignedInit? i name k = none := by
  rw [assignedInit?, ht, hty, hr]
  simp [htx]

theorem assignedInit?_eq {t : Token} (hty : F.declaredType? i = some w) (ht : F.tok? (k + 1) = some t)
    (hbr : t.isPunct "\x7b" = false) (hc : t.text = w → F.isPunct (k + 2) "(" = false)
    (hend : F.exprEnd? (k + 1) = some j) (htx : (F.between k j).trim ≠ []) :
    F.assignedInit? i name k = some (⟨w, name, (F.between k j).trim⟩, j) := by
  have hgd : (!t.isPunct "\x7b" && !(decide (t.text = w) && F.isPunct (k + 2) "(")) := by
    rw [hbr]
    by_cases heq : t.text = w
    · rw [hc heq, Bool.and_false]
      rfl
    · rw [decide_eq_false heq]
      rfl
  rw [assignedInit?, ht, hty, hend]
  simp only [bind_eq_bind, bind_some, hgd, isEmpty_eq_false_iff.2 htx]
  rfl

end Readers

/-! ## One declarator -/

section Pointers

variable {F : Fragment} {b : List Enclosing} {k : Nat} {t : Token}

theorem isPunct_of_isPointer (h : isPointer t) : t.isPunct "*" ∨ t.isPunct "&" := by
  simpa [isPointer, isPunctOf] using h

theorem passes_pointers {ms : List (Led isPointer)} (hb : IsSearched b) (h : F.Shows k (ms.map (·.token))) :
    Passes F b k [] b (k + ms.length) := by
  induction ms generalizing k with
  | nil => exact .refl b k
  | cons m ms ih =>
    obtain ⟨hm, hms⟩ := shows_cons.1 h
    have hmk : Passes F b k [] b (k + 1) := by
      rcases isPunct_of_isPointer m.isToken with hp | hp
      · exact passes_mark hb (by rwa [isPunct_of_tok? hm]) (by decide)
      · exact passes_mark hb (by rwa [isPunct_of_tok? hm]) (by decide)
    rw [length_cons, Nat.add_comm ms.length, ← Nat.add_assoc]
    exact hmk.trans (ih hms)

theorem isPunctOf_of_isPointer (h : isPointer t) {ps : List Text} (hstar : "*".toList ∉ ps) (hand : "&".toList ∉ ps) :
    t.isPunctOf ps = false := by
  rcases isPunct_of_isPointer h with hp | hp
  · exact isPunctOf_of_isPunct hp hstar
  · exact isPunctOf_of_isPunct hp hand

theorem declarationStart_pointers {ms : List (Led isPointer)} (h : F.Shows k (ms.map (·.token))) :
    F.declarationStart 0 (k + ms.length) = F.declarationStart 0 k := by
  have hcr := declarationStart_plain h ?_
  · rwa [length_map] at hcr
  · intro t ht
    obtain ⟨m, -, rfl⟩ := mem_map.1 ht
    exact isPunctOf_of_isPointer m.isToken (by decide) (by decide)

end Pointers

namespace Declarator

variable {word : Text} (d : Declarator word) {args : Arguments .round}

/-- The position of the name, where the declarator starts at `k`. -/
def nameAt (k : Nat) : Nat :=
  k + d.pointers.length

/-- The position after the dimensions of the declarator at `k`. -/
def initAt (k : Nat) : Nat :=
  d.nameAt k + 1 + (dimTokens d.dims).length

/-- The position after the initializer of the declarator at `k`. -/
def endAt (k : Nat) : Nat :=
  d.initAt k + (significant (d.init.elim [] Initializer.tokens)).length

theorem add_length_significant (k : Nat) : k + (significant d.tokens).length = d.endAt k := by
  simp only [tokens, significant_append, significant_flatMap_led, Led.significant_tokens, significant_trivia d.isTrivia,
    length_append, length_map, length_singleton, length_nil, endAt, initAt, nameAt, dimTokens]
  omega

theorem endAt_none (hi : d.init = none) (k : Nat) : d.endAt k = d.initAt k := by
  rw [endAt, hi]
  rfl

theorem endAt_args {b : Bracket} {args : Arguments b} (hi : d.init.elim [] Initializer.tokens = args.tokens) (k : Nat) :
    d.endAt k = d.initAt k + 1 + (significant args.inside).length + 1 := by
  rw [endAt, hi, args.length_significant]
  omega

theorem endAt_equalsCurly {equal : Mark "="} {args : Arguments .curly} (hi : d.init = some (.equalsCurly equal args))
    (k : Nat) : d.endAt k = d.initAt k + 1 + 1 + (significant args.inside).length + 1 := by
  rw [endAt, hi, elim_some, Initializer.tokens, significant_append, equal.significant_tokens, length_append,
    args.length_significant, length_singleton]
  omega

theorem endAt_equalsCall {equal : Mark "="} {type : Led fun t => isOrdinary t && t.text == word}
    (hi : d.init = some (.equalsCall equal type args)) (k : Nat) :
    d.endAt k = d.initAt k + 1 + 1 + 1 + (significant args.inside).length + 1 := by
  rw [endAt, hi, elim_some, Initializer.tokens, significant_append, significant_append, equal.significant_tokens,
    type.significant_tokens, length_append, length_append, args.length_significant, length_singleton,
    length_singleton]
  omega

theorem endAt_equals {equal : Mark "="} {value : Value word} (hi : d.init = some (.equals equal value)) (k : Nat) :
    d.endAt k = d.initAt k + 1 + (significant value.tokens).length := by
  rw [endAt, hi, elim_some, Initializer.tokens, significant_append, equal.significant_tokens, length_append,
    length_singleton]
  omega

end Declarator

/-- Where the parts of a declarator at `k` stand, and the mark `sep` that ends it. -/
structure Layout {word : Text} (src : Text) (k : Nat) (d : Declarator word) (sep : Token) (rest : List Token) : Prop where
  pointers : (ofText src).Shows k (d.pointers.map (·.token))
  name : (ofText src).tok? (d.nameAt k) = some d.name.token
  dims : (ofText src).Shows (d.nameAt k + 1) (dimTokens d.dims)
  init : Rest src (d.initAt k) (d.init.elim [] Initializer.tokens ++ (d.gap ++ sep :: rest))
  separates : sep.isPunctOf [";", ","] = true

variable {src : Text} {k : Nat} {sep : Token}

theorem Rest.layout {word : Text} {d : Declarator word} {rest : List Token} (h : Rest src k (d.tokens ++ sep :: rest))
    (hsep : sep.isPunctOf [";", ","]) : Layout src k d sep rest := by
  simp only [Declarator.tokens, append_assoc] at h
  have hptrs := h.shows
  have hn := h.drop
  rw [significant_flatMap_led] at hptrs hn
  rw [length_map] at hn
  exact ⟨hptrs, hn.tok?, hn.next.shows, hn.next.drop, hsep⟩

theorem Rest.endsInitializer {us : List Token} (h : Rest src k (sep :: us)) (hsep : sep.isPunctOf [";", ","]) :
    (ofText src).endsInitializer k := by
  simp only [Fragment.endsInitializer, isPunct_of_tok? (h.head (isTrivia_of_isPunctOf hsep))]
  simpa only [isPunctOf, any_cons, any_nil, Bool.or_false] using hsep

namespace Value

variable {src word : Text} {k : Nat} {value : Value word} {sep : Token} {rest : List Token}

theorem outer_subset (value : Value word) :
    ∀ t ∈ outer 0 (significant value.tokens), t.isPunctOf [";", ",", "\x7b", "\x7d"] = false :=
  fun t ht => value.single t (outer_significant 0 _ ht)

theorem level (value : Value word) (b : Bracket) : b.level 0 (significant value.tokens) = some 0 := by
  rw [level_significant]
  exact value.balanced b

section

variable (h : Rest src k (value.tokens ++ sep :: rest)) (hsep : sep.isPunctOf [";", ","])

include h hsep

/-- A value ends at the mark after it. -/
theorem exprEnd? : (ofText src).exprEnd? k = some (k + (significant value.tokens).length) := by
  have hr : significant (sep :: rest) = sep :: significant rest :=
    filter_cons_of_pos (by simp [isTrivia_of_isPunctOf hsep])
  have hout : ∀ t ∈ outer 0 (significant value.tokens), t.isPunctOf [";", ","] = false :=
    fun t ht => isPunctOf_of_subset (value.outer_subset t ht) (by decide)
  have hlen : exprLength 0 (significant value.tokens ++ sep :: significant rest) = some (significant value.tokens).length :=
    exprLength_cross value.level hout hsep
  rw [Fragment.exprEnd?, h.tokens, significant_append, hr, hlen, map_some, Nat.add_comm]

/-- A value starts neither with a brace nor with a call of its type. -/
theorem exists_first : ∃ t, (ofText src).tok? k = some t ∧ t.isPunct "\x7b" = false ∧
      (t.text = word → (ofText src).isPunct (k + 1) "(" = false) := by
  have hsh := h.shows
  have hl := h.drop.endsInitializer hsep
  have hc := value.notCall
  have hout := value.outer_subset
  cases hts : significant value.tokens with
  | nil => exact absurd hts value.nonempty
  | cons t ts =>
    rw [hts] at hsh hl hc hout
    obtain ⟨ht, hnx⟩ := shows_cons.1 hsh
    refine ⟨t, ht, ?_, ?_⟩
    · by_contra hbr
      rw [Bool.not_eq_false] at hbr
      obtain ⟨start, rfl⟩ := eq_of_isPunct hbr
      have hfalse : true = false := hout _ (mem_outer rfl rfl)
      cases hfalse
    · intro htx
      cases ts with
      | nil => exact isPunct_of_endsInitializer hl (by decide)
      | cons u ts =>
        rw [isCallOf, htx, beq_self_eq_true, Bool.true_and] at hc
        rw [isPunct_of_tok? hnx.tok?, hc]

end

end Value

/-- The pass is in a declaration from `start` on, of type `word`. -/
structure Site (src : Text) (b : List Enclosing) (start first : Nat) (word : Text) : Prop where
  inFile : Grammar.InFile b
  lt : start < first
  type : ∀ j, first ≤ j → (ofText src).declarationStart 0 j = start →
    (ofText src).declaredType? j = some word

namespace Layout

variable {src word : Text} {b : List Enclosing} {start first k : Nat} {d : Declarator word} {sep : Token} {rest : List Token}
  {args : Arguments .curly} {us : List Token} {p : Nat}

theorem isIdent_name : d.name.token.isIdent :=
  (isOrdinary_iff.1 d.name.isToken).1

/-- A brace at file scope that initializes a variable. -/
theorem passes_braces {init : GlobalInit} (hb : Grammar.InFile b) (hp : Rest src p (args.tokens ++ us))
    (hi : (ofText src).braceInit? p = some init) :
    Passes (ofText src) b p [.global init] b (p + 1 + (significant args.inside).length + 1) := by
  obtain ⟨t, ht, hpun⟩ := (any_eq_true _ _).1 hp.opener
  obtain ⟨start, rfl⟩ := eq_of_isPunct hpun
  have hs : step (ofText src) b p ⟨.punct, Bracket.curly.opening, start⟩ =
      some ⟨b, some (.global init), p + 1 + (significant args.inside).length + 1⟩ := by
    simp only [step, if_neg hb.isSearched, hb.currentClass, hi, hp.close?]
    rfl
  exact Passes.one ht hs (by omega)

/-- The walk back goes across a group that initializes. -/
theorem declarationStart_args {o : Bracket} {args : Arguments o} (h : Rest src p (args.tokens ++ us))
    (hcur : o = .curly → (ofText src).isPunct (p + 1 + (significant args.inside).length + 1) ",") :
    (ofText src).declarationStart 0 (p + 1 + (significant args.inside).length + 1) = (ofText src).declarationStart 0 p := by
  have hsh := h.shows
  rw [args.significant_tokens] at hsh
  refine declarationStart_group 0 hsh args.opener.isToken args.isCloser (fun b' => ?_) hcur
  rw [level_significant]
  exact args.balanced b'

variable (L : Layout src k d sep rest)
include L

theorem isPunct_init {init : Initializer word} (hi : d.init = some init) : (ofText src).isPunct (d.initAt k) init.mark := by
  have hat := L.init
  rw [hi, elim_some] at hat
  cases init with
  | round | curly => exact hat.opener
  | equalsCurly equal args =>
    rw [Initializer.tokens, append_assoc] at hat
    exact hat.mark
  | equalsCall equal type args =>
    rw [Initializer.tokens, append_assoc] at hat
    exact hat.mark
  | equals equal value =>
    rw [Initializer.tokens, append_assoc] at hat
    exact hat.mark

theorem separator : Rest src (d.endAt k) (sep :: rest) :=
  L.init.drop.skip d.isTrivia

theorem endsInitializer : (ofText src).endsInitializer (d.endAt k) :=
  L.separator.endsInitializer L.separates

/-- The token after the name ends it. -/
theorem isPunct_after : ∃ p ∈ (["(", "\x7b", "=", ",", ";", "["] : List Text), (ofText src).isPunct (d.nameAt k + 1) p ∧
      (p = "(" → d.init.any Initializer.isRound) := by
  cases hd : d.dims with
  | cons g dims =>
    have hdims := L.dims
    rw [hd] at hdims
    have ho := (shows_dimTokens_cons hdims).1.tok?
    refine ⟨"[", by decide, ?_, fun heq => absurd heq (by decide)⟩
    rw [isPunct_of_tok? ho]
    exact g.opener.isToken
  | nil =>
    have hnx : d.nameAt k + 1 = d.initAt k := by
      rw [Declarator.initAt, hd]
      rfl
    rw [hnx]
    cases hi : d.init with
    | none =>
      have he := L.endsInitializer
      rw [d.endAt_none hi] at he
      obtain ⟨p, hp, hpun⟩ := endsInitializer_iff.1 he
      have hmem : ∀ p ∈ ([";", ","] : List Text), p ∈ (["(", "\x7b", "=", ",", ";", "["] : List Text) ∧ p ≠ "(" := by decide
      exact ⟨p, (hmem p hp).1, hpun, fun heq => absurd heq (hmem p hp).2⟩
    | some init =>
      refine ⟨init.mark, ?_, L.isPunct_init hi, ?_⟩
      · cases init <;> exact mem_of_elem_eq_true rfl
      · intro heq
        cases init with
        | round args => rfl
        | _ => simp [Initializer.mark] at heq

/-- After a declarator's name is no `::` or literal, and a `(` only for arguments. -/
theorem after_name : (ofText src).isPunct (d.nameAt k + 1) "::" = false ∧
      ((ofText src).tok? (d.nameAt k + 1)).any (·.kind == .string) = false ∧
      (d.init.any Initializer.isRound = false → (ofText src).isPunct (d.nameAt k + 1) "(" = false) := by
  obtain ⟨p, hp, hpun, hr⟩ := L.isPunct_after
  have hne : ∀ p ∈ (["(", "\x7b", "=", ",", ";", "["] : List Text), "::" ≠ p := by decide
  refine ⟨isPunct_eq_false hpun (hne p hp), not_string_of_isPunct hpun, ?_⟩
  intro hno
  refine isPunct_eq_false hpun ?_
  rintro rfl
  rw [hr rfl] at hno
  cases hno

theorem chain : (ofText src).chain (d.nameAt k) = ([d.name.token.text], d.nameAt k + 1) :=
  chain_name L.name isIdent_name L.after_name.1

theorem step (hb : IsSearched b) : step (ofText src) b (d.nameAt k) d.name.token = nameStep (ofText src) b (d.nameAt k) :=
  step_name hb d.name.isToken L.after_name.2.1

theorem ident? : (ofText src).ident? (d.nameAt k) = some d.name.token.text :=
  ident?_of_tok? L.name isIdent_name

/-- The dimensions are passed over in both directions. -/
theorem skipDims : (ofText src).skipDims (d.nameAt k + 1) = d.initAt k := by
  rw [skipDims_dims L.dims]
  refine skipDims_of_not_isPunct ?_
  cases hi : d.init with
  | none =>
    have he := L.endsInitializer
    rw [d.endAt_none hi] at he
    exact isPunct_of_endsInitializer he (by decide)
  | some init =>
    refine isPunct_eq_false (L.isPunct_init hi) ?_
    cases init <;> simp [Initializer.mark]

theorem skipDimsBack? : (ofText src).skipDimsBack? (d.initAt k - 1) = some (d.nameAt k) := by
  have hl : d.initAt k - 1 = d.nameAt k + (dimTokens d.dims).length := by
    rw [Declarator.initAt]
    omega
  have hsq : (ofText src).isPunct (d.nameAt k) "]" = false := by
    rw [isPunct_of_tok? L.name, isPunct_eq_false_of_isIdent isIdent_name]
  rw [hl, skipDimsBack?_dims L.dims, skipDimsBack?_unfold, hsq, if_neg Bool.false_ne_true]

/-- Before the initializer stands no `=` but its own. -/
theorem before_init : (ofText src).isPunct (d.initAt k - 1) "=" = false := by
  by_contra heq
  rw [Bool.not_eq_false] at heq
  have hback := L.skipDimsBack?
  rw [skipDimsBack?_unfold, isPunct_eq_false heq (by decide), if_neg Bool.false_ne_true, Option.some.injEq] at hback
  rw [hback, isPunct_of_tok? L.name, isPunct_eq_false_of_isIdent isIdent_name] at heq
  cases heq

theorem declarationStart_name : (ofText src).declarationStart 0 (d.nameAt k) = (ofText src).declarationStart 0 k :=
  declarationStart_pointers L.pointers

theorem declarationStart_init : (ofText src).declarationStart 0 (d.initAt k) = (ofText src).declarationStart 0 k := by
  rw [Declarator.initAt, declarationStart_dims L.dims, Variable.declarationStart_name L.name isIdent_name,
    L.declarationStart_name]

/-- The pass goes to an initializer that is not listed with the name. -/
theorem passes_init (hb : IsSearched b) (hr : d.init.any Initializer.isRound = false)
    (hval : d.init.any Initializer.isValue = false) (hasg : (ofText src).isPunct (d.initAt k) "=" →
      (ofText src).assignedInit? (d.nameAt k) d.name.token.text (d.initAt k) = none) :
    Passes (ofText src) b k [] b (d.initAt k) := by
  have hsk : nameStep (ofText src) b (d.nameAt k) = some ⟨b, none, d.nameAt k + 1⟩ := by
    refine nameStep_skipped L.chain (L.after_name.2.2 hr) ?_
    rw [L.skipDims]
    exact hasg
  have hn := Passes.one L.name ((L.step hb).trans hsk) (Nat.lt_succ_self _)
  exact ((passes_pointers hb L.pointers).trans hn).trans (passes_dims hb L.dims (d.inert hval))

section

variable (S : Site src b start first word) (hstart : (ofText src).declarationStart 0 k = start) (hfirst : first ≤ d.nameAt k)
include S hstart hfirst

theorem type_name : (ofText src).declaredType? (d.nameAt k) = some word :=
  S.type _ hfirst (L.declarationStart_name.trans hstart)

/-- `T x{args}`. -/
theorem passes_curly (hi : d.init = some (.curly args)) :
    Passes (ofText src) b k [.global ⟨word, d.name.token.text, args.text⟩] b (d.endAt k) := by
  have hat := L.init
  have he := L.endsInitializer
  rw [hi] at hat
  rw [d.endAt_args (by rw [hi]; rfl)] at he ⊢
  obtain ⟨htx, hne⟩ := hat.text
  have hbr : (ofText src).braceInit? (d.initAt k) = some ⟨word, d.name.token.text, args.text⟩ := by
    rw [← htx] at hne ⊢
    exact braceInit?_direct hat.close? he (by unfold Declarator.initAt; omega) L.before_init L.skipDimsBack? L.ident?
      (L.type_name S hstart hfirst) d.fresh hne
  have hm := isPunct_eq_false (L.isPunct_init hi) (show "=".toList ≠ _ by simp [Initializer.mark])
  have hps := L.passes_init S.inFile.isSearched (by rw [hi]; rfl) (by rw [hi]; rfl) fun heq => by cases hm.symm.trans heq
  exact hps.trans (passes_braces S.inFile hat hbr)

/-- `T x = {args}`. -/
theorem passes_equalsCurly {equal : Mark "="} (hi : d.init = some (.equalsCurly equal args)) :
    Passes (ofText src) b k [.global ⟨word, d.name.token.text, args.text⟩] b (d.endAt k) := by
  have heq := L.init
  have he := L.endsInitializer
  rw [hi, elim_some, Initializer.tokens, append_assoc] at heq
  rw [d.endAt_equalsCurly hi] at he ⊢
  have hat := heq.next
  obtain ⟨htx, hne⟩ := hat.text
  have hbr : (ofText src).braceInit? (d.initAt k + 1) = some ⟨word, d.name.token.text, args.text⟩ := by
    rw [← htx] at hne ⊢
    exact braceInit?_assigned hat.close? he (by unfold Declarator.initAt; omega) heq.mark L.skipDimsBack? L.ident?
      (L.type_name S hstart hfirst) d.fresh hne
  have hps := L.passes_init S.inFile.isSearched (by rw [hi]; rfl) (by rw [hi]; rfl) fun _ => assignedInit?_braces hat.opener
  exact (hps.trans (passes_mark S.inFile.isSearched heq.mark (by decide))).trans
    (passes_braces S.inFile hat hbr)

/-- `T x(args)`. -/
theorem passes_round {args : Arguments .round} (hi : d.init = some (.round args))
    (hbef : (ofText src).isPunct (d.nameAt k - 1) "=" = false) :
    Passes (ofText src) b k [.global ⟨word, d.name.token.text, args.text⟩] b (d.endAt k) := by
  obtain ⟨hdims, hw⟩ := d.direct (by rw [hi]; rfl)
  have haft : d.initAt k = d.nameAt k + 1 := by
    rw [Declarator.initAt, hdims]
    rfl
  have hat := L.init
  have he := L.endsInitializer
  rw [haft, hi] at hat
  rw [d.endAt_args (by rw [hi]; rfl), haft] at he ⊢
  obtain ⟨htx, hne⟩ := hat.text
  have hpar : (ofText src).parenInit? (d.nameAt k) d.name.token.text (d.nameAt k + 1)
      (d.nameAt k + 1 + 1 + (significant args.inside).length) = some ⟨word, d.name.token.text, args.text⟩ := by
    have hlt := S.lt
    rw [← htx] at hne ⊢
    exact parenInit?_direct (by omega) hne hbef (L.type_name S hstart hfirst) hw d.fresh
  have hs := nameStep_called S.inFile L.chain (isOrdinary_iff.1 d.name.isToken).2.2 hat.opener hat.close? he
  rw [hpar, ← L.step S.inFile.isSearched] at hs
  exact (passes_pointers S.inFile.isSearched L.pointers).trans (Passes.one L.name hs (by omega))

/-- `T x = T(args)`. -/
theorem passes_equalsCall {equal : Mark "="} {type : Led fun t => isOrdinary t && t.text == word} {args : Arguments .round}
    (hi : d.init = some (.equalsCall equal type args)) :
    Passes (ofText src) b k [.global ⟨word, d.name.token.text, args.text⟩] b (d.endAt k) := by
  have heq := L.init
  have he := L.endsInitializer
  rw [hi, elim_some, Initializer.tokens, append_assoc, append_assoc] at heq
  rw [d.endAt_equalsCall hi] at he ⊢
  have hty := heq.next
  have hat := hty.next
  obtain ⟨htx, hne⟩ := hat.text
  obtain ⟨hord, hw⟩ := Bool.and_eq_true_iff.1 type.isToken
  rw [beq_iff_eq] at hw
  obtain ⟨hid, -, hcallable⟩ := isOrdinary_iff.1 hord
  have hdecl : (ofText src).declaredType? (d.initAt k + 1) = some word := by
    refine S.type _ (by unfold Declarator.initAt; omega) ?_
    rw [declarationStart_mark heq.mark (by decide), L.declarationStart_init, hstart]
  have hpar : (ofText src).parenInit? (d.initAt k + 1) word (d.initAt k + 1 + 1)
      (d.initAt k + 1 + 1 + 1 + (significant args.inside).length) = some ⟨word, d.name.token.text, args.text⟩ := by
    rw [← htx] at hne ⊢
    exact parenInit?_assigned (by unfold Declarator.initAt; omega) hne heq.mark hdecl L.skipDimsBack? L.ident?
  have hr : (ofText src).isPunct (d.initAt k + 1 + 1) "(" := hat.opener
  have hch := chain_name hty.tok? hid (isPunct_eq_false hr (by decide))
  rw [hw] at hch hcallable
  have hs := nameStep_called S.inFile hch hcallable hr hat.close? he
  rw [hpar, ← step_name S.inFile.isSearched hord (not_string_of_isPunct hr)] at hs
  have hps := L.passes_init S.inFile.isSearched (by rw [hi]; rfl) (by rw [hi]; rfl) fun _ =>
    assignedInit?_call (L.type_name S hstart hfirst) hty.tok? hw hr
  exact (hps.trans (passes_mark S.inFile.isSearched heq.mark (by decide))).trans
    (Passes.one hty.tok? hs (by omega))

/-- `T x = value`. The mark after the value is passed with it. -/
theorem passes_equals {equal : Mark "="} {value : Value word} (hi : d.init = some (.equals equal value)) :
    Passes (ofText src) b k [.global ⟨word, d.name.token.text, (spelling value.tokens).trim⟩] b (d.endAt k + 1) := by
  have heq := L.init
  have hgap : d.gap = [] := d.closed (by rw [hi]; rfl)
  have hpl := d.endAt_equals hi k
  rw [hi, hgap, elim_some, Initializer.tokens, append_assoc] at heq
  have hat := heq.next
  have hbet := heq.between (isTrivia_of_isPunctOf L.separates)
  obtain ⟨t, ht, hbr, hc⟩ := Value.exists_first hat L.separates
  have hne : ((ofText src).between (d.initAt k) (d.initAt k + 1 + (significant value.tokens).length)).trim ≠ [] := by
    rw [hbet, ← isEmpty_eq_false_iff, Text.isEmpty_trim]
    exact value.isText
  have hasg : (ofText src).assignedInit? (d.nameAt k) d.name.token.text (d.initAt k) =
      some (⟨word, d.name.token.text, (spelling value.tokens).trim⟩, d.endAt k) := by
    rw [hpl, ← hbet]
    exact assignedInit?_eq (L.type_name S hstart hfirst) ht hbr hc (Value.exprEnd? hat L.separates) hne
  have hm : (ofText src).isPunct (d.initAt k) "=" := L.isPunct_init hi
  rw [← L.skipDims] at hasg hm
  have hs := nameStep_assigned S.inFile L.chain hm hasg
  rw [← L.step S.inFile.isSearched] at hs
  have hn := Passes.one L.name hs (by rw [hpl]; unfold Declarator.initAt; omega)
  exact (passes_pointers S.inFile.isSearched L.pointers).trans hn

/-- The pass reads one declarator and the mark after it. -/
theorem passes (hbef : (ofText src).isPunct (d.nameAt k - 1) "=" = false) :
    Passes (ofText src) b k (d.global?.toList.map .global) b (d.endAt k + 1) := by
  have hsep := passes_separator S.inFile.isSearched L.endsInitializer
  cases hi : d.init with
  | none =>
    have he := L.endsInitializer
    rw [d.endAt_none hi] at he hsep ⊢
    have hm := isPunct_of_endsInitializer he (p := "=") (by decide)
    have hps := L.passes_init S.inFile.isSearched (by rw [hi]; rfl) (by rw [hi]; rfl) fun heq => by cases hm.symm.trans heq
    rw [Declarator.global?, hi]
    exact hps.trans hsep
  | some init =>
    rw [Declarator.global?, hi]
    cases init with
    | round args => exact (L.passes_round S hstart hfirst hi hbef).trans hsep
    | curly args => exact (L.passes_curly S hstart hfirst hi).trans hsep
    | equalsCurly equal args => exact (L.passes_equalsCurly S hstart hfirst hi).trans hsep
    | equalsCall equal type args => exact (L.passes_equalsCall S hstart hfirst hi).trans hsep
    | equals equal value => exact L.passes_equals S hstart hfirst hi

end

/-- The walk back goes across an initializer before a `,`. -/
theorem declarationStart_end (hsep : (ofText src).isPunct (d.endAt k) ",") :
    (ofText src).declarationStart 0 (d.endAt k) = (ofText src).declarationStart 0 (d.initAt k) := by
  have hat := L.init
  cases hi : d.init with
  | none => rw [d.endAt_none hi]
  | some init =>
    rw [hi, elim_some] at hat
    cases init with
    | round args =>
      rw [d.endAt_args (by rw [hi]; rfl)]
      exact declarationStart_args hat fun heq => by cases heq
    | curly args =>
      rw [d.endAt_args (by rw [hi]; rfl)] at hsep ⊢
      exact declarationStart_args hat fun _ => hsep
    | equalsCurly equal args =>
      rw [Initializer.tokens, append_assoc] at hat
      rw [d.endAt_equalsCurly hi] at hsep ⊢
      rw [declarationStart_args hat.next fun _ => hsep, declarationStart_mark hat.mark (by decide)]
    | equalsCall equal type args =>
      rw [Initializer.tokens, append_assoc, append_assoc] at hat
      have hid := (isOrdinary_iff.1 (Bool.and_eq_true_iff.1 type.isToken).1).1
      rw [d.endAt_equalsCall hi, declarationStart_args hat.next.next (fun heq => by cases heq),
        Variable.declarationStart_name hat.next.tok? hid, declarationStart_mark hat.mark (by decide)]
    | equals equal value =>
      rw [Initializer.tokens, append_assoc] at hat
      have hcr := declarationStart_cross 0 hat.next.shows value.level
        (.inr fun t ht => isPunctOf_of_subset (value.outer_subset t ht) (by decide))
      rw [d.endAt_equals hi, ← declarationStart_mark hat.mark (by decide)]
      exact hcr

/-- The walk back goes across a declarator and the `,` after it. -/
theorem declarationStart_next (hcom : sep.isPunct ",") :
    (ofText src).declarationStart 0 (d.endAt k + 1) = (ofText src).declarationStart 0 k := by
  have hsep : (ofText src).isPunct (d.endAt k) "," := by
    rw [isPunct_of_tok? (L.separator.head (isTrivia_of_isPunct hcom)), hcom]
  rw [declarationStart_mark hsep (by decide), L.declarationStart_end hsep, L.declarationStart_init]

theorem before_name (hk : (ofText src).isPunct (k - 1) "=" = false) : (ofText src).isPunct (d.nameAt k - 1) "=" = false := by
  by_cases hlen : d.pointers.length = 0
  · rwa [Declarator.nameAt, hlen]
  · obtain ⟨t, ht, htok⟩ := L.pointers.exists_tok? (i := d.nameAt k - 1) (by unfold Declarator.nameAt; omega)
      (by rw [length_map, Declarator.nameAt]; omega)
    obtain ⟨m, -, rfl⟩ := mem_map.1 ht
    have hptr : m.token.isPunctOf ["="] = false := isPunctOf_of_isPointer m.isToken (by decide) (by decide)
    rw [isPunct_of_tok? htok]
    simpa only [isPunctOf, any_cons, any_nil, Bool.or_false] using hptr

end Layout

/-! ## All declarators -/

section All

variable {src word : Text} {b : List Enclosing} {start first k : Nat}

theorem isPunctOf_of_mem {t : Token} {p : Text} {ps : List Text} (h : t.isPunct p) (hp : p ∈ ps) : t.isPunctOf ps :=
  any_eq_true.2 ⟨p, hp, h⟩

/-- The pass reads the declarators one after the other. -/
theorem passes_declarators {ds : Declarators word} {after : List Token} (S : Site src b start first word)
    (h : Rest src k (ds.tokens ++ after)) (hstart : (ofText src).declarationStart 0 k = start)
    (hfirst : first ≤ ds.first.nameAt k) (hbef : (ofText src).isPunct (k - 1) "=" = false) :
    Passes (ofText src) b k (ds.globals.map .global) b (k + (significant ds.tokens).length) := by
  induction ds generalizing k with
  | last d semicolon =>
    rw [Declarators.tokens, append_assoc] at h
    have L := Rest.layout h (isPunctOf_of_mem semicolon.property (by decide))
    have hps := L.passes S hstart hfirst (L.before_name hbef)
    rw [Declarators.tokens, significant_append, significant_singleton (isTrivia_of_isPunct semicolon.property),
      length_append, ← Nat.add_assoc, d.add_length_significant]
    exact hps
  | more d comma ds ih =>
    rw [Declarators.tokens, append_assoc] at h
    have L := Rest.layout h (isPunctOf_of_mem comma.property (by decide))
    have hps := L.passes S hstart hfirst (L.before_name hbef)
    have hcom := isTrivia_of_isPunct comma.property
    have hnx := ih (L.separator.tail hcom) ((L.declarationStart_next comma.property).trans hstart) ?_ ?_
    · rw [Declarators.tokens, significant_append, ← singleton_append, significant_append,
        significant_singleton hcom, length_append, length_append, ← Nat.add_assoc, d.add_length_significant,
        ← Nat.add_assoc, Declarators.globals, map_append]
      exact hps.trans hnx
    · have hle : d.nameAt k ≤ d.endAt k := by
        unfold Declarator.endAt Declarator.initAt
        omega
      exact hfirst.trans (hle.trans (Nat.le_add_right _ _ |>.trans (Nat.le_add_right _ _)))
    · rw [Nat.add_sub_cancel]
      have hm : (ofText src).isPunct (d.endAt k) "," := by
        rw [isPunct_of_tok? (L.separator.head hcom)]
        exact comma.property
      exact isPunct_eq_false hm (by decide)

end All

end Variable

end Declass
