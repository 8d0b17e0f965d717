import Declass.Lowering.Body
import Declass.Proofs.Token.Nesting

/-!
# Tokens that can be lowered

A lowered call loses the line feed after a `//` comment at the end of its arguments. `Tidy` says that this does not occur and that
all tokens can be moved; `Steady` asks for less, and passes to runs of tokens (`Steady.run`, `Steady.of_bare`).
-/

namespace Declass

open Declass.Bracket List Text

namespace Token

/-- The token holds blanks only. -/
def isBlank (t : Token) : Bool :=
  Text.allBlank t.text

/-- Blanks aside, no directive comes first and no token to a line's end last. -/
def isNeat (ts : List Token) : Bool :=
  (ts.find? (!·.isBlank)).all (·.kind != .directive) && (ts.reverse.find? (!·.isBlank)).all (!·.endsLine)

/-- The token is lowered to a number, or is one. -/
def isNumeral (t : Token) : Bool :=
  t.kind == .number || t.isWordOf ["true", "false"]

/-- The tokens stay apart without a blank between them. -/
def standsApart (t u : Token) : Bool :=
  !(t.isNumeral && (u.text.head? == some '\'' || u.text.head? == some '.')) &&
    !(t.kind == .number && u.isPunct "::") && !(t.isPunct "." && u.isWordOf ["true", "false"])

variable {t : Token}

theorem isWordOf_iff {ws : List Text} : t.isWordOf ws ↔ t.isIdent ∧ t.text ∈ ws := by
  rw [isWordOf, any_eq_true]
  constructor
  · rintro ⟨w, hw, h⟩
    rw [isWord, Bool.and_eq_true, beq_iff_eq] at h
    exact ⟨h.1, h.2 ▸ hw⟩
  · rintro ⟨hid, hmem⟩
    exact ⟨t.text, hmem, by simp [isWord, hid]⟩

theorem standsApart_iff {u : Token} : standsApart t u ↔ (t.isNumeral → u.text.head? ≠ some '\'' ∧ u.text.head? ≠ some '.') ∧
      (t.kind = .number → u.isPunct "::" = false) ∧ (t.isPunct "." → u.isWordOf ["true", "false"] = false) := by
  simp only [standsApart, Bool.and_eq_true, Bool.not_eq_true', Bool.and_eq_false_imp, Bool.or_eq_false_iff, beq_iff_eq,
    beq_eq_false_iff_ne, and_assoc]

/-- The token without its place. -/
def bare (t : Token) : Token :=
  { t with start := 0 }

end Token

open Token

namespace Program

/-- A group of kind `b` after `us` can be arguments of a call. -/
def trimsGroup (p : Program) (owner : Option Class) (us : List Token) (b : Bracket) : Bool :=
  match (us.filter (!·.isTrivia)).reverse with
  | [] => false
  | name :: before =>
    let declares (c : Class) : Bool := (c.method? name.text).isSome
    let ofObject := before.head?.any (·.isPunctOf [".", "->", "::"]) && p.classes.any declares
    let declared := before.head?.any fun t => t.isIdent && (p.class? t.text).isSome
    name.isIdent && ((b == .round && (ofObject || owner.any declares)) || (b != .square && declared))

end Program

/-- The tokens can be lowered in members of `owner`, or elsewhere. -/
structure Tidy (p : Program) (owner : Option Class) (ts : List Token) : Prop where
  movable : ∀ t ∈ ts, t.isMovable = true
  apart : ts.IsChain fun t u => standsApart t u = true
  /-- The arguments that are trimmed can be trimmed. -/
  neat : ∀ us o ms c vs b, ts = us ++ o :: (ms ++ c :: vs) → opened? o = some b → closed? c = some b →
    Nested ms → p.trimsGroup owner us b = true → isNeat ms = true

namespace Tidy

variable {p : Program} {owner : Option Class} {us ts : List Token}

/-! ## Runs of tokens -/

theorem trimsGroup_append {b : Bracket} (before : List Token) (h : p.trimsGroup owner us b) :
    p.trimsGroup owner (before ++ us) b := by
  unfold Program.trimsGroup at h ⊢
  rw [filter_append, reverse_append]
  cases hus : (us.filter (!·.isTrivia)).reverse with
  | nil =>
    rw [hus] at h
    nomatch h
  | cons name rest =>
    rw [hus] at h
    cases rest with
    | cons t rest => exact h
    | nil =>
      simp only [head?_nil, Option.any_none, Bool.false_and, Bool.false_or, Bool.and_false, Bool.or_false,
        Bool.and_eq_true] at h
      simp [h.1, h.2.1, h.2.2]

/-! ## The same tokens elsewhere -/

theorem passAll_bare (s : List Bracket) : passAll s (ts.map bare) = passAll s ts := by
  induction ts generalizing s with
  | nil => rfl
  | cons t ts ih =>
    have hps : pass s t.bare = pass s t := rfl
    rw [map_cons, passAll, passAll, hps]
    cases pass s t with
    | none => rfl
    | some s' => exact ih s'

theorem filter_bare (f : Token → Bool) (hf : ∀ t, f t.bare = f t) : (ts.map bare).filter f = (ts.filter f).map bare := by
  rw [filter_map]
  congr 2
  funext t
  exact hf t

theorem trimsGroup_bare (b : Bracket) : p.trimsGroup owner (us.map bare) b = p.trimsGroup owner us b := by
  unfold Program.trimsGroup
  rw [filter_bare _ fun _ => rfl, ← map_reverse]
  cases (us.filter (!·.isTrivia)).reverse with
  | nil => rfl
  | cons name rest =>
    cases rest with
    | nil => rfl
    | cons t rest => rfl

theorem isNeat_bare : isNeat (ts.map bare) = isNeat ts := by
  have hf (us : List Token) : (us.map bare).find? (!·.isBlank) = (us.find? (!·.isBlank)).map bare := by
    rw [find?_map]
    rfl
  rw [isNeat, isNeat, ← map_reverse, hf, hf]
  cases ts.find? (!·.isBlank) <;> cases ts.reverse.find? (!·.isBlank) <;> rfl

theorem bare_tokenize (h : Lexed true ts) : (tokenize (spelling ts)).map bare = ts.map bare := by
  have hb (us : List Token) : us.map bare = (us.map shape).map fun s => Token.mk s.1 s.2 0 := by
    rw [map_map]
    rfl
  rw [hb, hb, ← h.shape_tokenizeFrom 0]
  rfl

theorem quoteApart (h : Tidy p owner ts) : ts.IsChain fun t u => Token.quoteApart t u := by
  refine h.apart.imp ?_
  intro t u htu
  simp only [standsApart, Token.isNumeral, Bool.and_eq_true, Bool.not_eq_true', Bool.and_eq_false_iff, Bool.or_eq_false_iff] at htu
  rw [Token.quoteApart, Bool.not_eq_true', Bool.and_eq_false_iff]
  exact htu.1.1.imp And.left And.left

end Tidy

/-! ## Tokens that stay tokens -/

namespace Token

/-- The token is complete, and is no stray `#`. -/
def isWhole (t : Token) : Bool :=
  t.isTerminated && !t.isStray

/-- The tokens stay apart when lowered one after the other. -/
def keepsApart (t u : Token) : Bool :=
  !(t.isWordOf ["true", "false"] && (u.text.head? == some '\'' || u.text.head? == some '.')) &&
    !(t.kind == .number && u.isPunct "::") && !(t.isPunct "." && u.isWordOf ["true", "false"])

variable {t u : Token}

theorem isWhole_iff : t.isWhole ↔ t.isTerminated ∧ t.isStray = false := by
  rw [isWhole, Bool.and_eq_true, Bool.not_eq_true']

theorem keepsApart_iff : keepsApart t u ↔ (t.isWordOf ["true", "false"] → u.text.head? ≠ some '\'' ∧ u.text.head? ≠ some '.') ∧
      (t.kind = .number → u.isPunct "::" = false) ∧ (t.isPunct "." → u.isWordOf ["true", "false"] = false) := by
  simp only [keepsApart, Bool.and_eq_true, Bool.not_eq_true', Bool.and_eq_false_imp, Bool.or_eq_false_iff, beq_iff_eq,
    beq_eq_false_iff_ne, and_assoc]

theorem keepsApart_of_standsApart (h : standsApart t u) : keepsApart t u := by
  obtain ⟨hnum, hcol, hpt⟩ := standsApart_iff.1 h
  exact keepsApart_iff.2 ⟨fun hw => hnum (by rw [Token.isNumeral, hw, Bool.or_true]), hcol, hpt⟩

theorem level_bare (b : Bracket) (n : Nat) (ts : List Token) : b.level n (ts.map bare) = b.level n ts := by
  induction ts generalizing n with
  | nil => rfl
  | cons t ts ih =>
    have ho : opened? t.bare = opened? t := rfl
    have hc : closed? t.bare = closed? t := rfl
    rw [map_cons, Bracket.level, Bracket.level, ho, hc, ih, ih, ih]

/-- The same tokens elsewhere are cut off alike. -/
theorem Lexed.of_bare {lineStart : Bool} {ts ts' : List Token} (h : Lexed lineStart ts) (heq : ts.map bare = ts'.map bare) :
    Lexed lineStart ts' := by
  induction h generalizing ts' with
  | nil =>
    rw [map_nil, eq_comm, map_eq_nil_iff] at heq
    exact heq ▸ .nil _
  | @cons lineStart t ts c r ht hl _ ih =>
    obtain ⟨t', rest, rfl, htt, hrest⟩ := map_eq_cons_iff.1 heq.symm
    have hspl (us : List Token) : spelling us = (us.map bare).flatMap text := by
      rw [flatMap_map]
      rfl
    have htext : t'.bare.text = t.bare.text := by rw [htt]
    have hkind : t'.bare.kind = t.bare.kind := by rw [htt]
    refine .cons c r (htext.trans ht) ?_ ?_
    · rw [hspl rest, hrest, ← hspl]
      exact hkind ▸ hl
    · have haft : lineStartAfter lineStart t'.bare = lineStartAfter lineStart t.bare := by rw [htt]
      exact (haft ▸ ih hrest.symm :)

end Token

/-- Lowering in members of `owner`, or elsewhere, leaves each token one. -/
structure Steady (p : Program) (owner : Option Class) (ts : List Token) : Prop where
  whole : ∀ t ∈ ts, t.isWhole = true
  apart : ts.IsChain fun t u => keepsApart t u = true
  /-- The arguments that are trimmed can be trimmed. -/
  neat : ∀ us o ms c vs b, ts = us ++ o :: (ms ++ c :: vs) → opened? o = some b → closed? c = some b →
    b.level 0 ms = some 0 → p.trimsGroup owner us b = true → isNeat ms = true

/-- Where brackets fit, tidy tokens stay tokens. -/
theorem Tidy.steady {p : Program} {owner : Option Class} {ts : List Token} (h : Tidy p owner ts) {s s' : List Bracket}
    (hs : passAll s ts = some s') : Steady p owner ts where
  whole t ht := by
    have hmov := h.movable t ht
    rw [isMovable, Bool.and_eq_true, Bool.and_eq_true] at hmov
    rw [isWhole, hmov.1.1, hmov.2]
    rfl
  apart := h.apart.imp fun _ _ => keepsApart_of_standsApart
  neat us o ms c vs b hspl ho hc hlv htrm := by
    rw [hspl, passAll_append] at hs
    obtain ⟨s₁, -, hs₁⟩ := Option.bind_eq_some_iff.1 hs
    exact h.neat us o ms c vs b hspl ho hc (passAll_group hs₁ ho hc (closeWithin_of_level hlv hc)).1 htrm

namespace Steady

variable {p : Program} {owner : Option Class} {ts ts' us ms vs : List Token}

theorem run (h : Steady p owner (us ++ ms ++ vs)) : Steady p owner ms where
  whole t ht := h.whole t (by simp [ht])
  apart := h.apart.left_of_append.right_of_append
  neat us' o ms' c vs' b hspl ho hc hlv htrm := by
    refine h.neat (us ++ us') o ms' c (vs' ++ vs) b ?_ ho hc hlv (Tidy.trimsGroup_append us htrm)
    rw [hspl]
    simp

/-- The same tokens in another place. -/
theorem of_bare (h : Steady p owner ts) (heq : ts.map bare = ts'.map bare) : Steady p owner ts' where
  whole t' ht' := by
    have hmem : t'.bare ∈ ts.map bare := heq ▸ mem_map_of_mem ht'
    obtain ⟨t, ht, hb⟩ := mem_map.1 hmem
    have htt' : t.bare.isWhole = t'.bare.isWhole := by rw [hb]
    exact htt'.symm.trans (h.whole t ht)
  apart := by
    have hts : (ts.map bare).IsChain fun t u => keepsApart t u := (isChain_map bare).2 h.apart
    rw [heq] at hts
    exact (isChain_map bare).1 hts
  neat us' o' ms' c' vs' b hspl ho hc hlv htrm := by
    rw [hspl, map_append, map_cons, map_append] at heq
    obtain ⟨us, rest, rfl, hus, hr⟩ := map_eq_append_iff.1 heq
    obtain ⟨o, rest, rfl, hoo, hr⟩ := map_eq_cons_iff.1 hr
    obtain ⟨ms, rest, rfl, hms, hr⟩ := map_eq_append_iff.1 hr
    obtain ⟨c, vs, rfl, hcc, hvs⟩ := map_eq_cons_iff.1 hr
    have ho' : opened? o = some b := (congrArg opened? hoo).trans ho
    have hc' : closed? c = some b := (congrArg closed? hcc).trans hc
    rw [← level_bare, ← hms, level_bare] at hlv
    rw [← Tidy.trimsGroup_bare, ← hus, Tidy.trimsGroup_bare] at htrm
    rw [← Tidy.isNeat_bare, ← hms, Tidy.isNeat_bare]
    exact h.neat us o ms c vs b rfl ho' hc' hlv htrm

/-- Tokens that are lexed again from their own text. -/
theorem tokenize_spelling (h : Steady p owner ts) (hl : Lexed true ts) : Steady p owner (tokenize (spelling ts)) :=
  h.of_bare (Tidy.bare_tokenize hl).symm

end Steady

/-! ## Trimmed runs -/

namespace Token

variable {lineStart : Bool} {rest : Text} {c : Char} {t : Token} {ts : List Token}

/-- A token that starts with a blank is blank. -/
theorem Cut.allBlank {kind : TokenKind} {r : Text} (h : Cut lineStart rest kind (c :: r)) (hc : Text.isBlank c) :
    Text.allBlank (c :: r) := by
  rw [Text.allBlank, all_cons, hc, Bool.true_and]
  cases h with
  | space h hn =>
    obtain ⟨hall, -⟩ := takeWhile_stop hn
    rw [all_eq_true] at hall ⊢
    exact fun d hd => isBlank_of_isSpace (hall d hd)
  | line | block | directive | string | char => exact absurd hc (by decide)
  | ident h hn =>
    have := Scan.isBlank_eq_false_of_continuesIdent (continuesIdent_of_startsIdent h)
    exact absurd (hc.symm.trans this) (by decide)
  | digit h hn =>
    have := Scan.isBlank_eq_false_of_continuesIdent (continuesIdent_of_isDigit h)
    exact absurd (hc.symm.trans this) (by decide)
  | point hd hn => exact absurd hc (by decide)
  | pair h =>
    rcases h with ⟨rfl, rfl⟩ | ⟨rfl, rfl⟩ <;> exact absurd hc (by decide)
  | single => rfl

theorem isBlank_eq_false_of_continuesNumber {sign : Bool} (h : Scan.continuesNumber sign c) : Text.isBlank c = false := by
  rw [Bool.eq_false_iff]
  intro hc
  have hbreaks := Scan.breaks_of_isBlank hc
  rw [Scan.breaks, Scan.continuesNumber_true h] at hbreaks
  cases hbreaks

theorem not_isBlank_of_numberLength {hex : Bool} {prev : Char} {t : Text}
    (h : numberLength hex prev (t ++ rest) = t.length) : ∀ c ∈ t, Text.isBlank c = false := by
  induction t generalizing prev with
  | nil => exact nofun
  | cons d t ih =>
    rw [cons_append, numberLength_cons, length_cons] at h
    split at h
    · rename_i hgo
      rw [Bool.and_eq_true] at hgo
      rw [Nat.add_right_cancel_iff] at h
      intro c hc
      rcases mem_cons.1 hc with rfl | hc
      · exact isBlank_eq_false_of_continuesNumber hgo.1
      · exact ih h c hc
    · omega

theorem getLast_literalEnds {q : Char} {t : Text} (h : literalEnds q t) : t.getLast? = some q := by
  fun_induction literalEnds q t with
  | case1 => cases h
  | case2 => cases h
  | case3 c t ih =>
    have ht := ih h
    cases t with
    | nil => cases ht
    | cons d t => rw [getLast?_cons_cons]; exact ht
  | case4 t hsl =>
    rw [List.isEmpty_iff] at h
    rw [h]
    rfl
  | case5 c t hend hno hc ih =>
    have ht := ih h
    cases t with
    | nil => cases ht
    | cons d t => rw [getLast?_cons_cons]; exact ht

/-- The characters of names and numbers are not blank. -/
theorem Cut.not_isBlank_of_mem {kind : TokenKind} {text : Text} (h : Cut lineStart rest kind text)
    (hk : kind = .ident ∨ kind = .number) : ∀ c ∈ text, Text.isBlank c = false := by
  cases h with
  | ident h hn =>
    obtain ⟨hall, -⟩ := takeWhile_stop hn
    exact forall_mem_cons.2 ⟨Scan.isBlank_eq_false_of_continuesIdent (continuesIdent_of_startsIdent h),
      fun c hc => Scan.isBlank_eq_false_of_continuesIdent (all_eq_true.1 hall c hc)⟩
  | digit h hn =>
    exact forall_mem_cons.2 ⟨Scan.isBlank_eq_false_of_continuesIdent (continuesIdent_of_isDigit h),
      not_isBlank_of_numberLength hn⟩
  | @point d r hd hn => exact forall_mem_cons.2 ⟨by decide, not_isBlank_of_numberLength hn⟩
  | space | line | block | directive | string | char | pair | single => simp at hk

/-- A token that not only a line feed ends, ends with no blank. -/
theorem Cut.not_isBlank_getLast (h : Cut lineStart rest t.kind t.text) (htm : t.isTerminated)
    (hbl : t.isBlank = false) (hen : t.endsLine = false) : ∃ c, t.text.getLast? = some c ∧ Text.isBlank c = false := by
  have hla {text : Text} (hall : ∀ c ∈ text, Text.isBlank c = false) (hne : text ≠ []) :
      ∃ c, text.getLast? = some c ∧ Text.isBlank c = false :=
    ⟨_, getLast?_eq_some_getLast hne, hall _ (getLast_mem hne)⟩
  generalize hk : t.kind = kind at h
  generalize ht : t.text = text at h
  rw [isBlank, ht] at hbl
  have hcut := h
  cases h with
  | @space c r h hn =>
    have hc : Text.isBlank c := isBlank_of_isSpace (isSpace_of_startsSpace h)
    exact absurd (((Cut.space h hn : Cut lineStart rest .space (c :: r)).allBlank hc).symm.trans hbl) (by decide)
  | line hn =>
    rw [endsLine, hk, ht] at hen
    cases hen
  | @block r hn =>
    rw [isTerminated, hk, ht] at htm
    have hsuf : endsWith r "*/" := htm
    rw [endsWith, isSuffixOf_iff_suffix] at hsuf
    obtain ⟨u, rfl⟩ := hsuf
    exact ⟨'/', by simp [getLast?_cons], by decide⟩
  | directive hl hn =>
    rw [endsLine, hk] at hen
    cases hen
  | @string r hn =>
    rw [isTerminated, hk, ht] at htm
    have hq : r.getLast? = some '"' := getLast_literalEnds htm
    exact ⟨'"', by rw [getLast?_cons, hq]; rfl, by decide⟩
  | @char r hn =>
    rw [isTerminated, hk, ht] at htm
    have hq : r.getLast? = some '\'' := getLast_literalEnds htm
    exact ⟨'\'', by rw [getLast?_cons, hq]; rfl, by decide⟩
  | ident | digit | point => exact hla (hcut.not_isBlank_of_mem (by simp)) (cons_ne_nil _ _)
  | pair h =>
    rcases h with ⟨rfl, rfl⟩ | ⟨rfl, rfl⟩ <;> exact ⟨_, rfl, by decide⟩
  | @single c =>
    simpa [Text.allBlank] using hbl

theorem Lexed.cut_of_mem (h : Lexed lineStart ts) (ht : t ∈ ts) :
    ∃ lineStart' rest, Cut lineStart' rest t.kind t.text ∧ t.text ≠ [] := by
  obtain ⟨us, vs, rfl⟩ := append_of_mem ht
  exact ⟨_, _, h.append_right.cut.1, h.append_right.text_ne_nil⟩

theorem allBlank_spelling (h : ∀ t ∈ ts, t.isBlank) : Text.allBlank (spelling ts) := by
  rw [Text.allBlank, all_eq_true]
  intro c hc
  obtain ⟨t, ht, hct⟩ := mem_flatMap.1 hc
  exact all_eq_true.1 (h t ht) c hct

/-- Tokens are blank, or the first other comes after blank ones. -/
theorem blank_or_first (ts : List Token) : (∀ t ∈ ts, t.isBlank) ∨
      ∃ bs t vs, ts = bs ++ t :: vs ∧ (∀ b ∈ bs, b.isBlank) ∧ t.isBlank = false ∧ ts.find? (!·.isBlank) = some t := by
  cases h : ts.find? (!·.isBlank) with
  | none =>
    left
    intro t ht
    simpa using find?_eq_none.1 h t ht
  | some t =>
    right
    obtain ⟨ht, bs, vs, hspl, hbs⟩ := find?_eq_some_iff_append.1 h
    exact ⟨bs, t, vs, hspl, by simpa using hbs, by simpa using ht, rfl⟩

theorem trimStart_spelling {bs vs : List Token} (h : Lexed lineStart (bs ++ t :: vs)) (hbs : ∀ b ∈ bs, b.isBlank)
    (ht : t.isBlank = false) : trimStart (spelling (bs ++ t :: vs)) = spelling (t :: vs) := by
  obtain ⟨lineStart', rest, hcut, hne⟩ := h.cut_of_mem (t := t) (by simp)
  rw [spelling_append, trimStart, dropWhile_append_of_pos (all_eq_true.1 (allBlank_spelling hbs))]
  obtain ⟨c, r, hc⟩ := exists_cons_of_ne_nil hne
  have hbl : Text.isBlank c = false := by
    rw [Bool.eq_false_iff]
    intro hbl
    rw [hc] at hcut
    rw [isBlank, hc, hcut.allBlank hbl] at ht
    cases ht
  have hspl : spelling (t :: vs) = c :: (r ++ spelling vs) := by
    simp [spelling, hc]
  rw [hspl, dropWhile_cons_of_neg (by simp [hbl])]

/-- Trimmed at its end a run is a shorter run, unless a token is cut. -/
theorem trimEnd_spelling (h : Lexed lineStart ts) (htm : ∀ t ∈ ts, t.isTerminated)
    (hneat : (ts.reverse.find? (!·.isBlank)).all (!·.endsLine)) :
    ∃ us es, ts = us ++ es ∧ (∀ e ∈ es, e.isBlank) ∧ trimEnd (spelling ts) = spelling us ∧
      ∀ t, us.getLast? = some t → t.endsLine = false := by
  rcases blank_or_first ts.reverse with hbl | ⟨es, t, us, hsl, hes, ht, hf⟩
  · have hbl' : ∀ t ∈ ts, t.isBlank := fun t ht => hbl t (mem_reverse.2 ht)
    refine ⟨[], ts, rfl, hbl', ?_, nofun⟩
    rw [trimEnd_eq_nil_iff.2]
    · rfl
    · exact allBlank_spelling hbl'
  · have hts : ts = us.reverse ++ [t] ++ es.reverse := by
      rw [← reverse_reverse ts, hsl]
      simp
    rw [hf] at hneat
    have hen : t.endsLine = false := by simpa using hneat
    obtain ⟨lineStart', rest, hcut, hne⟩ := h.cut_of_mem (t := t) (by simp [hts])
    obtain ⟨c, hc, hbl⟩ := hcut.not_isBlank_getLast (htm t (by simp [hts])) ht hen
    refine ⟨us.reverse ++ [t], es.reverse, hts, fun e he => hes e (mem_reverse.1 he), ?_, ?_⟩
    · have hes' : (spelling es.reverse).all Text.isBlank :=
        allBlank_spelling fun e he => hes e (mem_reverse.1 he)
      have hl : trimEnd (spelling us.reverse ++ t.text) = spelling us.reverse ++ t.text := by
        obtain ⟨r, hr⟩ := getLast?_eq_some_iff.1 hc
        rw [hr, ← append_assoc, trimEnd_concat, hbl]
        rfl
      have hspl : spelling [t] = t.text := by simp [spelling]
      rw [hts, spelling_append, trimEnd, dropEndWhile_append, hes', spelling_append, hspl]
      exact hl
    · intro t' ht'
      rw [getLast?_append_of_ne_nil _ (cons_ne_nil t []), getLast?_singleton, Option.some.injEq] at ht'
      exact ht' ▸ hen

/-- A neat run, trimmed, is a shorter run. -/
theorem trim_spelling (h : Lexed lineStart ts) (htm : ∀ t ∈ ts, t.isTerminated)
    (hne : (ts.reverse.find? (!·.isBlank)).all (!·.endsLine)) :
    ∃ bs ms es, ts = bs ++ ms ++ es ∧ (∀ t ∈ bs ++ es, t.isBlank) ∧ trim (spelling ts) = spelling ms ∧
      (∀ t, ms.head? = some t → t.isBlank = false) ∧ ∀ t, ms.getLast? = some t → t.endsLine = false := by
  rcases blank_or_first ts with hbl | ⟨bs, t, vs, rfl, hbs, ht, -⟩
  · refine ⟨ts, [], [], by simp, by simpa using hbl, ?_, nofun, nofun⟩
    have hnil : trimStart (spelling ts) = [] :=
      dropWhile_eq_nil_iff.2 (all_eq_true.1 (allBlank_spelling hbl))
    rw [trim, hnil]
    rfl
  · have hso : ((t :: vs).reverse.find? (!·.isBlank)).isSome := by
      rw [find?_isSome]
      exact ⟨t, by simp, by simp [ht]⟩
    have hf : (bs ++ t :: vs).reverse.find? (!·.isBlank) = (t :: vs).reverse.find? (!·.isBlank) := by
      rw [reverse_append, find?_append]
      exact Option.or_of_isSome hso
    rw [hf] at hne
    obtain ⟨ms, es, hms, hes, htr, hl⟩ := trimEnd_spelling h.append_right
      (fun u hu => htm u (mem_append_right bs hu)) hne
    refine ⟨bs, ms, es, by rw [hms, append_assoc], ?_, ?_, ?_, hl⟩
    · intro u hu
      rcases mem_append.1 hu with hu | hu
      · exact hbs u hu
      · exact hes u hu
    · rw [trim, trimStart_spelling h hbs ht, htr]
    · intro u hu
      cases ms with
      | nil => cases hu
      | cons v ms =>
        cases hu
        cases hms
        exact ht

end Token

end Declass
