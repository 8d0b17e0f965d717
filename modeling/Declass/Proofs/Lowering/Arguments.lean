import Declass.Proofs.Lowering.Tidy
import Declass.Proofs.Token.Splice

/-!
# Arguments as tokens

Arguments are split, trimmed and told by their types as texts; here the same is said of their tokens. Without directives among
them, the significant tokens decide the signature that is chosen (`ArgContext.choose?_splitArgs`).
-/

namespace Declass

open List
open Text (trimEnd)

namespace Token

variable {depth : Nat}

/-- The significant tokens, wherever they stand. -/
def significant (ts : List Token) : List Token :=
  (ts.filter (!·.isTrivia)).map bare

/-- Significant tokens of lists put together. -/
theorem significant_append (ts us : List Token) : significant (ts ++ us) = significant ts ++ significant us := by
  rw [significant, filter_append, map_append]
  rfl

variable {t : Token} {ts us : List Token} {lineStart : Bool} {rest : Text}

theorem significant_cons (h : t.isTrivia = false) (ts : List Token) : significant (t :: ts) = t.bare :: significant ts := by
  rw [significant, filter_cons_of_pos (by simp [h])]
  rfl

theorem significant_cons_of_isTrivia (h : t.isTrivia) (ts : List Token) : significant (t :: ts) = significant ts := by
  rw [significant, filter_cons_of_neg (by simp [h])]
  rfl

theorem significant_eq_nil_iff : significant ts = [] ↔ ∀ t ∈ ts, t.isTrivia := by
  rw [significant]
  simp

theorem significant_bare : significant (ts.map bare) = significant ts := by
  rw [significant, Tidy.filter_bare _ fun _ => rfl, map_map]
  rfl

theorem significant_of_bare (h : ts.map bare = us.map bare) : significant ts = significant us := by
  rw [← significant_bare, h, significant_bare]

/-- Tokens that are lexed again from their own text are the same. -/
theorem significant_tokenize (h : Lexed true ts) : significant (tokenize (spelling ts)) = significant ts :=
  significant_of_bare (Tidy.bare_tokenize h)

/-- A fragment has the significant tokens of its text. -/
theorem tokens_map_bare (x : Text) : (Fragment.ofText x).tokens.map bare = significant (tokenize x) := by
  rw [Fragment.tokens_ofText]
  rfl

theorem filter_eq_nil_of_isTrivia (h : ∀ t ∈ ts, t.isTrivia) : ts.filter (!·.isTrivia) = [] := by
  rw [filter_eq_nil_iff]
  intro t ht
  rw [h t ht]
  nofun

theorem kind_ne_of_not_isTrivia (h : t.isTrivia = false) : t.kind ≠ .space ∧ t.kind ≠ .directive := by
  constructor
  · intro hk
    rw [isTrivia, hk] at h
    nomatch h
  · intro hk
    rw [isTrivia, hk] at h
    nomatch h

/-! ## Sound tokens -/

/-- The token is complete, no stray `#`, and blank only as white space. -/
def isSound (t : Token) : Bool :=
  t.isTerminated && !t.isStray && (t.isTrivia || !t.isBlank)

/-- What it is to be sound. -/
theorem isSound_iff : t.isSound ↔ t.isTerminated ∧ t.isStray = false ∧ (t.isTrivia = false → t.isBlank = false) := by
  cases h : t.isTrivia <;> simp [isSound, h, and_assoc]

/-- A name is a sound token. -/
theorem isSound_ofName {w : Text} (hw : Scan.isName w) : (ofName w).isSound := by
  refine isSound_iff.2 ⟨rfl, rfl, fun _ => ?_⟩
  cases w with
  | nil => nomatch hw
  | cons c r =>
    have hc : startsIdent c := (Bool.and_eq_true_iff.1 hw).1
    have hnot := Scan.isBlank_eq_false_of_continuesIdent (continuesIdent_of_startsIdent hc)
    simp [isBlank, ofName, Text.allBlank, hnot]

theorem isSound_bare : t.bare.isSound = t.isSound :=
  rfl

/-- A sound token is blank only as trivia. -/
theorem isTrivia_of_isBlank (h : t.isSound) (hbl : t.isBlank) : t.isTrivia := by
  by_contra hn
  rw [(isSound_iff.1 h).2.2 (by simpa using hn)] at hbl
  nomatch hbl

/-- White space takes in no significant token. -/
theorem filter_absorb (hsnd : ∀ t ∈ ts, t.isSound) (w : Text) : (absorb w ts).filter (!·.isTrivia) = ts.filter (!·.isTrivia) := by
  have hgl : (ts.takeWhile isGlue).filter (!·.isTrivia) = [] := by
    refine filter_eq_nil_iff.2 fun t ht => ?_
    have hg := mem_takeWhile_imp ht
    have htr : t.isTrivia := by
      rw [isGlue, Bool.or_eq_true, beq_iff_eq, beq_iff_eq] at hg
      rcases hg with hk | htx
      · rw [isTrivia, hk]
      · exact isTrivia_of_isBlank (hsnd t ((takeWhile_sublist isGlue).subset ht)) (by rw [isBlank, htx]; rfl)
    simp [htr]
  rw [absorb, filter_cons_of_neg (by simp [ofSpace, isTrivia])]
  conv_rhs => rw [← takeWhile_append_dropWhile (l := ts), filter_append, hgl, nil_append]

/-- White space is blank, and no other token is. -/
theorem Cut.kind_eq_space_iff (h : Cut lineStart rest t.kind t.text) (hsnd : t.isSound) : t.kind = .space ↔ t.isBlank := by
  constructor
  · intro hk
    rw [hk] at h
    generalize ht : t.text = text at h
    rw [isBlank, ht]
    cases h with
    | space hc hn =>
      exact (space hc hn : Cut lineStart rest .space _).allBlank (isBlank_of_isSpace (isSpace_of_startsSpace hc))
  · intro hbl
    have htr := isTrivia_of_isBlank hsnd hbl
    generalize hk : t.kind = kind at h
    generalize ht : t.text = text at h
    rw [isTrivia, hk] at htr
    rw [isBlank, ht] at hbl
    cases h with
    | space => rfl
    | line | block | directive => exact absurd (all_eq_true.1 hbl _ mem_cons_self) (by decide)
    | string | char | ident | digit | point | pair | single => cases htr

theorem significant_eq_nil_of_isBlank (hsnd : ∀ t ∈ ts, t.isSound) (hbl : ∀ t ∈ ts, t.isBlank) : significant ts = [] := by
  rw [significant_eq_nil_iff]
  intro t ht
  exact isTrivia_of_isBlank (hsnd t ht) (hbl t ht)

/-! ## Trimmed tokens -/

/-- Only a comment with `//` goes on to its line's end. -/
theorem Cut.startsWith_of_endsLine (h : Cut lineStart rest t.kind t.text) (hk : t.kind ≠ .directive)
    (he : t.endsLine) : t.kind = .comment ∧ ∃ r, t.text = '/' :: '/' :: r ∧ '\n' ∉ r := by
  generalize hki : t.kind = kind at h hk
  generalize ht : t.text = text at h
  rw [endsLine, hki, ht] at he
  cases h with
  | @line r hn =>
    refine ⟨rfl, r, rfl, ?_⟩
    intro hmem
    have hl : ('/' :: r).all (· ≠ '\n') := (takeWhile_stop hn).1
    exact absurd (all_eq_true.1 hl '\n' (mem_cons_of_mem _ hmem)) (by decide)
  | block => nomatch he
  | directive => exact absurd rfl hk
  | space | string | char | ident | digit | point | pair | single => nomatch he

/-- A trimmed line comment is still one. -/
theorem trimEnd_lineComment (y r : Text) : ∃ r', trimEnd (y ++ '/' :: '/' :: r) = y ++ '/' :: '/' :: r' ∧ ∀ c ∈ r', c ∈ r := by
  refine ⟨trimEnd r, ?_, ?_⟩
  · have hspl : y ++ '/' :: '/' :: r = (y ++ ['/', '/']) ++ r := by simp
    have hstay : trimEnd (y ++ ['/', '/']) = y ++ ['/', '/'] := by
      have : y ++ ['/', '/'] = (y ++ ['/']) ++ ['/'] := by simp
      rw [this, trimEnd_concat, if_neg (by decide)]
    have hnil : r.all Text.isBlank → trimEnd r = [] := Text.trimEnd_eq_nil_iff.2
    rw [hspl, trimEnd, Text.dropEndWhile_append]
    split
    · rename_i hall
      rw [hnil hall]
      exact hstay
    · simp [trimEnd]
  · intro c hc
    rw [trimEnd, Text.dropEndWhile, mem_reverse] at hc
    exact mem_reverse.1 (dropWhile_subset _ hc)

/-- A comment to the end of its line can be made shorter. -/
theorem Lexed.shorten_comment {e : Token} {r r' : Text} (h : Lexed lineStart (us ++ [e]))
    (htm : ∀ t ∈ us, t.isTerminated) (hk : e.kind = .comment) (htx : e.text = '/' :: '/' :: r)
    (hf : '\n' ∉ r') : Lexed lineStart (us ++ [{ e with text := '/' :: '/' :: r' }]) := by
  refine h.replace htm ?_ ?_
  · refine .cons '/' ('/' :: r') rfl ?_ (.nil _)
    have hlen : ('/' :: r').length = lineLength ('/' :: r' ++ spelling []) := by
      have hs : ('/' :: r').takeWhile (· ≠ '\n') = '/' :: r' := by
        rw [takeWhile_eq_self_iff]
        intro c hc
        rcases mem_cons.1 hc with rfl | hc
        · decide
        · simpa using fun h : c = '\n' => hf (h ▸ hc)
      rw [spelling, flatMap_nil, append_nil, lineLength, hs]
    rw [hk, hlen]
    exact .line rfl rfl
  · intro t _
    have hp : spelling [e] = ['/', '/'] ++ r := by simp [spelling, htx]
    have hp' : spelling [{ e with text := '/' :: '/' :: r' }] = ['/', '/'] ++ r' := by simp [spelling]
    rw [hp, hp']
    exact yields_of_start (by decide) (by decide) r r'

section

variable (h : Lexed lineStart ts) (hsnd : ∀ t ∈ ts, t.isSound) (hdir : ∀ t ∈ ts, t.kind ≠ .directive)

include h hsnd hdir

/-- Trimmed at its end, a run keeps its significant tokens. -/
theorem exists_trimEnd : ∃ us, Lexed lineStart us ∧ trimEnd (spelling ts) = spelling us ∧ significant us = significant ts ∧
      (∀ t ∈ us, t.isStray = false) ∧ ∀ t ∈ us, t.kind ≠ .directive := by
  have htm : ∀ t ∈ ts, t.isTerminated := fun t ht => (isSound_iff.1 (hsnd t ht)).1
  have hstr : ∀ t ∈ ts, t.isStray = false := fun t ht => (isSound_iff.1 (hsnd t ht)).2.1
  cases hen : (ts.reverse.find? (!·.isBlank)).all (!·.endsLine) with
  | true =>
    obtain ⟨us, es, rfl, hes, htrim, -⟩ := trimEnd_spelling h htm hen
    have hnil : significant es = [] :=
      significant_eq_nil_of_isBlank (fun e he => hsnd e (mem_append_right us he)) hes
    refine ⟨us, h.append_left, htrim, ?_, ?_, ?_⟩
    · rw [significant_append, hnil, append_nil]
    · exact fun t ht => hstr t (mem_append_left es ht)
    · exact fun t ht => hdir t (mem_append_left es ht)
  | false =>
    obtain ⟨e, hfd, he⟩ : ∃ e, ts.reverse.find? (!·.isBlank) = some e ∧ e.endsLine := by
      cases hfd : ts.reverse.find? (!·.isBlank) with
      | none => rw [hfd] at hen; cases hen
      | some e => exact ⟨e, rfl, by simpa [hfd] using hen⟩
    obtain ⟨-, es, us, hsl, hes⟩ := find?_eq_some_iff_append.1 hfd
    have hts : ts = us.reverse ++ e :: es.reverse := by
      rw [← reverse_reverse ts, hsl]
      simp
    have hesBlank : ∀ t ∈ es.reverse, t.isBlank := fun t ht => by simpa using hes t (mem_reverse.1 ht)
    generalize us.reverse = us at hts
    generalize es.reverse = es at hts hesBlank
    subst hts
    have hmem : e ∈ us ++ e :: es := mem_append_right us mem_cons_self
    obtain ⟨hk, r, htx, hf⟩ := h.append_right.cut.1.startsWith_of_endsLine (hdir e hmem) he
    obtain ⟨r', htrim, hr'⟩ := trimEnd_lineComment (spelling us) r
    have hus : Lexed lineStart (us ++ [e]) := by
      have hall : Lexed lineStart ((us ++ [e]) ++ es) := by simpa using h
      exact hall.append_left
    have htr : e.isTrivia := by rw [isTrivia, hk]
    have hsig : significant es = [] :=
      significant_eq_nil_of_isBlank (fun t ht => hsnd t (mem_append_right us (mem_cons_of_mem e ht))) hesBlank
    refine ⟨us ++ [{ e with text := '/' :: '/' :: r' }], ?_, ?_, ?_, ?_, ?_⟩
    · exact hus.shorten_comment (fun t ht => htm t (mem_append_left _ ht)) hk htx fun hn => hf (hr' _ hn)
    · have hbl : (spelling es).all Text.isBlank := allBlank_spelling hesBlank
      have hspl : spelling (us ++ e :: es) = (spelling us ++ '/' :: '/' :: r) ++ spelling es := by
        simp [spelling, htx]
      rw [hspl, trimEnd, Text.dropEndWhile_append, hbl]
      refine htrim.trans ?_
      simp [spelling]
    · have htr' : isTrivia { e with text := '/' :: '/' :: r' } := htr
      rw [significant_append, significant_append, significant_cons_of_isTrivia htr, hsig, significant_cons_of_isTrivia htr']
      rfl
    · intro t ht
      rcases mem_append.1 ht with ht | ht
      · exact hstr t (mem_append_left _ ht)
      · cases mem_singleton.1 ht
        rw [hk]
        rfl
    · intro t ht
      rcases mem_append.1 ht with ht | ht
      · exact hdir t (mem_append_left _ ht)
      · cases mem_singleton.1 ht
        rw [hk]
        decide

/-- A trimmed text has the significant tokens of the text. -/
theorem significant_trim : significant (tokenize (Text.trim (spelling ts))) = significant ts := by
  rcases blank_or_first ts with hbl | ⟨bs, t, vs, rfl, hbs, ht, -⟩
  · have hnil : Text.trimStart (spelling ts) = [] :=
      dropWhile_eq_nil_iff.2 (all_eq_true.1 (allBlank_spelling hbl))
    have hemp : trimEnd [] = [] := rfl
    rw [Text.trim, hnil, hemp, significant_eq_nil_of_isBlank hsnd hbl]
    simp [tokenize, tokenizeFrom, significant]
  · obtain ⟨us, hus, htr, hsig, hstr, hdir'⟩ := exists_trimEnd h.append_right
      (fun u hu => hsnd u (mem_append_right bs hu)) fun u hu => hdir u (mem_append_right bs hu)
    have hnil : significant bs = [] :=
      significant_eq_nil_of_isBlank (fun b hb => hsnd b (mem_append_left _ hb)) hbs
    rw [Text.trim, trimStart_spelling h hbs ht, htr, significant_tokenize (hus.anywhere hstr hdir' true), hsig,
      significant_append, hnil, nil_append]

end

/-! ## Arguments -/

/-- The tokens between the commas outside any bracket. -/
def argumentGroups : Nat → List Token → List (List Token)
  | _, [] => [[]]
  | depth, t :: ts =>
    if depth = 0 && t.isPunct "," then [] :: argumentGroups depth ts
    else
      let depth :=
        if t.isPunctOf ["(", "[", "\x7b"] then depth + 1
        else if t.isPunctOf [")", "]", "\x7d"] then depth - 1
        else depth
      match argumentGroups depth ts with
      | [] => [[t]]
      | group :: groups => (t :: group) :: groups

/-- The arguments are the texts of their groups. -/
theorem commaTexts_eq : commaTexts depth ts = (argumentGroups depth ts).map spelling := by
  induction ts generalizing depth with
  | nil => rfl
  | cons t ts ih =>
    rw [commaTexts, argumentGroups]
    split
    · rw [ih]
      rfl
    · dsimp only
      rw [ih]
      split
      · rename_i hnil
        rw [map_eq_nil_iff.1 hnil]
        simp [spelling]
      · rename_i piece pieces hc
        obtain ⟨group, groups, hgs, rfl, rfl⟩ := map_eq_cons_iff.1 hc
        rw [hgs]
        rfl

/-- The first group starts the tokens, and each is a run of them. -/
theorem exists_argumentGroups (depth : Nat) (ts : List Token) :
    ∃ group groups, argumentGroups depth ts = group :: groups ∧ group <+: ts ∧ ∀ g ∈ groups, g <:+: ts := by
  induction ts generalizing depth with
  | nil => exact ⟨[], [], rfl, nil_prefix, nofun⟩
  | cons t ts ih =>
    rw [argumentGroups]
    split
    · obtain ⟨group, groups, heq, hgrp, hgs⟩ := ih depth
      refine ⟨[], argumentGroups depth ts, rfl, nil_prefix, ?_⟩
      intro g hg
      rw [heq] at hg
      rcases mem_cons.1 hg with rfl | hg
      · exact hgrp.isInfix.trans (infix_cons infix_rfl)
      · exact (hgs g hg).trans (infix_cons infix_rfl)
    · dsimp only
      generalize (if t.isPunctOf ["(", "[", "\x7b"] then depth + 1
        else if t.isPunctOf [")", "]", "\x7d"] then depth - 1 else depth) = depth
      obtain ⟨group, groups, heq, hgrp, hgs⟩ := ih depth
      rw [heq]
      refine ⟨t :: group, groups, rfl, cons_prefix_cons.2 ⟨rfl, hgrp⟩, ?_⟩
      intro g hg
      exact (hgs g hg).trans (infix_cons infix_rfl)

/-- An argument is a run of the tokens. -/
theorem infix_of_mem_argumentGroups {depth : Nat} {g : List Token} (h : g ∈ argumentGroups depth ts) : g <:+: ts := by
  obtain ⟨group, groups, heq, hg, hgs⟩ := exists_argumentGroups depth ts
  rw [heq] at h
  rcases mem_cons.1 h with rfl | h
  · exact hg.isInfix
  · exact hgs g h

/-- The significant tokens of arguments can be taken first. -/
theorem map_significant_argumentGroups (depth : Nat) (ts : List Token) :
    (argumentGroups depth ts).map significant = argumentGroups depth (significant ts) := by
  induction ts generalizing depth with
  | nil => rfl
  | cons t ts ih =>
    cases htr : t.isTrivia with
    | true =>
      have hp p : t.isPunct p = false := by
        rw [isPunct, Bool.and_eq_false_iff, beq_eq_false_iff_ne]
        left
        intro hk
        rw [isTrivia, hk] at htr
        cases htr
      have hpun ps : t.isPunctOf ps = false := by
        rw [isPunctOf, any_eq_false]
        intro p _
        rw [hp p]
        exact Bool.false_ne_true
      rw [significant_cons_of_isTrivia htr, argumentGroups, hp, hpun, hpun, Bool.and_false, ← ih depth]
      obtain ⟨group, groups, heq, -⟩ := exists_argumentGroups depth ts
      simp only [Bool.false_eq_true, if_false, heq, map_cons, significant_cons_of_isTrivia htr]
    | false =>
      rw [significant_cons htr, argumentGroups, argumentGroups]
      have hp : t.bare.isPunct "," = t.isPunct "," := rfl
      have hpun ps : t.bare.isPunctOf ps = t.isPunctOf ps := rfl
      rw [hp, hpun, hpun]
      split
      · rw [map_cons, ih]
        rfl
      · dsimp only
        generalize (if t.isPunctOf ["(", "[", "\x7b"] then depth + 1
          else if t.isPunctOf [")", "]", "\x7d"] then depth - 1 else depth) = depth
        obtain ⟨group, groups, heq, -⟩ := exists_argumentGroups depth ts
        rw [← ih depth, heq]
        simp only [map_cons, significant_cons htr]

end Token

open Token

/-- The arguments among the significant tokens between two brackets. -/
def splitTokens (ts : List Token) : List (List Token) :=
  if ts.isEmpty then [] else argumentGroups 0 ts

namespace ArgContext

variable (C : ArgContext)

/-- The tag of the significant tokens of an argument. -/
def tokensTag? (ts : List Token) : Option Tag :=
  match ts.dropWhile (·.isPunctOf ["-", "+"]) with
  | [t] =>
    match t.kind with
    | .number => some t.numberTag
    | .char | .string => some .char
    | .ident => C.nameTag? t.text
    | _ => none
  | _ => none

/-- The signature for a call whose arguments have the tags. -/
def select? (signatures : List Callable) (tags : List (Option Tag)) : Option Callable :=
  let sameArity := signatures.filter (·.params.length = tags.length)
  let exact := sameArity.find? (fits (· == ·) tags)
  let similar := sameArity.find? (fits Tag.sameFamily tags)
  let longer := signatures.find? fun f => tags.length < f.params.length
  exact.or (similar.or (sameArity.head?.or longer))

/-- A signature is chosen by the tags of the arguments. -/
theorem choose?_eq (signatures : List Callable) (args : List Text) :
    C.choose? signatures args = select? signatures (args.map C.tag?) := by
  rw [choose?, select?, length_map]

/-- A tag depends on no offsets. -/
theorem tokensTag?_bare (ts : List Token) : C.tokensTag? (ts.map bare) = C.tokensTag? ts := by
  have hd : (ts.map bare).dropWhile (·.isPunctOf ["-", "+"]) = (ts.dropWhile (·.isPunctOf ["-", "+"])).map bare := by
    rw [dropWhile_map]
    rfl
  rw [tokensTag?, tokensTag?, hd]
  generalize ts.dropWhile (·.isPunctOf ["-", "+"]) = us
  match us with
  | [] => rfl
  | [t] => rfl
  | _ :: _ :: _ => rfl

/-- A tag depends on significant tokens only. -/
theorem tag?_eq (arg : Text) : C.tag? arg = C.tokensTag? (significant (tokenize arg)) := by
  rw [← tokens_map_bare, tokensTag?_bare]
  rfl

/-- The signature depends on significant tokens, if code is beside each comment. -/
theorem choose?_splitArgs {y : Text} (hsnd : ∀ t ∈ tokenize y, t.isSound) (hdir : ∀ t ∈ tokenize y, t.kind ≠ .directive)
    (hco : (∀ t ∈ tokenize y, t.isTrivia) → ∀ t ∈ tokenize y, t.isBlank) (signatures : List Callable) :
    C.choose? signatures (splitArgs y) = select? signatures ((splitTokens (significant (tokenize y))).map C.tokensTag?) := by
  rw [choose?_eq]
  congr 1
  rw [splitArgs, splitTokens]
  by_cases htr : ∀ t ∈ tokenize y, t.isTrivia
  · have hbl : Text.allBlank y := by
      rw [← spelling_tokenize y]
      exact allBlank_spelling (hco htr)
    rw [if_pos hbl, significant_eq_nil_iff.2 htr]
    rfl
  · have hne : (significant (tokenize y)).isEmpty = false := by
      rw [isEmpty_eq_false_iff]
      exact fun hnil => htr (significant_eq_nil_iff.1 hnil)
    have hbl : ¬Text.allBlank y := by
      intro hbl
      refine htr fun t ht => isTrivia_of_isBlank (hsnd t ht) ?_
      rw [isBlank, Text.allBlank, all_eq_true]
      intro c hc
      refine all_eq_true.1 hbl c ?_
      rw [← spelling_tokenize y]
      exact mem_flatMap.2 ⟨t, ht, hc⟩
    rw [if_neg hbl, hne, if_neg (by decide), commaTexts_eq, ← map_significant_argumentGroups, map_map, map_map, map_map]
    refine map_congr_left fun g hg => ?_
    obtain ⟨us, vs, hspl⟩ := infix_of_mem_argumentGroups hg
    have hmem : ∀ t ∈ g, t ∈ tokenize y := fun t ht => by
      rw [← hspl]
      exact mem_append_left vs (mem_append_right us ht)
    have hlex : Lexed true (tokenize y) := lexed_tokenizeFrom true 0 y
    rw [← hspl] at hlex
    simp only [Function.comp_apply]
    rw [tag?_eq, significant_trim hlex.append_left.append_right (fun t ht => hsnd t (hmem t ht))
      fun t ht => hdir t (hmem t ht)]

end ArgContext

end Declass
