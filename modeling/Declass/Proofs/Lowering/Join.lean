import Declass.Proofs.Lowering.Plan
import Declass.Proofs.Token.Splice

/-!
# Texts put one after the other

After a line feed that is white space, the tokens of a text are those that it has alone (`Fragment.joined_ofText`). Every lookup on
one side of that gap is then a lookup of that side alone.
-/

namespace Declass

open List Token

namespace Token

variable {lineStart : Bool} {t : Token}

variable {ts : List Token}

/-! ## The last token of a line -/

/-- A token that ends with a line feed is white space or a directive. -/
theorem Cut.kind_of_feed {rest : Text} (h : Cut lineStart rest t.kind t.text) (htm : t.isTerminated)
    (hf : t.text.getLast? = some '\n') : t.kind = .space ∨ t.kind = .directive := by
  have hmem {text : Text} hl : '\n' ∈ text := mem_of_getLast? hl
  have hlit {q : Char} {r : Text} (he : literalEnds q r) (hq : q ≠ '\n') :
      (q :: r).getLast? ≠ some '\n' := by
    rw [getLast?_cons, getLast_literalEnds he]
    simpa using hq
  have hbl {text : Text} (hall : ∀ c ∈ text, Text.isBlank c = false) : '\n' ∉ text :=
    fun hm => absurd (hall _ hm) (by decide)
  generalize hk : t.kind = kind at h
  generalize ht : t.text = text at h hf
  rw [isTerminated, hk, ht] at htm
  have hcut := h
  cases h with
  | space => exact .inl rfl
  | directive => exact .inr rfl
  | @line r hn =>
    obtain ⟨hall, -⟩ := takeWhile_stop hn
    rcases mem_cons.1 (hmem hf) with heq | hm
    · cases heq
    · exact absurd (all_eq_true.1 hall _ hm) (by decide)
  | @block r hn =>
    have hsuf : Text.endsWith r "*/" := htm
    rw [Text.endsWith, isSuffixOf_iff_suffix] at hsuf
    obtain ⟨u, rfl⟩ := hsuf
    simp [getLast?_cons] at hf
  | string | char => exact absurd hf (hlit htm (by decide))
  | ident | digit | point => exact absurd (hmem hf) (hbl (hcut.not_isBlank_of_mem (by simp)))
  | pair h => rcases h with ⟨rfl, rfl⟩ | ⟨rfl, rfl⟩ <;> simp at hf
  | single hsp =>
    cases hf
    cases hsp

/-- White space at the end goes on into white space that follows. -/
theorem Lexed.extend {us : List Token} (h : Lexed lineStart (us ++ [t])) (htm : ∀ u ∈ us, u.isTerminated)
    (hk : t.kind = .space) {w : Text} (hw : w.all isSpace) :
    Lexed lineStart (us ++ [{ t with text := t.text ++ w }]) := by
  have hcut := h.append_right.cut.1
  obtain ⟨c, r, ht, hc, hr⟩ : ∃ c r, t.text = c :: r ∧ startsSpace c ∧ r.all isSpace := by
    rw [hk] at hcut
    generalize ht : t.text = text at hcut
    cases hcut with
    | space hc hn => exact ⟨_, _, rfl, hc, (takeWhile_stop hn).1⟩
  have hall : (r ++ w).all isSpace := by rw [all_append, hr, hw]; rfl
  have htk : ((r ++ w ++ spelling []).takeWhile isSpace).length = (r ++ w).length := by
    rw [spelling, flatMap_nil, append_nil, takeWhile_eq_self_iff.2 (all_eq_true.1 hall)]
  refine h.replace htm (.cons c (r ++ w) (by rw [ht]; rfl) ?_ (.nil _)) ?_
  · rw [hk, ← htk]
    exact .space hc
  · intro u _
    have hspl' : spelling [{ t with text := t.text ++ w }] = t.text ++ w := by simp [spelling]
    rw [hspl']
    refine yields_of_start (by simp [ht]) ?_ [] w
    intro hq
    rw [ht] at hq
    cases hq
    cases hc

theorem startsSpace_of_isSpace {c : Char} (h : isSpace c) (hform : c ≠ '\x0c') : startsSpace c := by
  simp only [isSpace, startsSpace, Bool.or_eq_true, beq_iff_eq] at h ⊢
  tauto

/-- The white space at the start of some tokens. -/
theorem Lexed.split_space {ts : List Token} (h : Lexed true ts) (hform : (spelling ts).head? ≠ some '\x0c') :
    ∃ ws zs, ts = ws ++ zs ∧ (∀ w ∈ ws, w.kind = .space) ∧ (spelling ws).all isSpace ∧ Lexed true zs ∧
      ∀ d, (spelling zs).head? = some d → isSpace d = false := by
  cases h with
  | nil => exact ⟨[], [], rfl, nofun, rfl, .nil true, nofun⟩
  | @cons _ t ts c r ht hl h =>
    by_cases hk : t.kind = .space
    · have hcut := hl.cut
      rw [hk] at hcut
      have hst : lineStartAfter true t := by simp [lineStartAfter, hk]
      rw [hst] at h
      cases hcut with
      | space hc hn =>
        obtain ⟨hall, hs⟩ := takeWhile_stop hn
        refine ⟨[t], ts, rfl, by simp [hk], ?_, h, hs⟩
        have hsp : isSpace c := isSpace_of_startsSpace hc
        simp [spelling, ht, hsp]
        simpa using hall
    · have hspl : (spelling (t :: ts)).head? = some c := by simp [spelling, ht]
      refine ⟨[], t :: ts, rfl, nofun, rfl, .cons c r ht hl h, ?_⟩
      intro d hd
      cases hspl.symm.trans hd
      rw [Bool.eq_false_iff]
      intro hsp
      have hform' : c ≠ '\x0c' := fun heq => hform (heq ▸ hspl)
      have hl' : Lexeme true c (r ++ spelling ts) .space _ := .space (startsSpace_of_isSpace hsp hform')
      exact hk (Prod.ext_iff.1 (hl.eq.symm.trans hl'.eq)).1

/-- The tokens of two texts put together, with white space between them as one. -/
theorem exists_bare_tokenize {x y : Text} (htm : ∀ t ∈ tokenize x, t.isTerminated)
    (hdir : ∀ t, (tokenize x).getLast? = some t → t.kind ≠ .directive) (hf : x.getLast? = some '\n')
    (hform : y.head? ≠ some '\x0c') :
    ∃ us t ws zs, tokenize x = us ++ [t] ∧ tokenize y = ws ++ zs ∧ t.isTrivia ∧ (∀ w ∈ ws, w.isTrivia) ∧
      (tokenize (x ++ y)).map bare = (us ++ { t with text := t.text ++ spelling ws } :: zs).map bare := by
  have hx := lexed_tokenizeFrom true 0 x
  have hspellx : spelling (tokenize x) = x := spelling_tokenize x
  have hne : tokenize x ≠ [] := by
    intro hnil
    rw [hnil] at hspellx
    rw [← hspellx] at hf
    nomatch hf
  obtain ⟨us, t, hus⟩ : ∃ us t, tokenize x = us ++ [t] := ⟨_, _, (dropLast_append_getLast hne).symm⟩
  change Lexed true (tokenize x) at hx
  rw [hus] at hx hspellx htm hdir
  have hne' := hx.append_right.text_ne_nil
  have hl : t.text.getLast? = some '\n' := by
    rw [← hspellx, spelling_append, getLast?_append_of_ne_nil _ (by simpa [spelling] using hne')] at hf
    simpa [spelling] using hf
  have hk : t.kind = .space :=
    (hx.append_right.cut.1.kind_of_feed (htm t (by simp)) hl).resolve_right (hdir t (by simp))
  obtain ⟨ws, zs, hy, hws, hwall, hzs, hh⟩ :=
    (lexed_tokenizeFrom true 0 y).split_space (by rw [spelling_tokenizeFrom]; exact hform)
  have hlex : Lexed true (us ++ [{ t with text := t.text ++ spelling ws }] ++ zs) := by
    refine (hx.extend (fun u hu => htm u (by simp [hu])) hk hwall).append ?_ ?_
    · intro u hu
      rw [getLast?_concat, Option.some.injEq] at hu
      subst hu
      refine ⟨by simp [isTerminated, hk], by simp [endsLine, hk], ?_⟩
      intro d hd
      exact .inl ⟨by simp [isTrivia, hk], hh d hd⟩
    · have hst : lineStartAfterAll true (us ++ [{ t with text := t.text ++ spelling ws }]) := by
        have hany : t.text.any (· == '\n') := any_eq_true.2 ⟨_, mem_of_getLast? hl, rfl⟩
        rw [lineStartAfterAll, foldl_append, foldl_cons, lineStartAfter, hk, any_append, hany]
        simp
      rw [hst]
      exact hzs
  refine ⟨us, t, ws, zs, hus, hy, by simp [isTrivia, hk], fun w hw => by simp [isTrivia, hws w hw], ?_⟩
  have hspl : spelling (us ++ [{ t with text := t.text ++ spelling ws }] ++ zs) = x ++ y := by
    have hspelly : spelling (ws ++ zs) = y := by rw [← hy, spelling_tokenizeFrom]
    rw [← hspellx, ← hspelly]
    simp [spelling]
  have hb := Tidy.bare_tokenize hlex
  rw [hspl, append_assoc] at hb
  exact hb

end Token

namespace Fragment

/-! ## The fragment of two texts -/

theorem gather_trivia {ws : List Token} (hws : ∀ w ∈ ws, w.isTrivia) :
    gather lead (ws ++ ts) = gather (lead ++ Token.spelling ws) ts := by
  induction ws generalizing lead with
  | nil => simp [Token.spelling]
  | cons w ws ih =>
    rw [cons_append, gather, if_pos (hws w mem_cons_self), ih fun v hv => hws v (mem_cons_of_mem w hv)]
    simp [Token.spelling]

/-- Tokens that follow others add to their last gap. -/
theorem gather_split (lead : Text) (ts : List Token) :
    ∃ gaps gap, (gather lead ts).1 = gaps ++ [gap] ∧ gaps.length = (gather lead ts).2.length ∧
      ∀ us, (gather lead (ts ++ us)).1 = gaps ++ (gather gap us).1 := by
  induction ts generalizing lead with
  | nil => exact ⟨[], lead, rfl, rfl, fun us => rfl⟩
  | cons t ts ih =>
    by_cases ht : t.isTrivia
    · obtain ⟨gaps, gap, hg, hlen, happ⟩ := ih (lead ++ t.text)
      have hgat : ∀ us, gather lead (t :: us) = gather (lead ++ t.text) us := fun us => by rw [gather, if_pos ht]
      exact ⟨gaps, gap, by rw [hgat, hg], by rw [hgat, hlen], fun us => by rw [cons_append, hgat, happ]⟩
    · obtain ⟨gaps, gap, hg, hlen, happ⟩ := ih []
      have hgat : ∀ us, gather lead (t :: us) = (lead :: (gather [] us).1, t :: (gather [] us).2) :=
        fun us => by rw [gather, if_neg ht]
      refine ⟨lead :: gaps, gap, by rw [hgat, hg]; rfl, by rw [hgat, length_cons, length_cons, hlen], ?_⟩
      intro us
      rw [cons_append, hgat, happ]
      rfl

/-- The trivia already passed are the start of the first gap. -/
theorem gather_lead (b : Text) :
    ∃ gap gaps, (gather b ts).1 = gap :: gaps ∧ ∀ a, (gather (a ++ b) ts).1 = (a ++ gap) :: gaps := by
  induction ts generalizing b with
  | nil => exact ⟨b, [], rfl, fun a => rfl⟩
  | cons t ts ih =>
    by_cases ht : t.isTrivia
    · obtain ⟨gap, gaps, hg, hle⟩ := ih (b ++ t.text)
      have hgat : ∀ c, gather c (t :: ts) = gather (c ++ t.text) ts := fun c => by rw [gather, if_pos ht]
      exact ⟨gap, gaps, by rw [hgat, hg], fun a => by rw [hgat, append_assoc, hle]⟩
    · have hgat : ∀ c, (gather c (t :: ts)).1 = c :: (gather [] ts).1 := fun c => by rw [gather, if_neg ht]
      exact ⟨b, _, hgat b, fun a => hgat (a ++ b)⟩

theorem gather_bare (lead : Text) (ts : List Token) :
    gather lead (ts.map bare) = ((gather lead ts).1, (gather lead ts).2.map bare) := by
  induction ts generalizing lead with
  | nil => rfl
  | cons t ts ih =>
    have htr : t.bare.isTrivia = t.isTrivia := rfl
    rw [map_cons, gather, gather, htr]
    split
    · exact ih _
    · rw [ih]
      rfl

/-- `F` is `F₁` followed by `F₂`, with one gap between them. -/
structure Joined (F₁ F₂ F : Fragment) : Prop where
  tokens : F.tokens.map bare = (F₁.tokens ++ F₂.tokens).map bare
  gaps : ∃ before last first after, F₁.gaps = before ++ [last] ∧ F₂.gaps = first :: after ∧
    F.gaps = before ++ (last ++ first) :: after ∧ before.length = F₁.size

theorem joined_ofText {x y : Text} (htm : ∀ t ∈ tokenize x, t.isTerminated)
    (hdir : ∀ t, (tokenize x).getLast? = some t → t.kind ≠ .directive) (hf : x.getLast? = some '\n')
    (hform : y.head? ≠ some '\x0c') : Joined (ofText x) (ofText y) (ofText (x ++ y)) := by
  obtain ⟨us, t, ws, zs, hx, hy, ht, hws, hb⟩ := exists_bare_tokenize htm hdir hf hform
  obtain ⟨before, gap, -, hlen, hbef⟩ := gather_split [] us
  obtain ⟨first, after, hfst, hle⟩ := gather_lead (Token.spelling ws)
  have ht' : isTrivia { t with text := t.text ++ Token.spelling ws } := ht
  have hgat c : (gather [] ((tokenize c).map bare)).1 = (ofText c).gaps := by rw [gather_bare]; rfl
  constructor
  · have hfil (ts : List Token) : (ts.filter (!·.isTrivia)).map bare =
        (ts.map bare).filter (!·.isTrivia) := (Tidy.filter_bare _ (fun _ => rfl)).symm
    rw [tokens_ofText, tokens_ofText, tokens_ofText, hfil, hb, ← hfil, hx, hy]
    have hno : ws.filter (!·.isTrivia) = [] := by
      rw [filter_eq_nil_iff]
      intro w hw
      simp [hws w hw]
    simp [ht, ht', hno]
  · refine ⟨before, gap ++ t.text, first, after, ?_, ?_, ?_, ?_⟩
    · have h := hbef [t]
      rw [gather, if_pos ht] at h
      rw [ofText, hx]
      exact h
    · rw [ofText, hy, gather_trivia hws]
      exact hfst
    · rw [← hgat, hb, gather_bare]
      have h := hbef ({ t with text := t.text ++ Token.spelling ws } :: zs)
      rw [gather, if_pos ht'] at h
      rw [h, ← append_assoc, hle]
    · rw [hlen, size, tokens_ofText, hx, gather_tokens]
      simp [ht]

theorem weave_bare (gaps : List Text) : weave gaps (ts.map bare) = weave gaps ts := by
  induction ts generalizing gaps with
  | nil => rfl
  | cons t ts ih =>
    cases gaps with
    | nil => rfl
    | cons gap gaps =>
      rw [map_cons, weave, ih]
      rfl

/-- Gaps and tokens of two texts put together. -/
theorem weave_append {before : List Text} {ts : List Token} (hlen : before.length = ts.length) (last first : Text)
    (after : List Text) (us : List Token) :
    weave (before ++ (last ++ first) :: after) (ts ++ us) = weave (before ++ [last]) ts ++ weave (first :: after) us := by
  induction before generalizing ts with
  | nil =>
    obtain rfl : ts = [] := length_eq_zero_iff.1 hlen.symm
    cases us with
    | nil => rfl
    | cons u us => simp [weave]
  | cons gap before ih =>
    cases ts with
    | nil => cases hlen
    | cons t ts =>
      rw [cons_append, cons_append, cons_append, weave, weave, ih (Nat.succ.inj hlen)]
      simp only [append_assoc]

theorem take_drop_append {α : Type} {xs : List α} {a b : Nat} (h : a + b ≤ xs.length) (ys : List α) :
    ((xs ++ ys).drop a).take b = (xs.drop a).take b := by
  rw [drop_append_of_le_length (by omega), take_append_of_le_length (by rw [length_drop]; omega)]

namespace Joined

variable {F₁ F₂ F : Fragment} {k i j : Nat} (h : Joined F₁ F₂ F)
include h

theorem tokens_suffix_right (k : Nat) : (F.suffix (F₁.size + k)).tokens.map bare = (F₂.suffix k).tokens.map bare := by
  rw [suffix, suffix, map_drop, h.tokens, ← map_drop, drop_append]
  rw [drop_of_length_le (by rw [size]; omega), size, Nat.add_sub_cancel_left, nil_append]

theorem tok?_left (hk : k < F₁.size) : (F.tok? k).map bare = (F₁.tok? k).map bare := by
  rw [tok?, tok?, ← getElem?_map, h.tokens, getElem?_map, getElem?_append_left hk]

theorem tok?_right (k : Nat) : (F.tok? (F₁.size + k)).map bare = (F₂.tok? k).map bare := by
  rw [tok?, tok?, ← getElem?_map, h.tokens, getElem?_map, getElem?_append_right (by rw [size]; omega), size,
    Nat.add_sub_cancel_left]

theorem gap_left (hk : k < F₁.size) : F.gap k = F₁.gap k := by
  obtain ⟨before, last, first, after, h₁, -, hF, hlen⟩ := h.gaps
  rw [gap, gap, h₁, hF, getElem?_append_left (by omega), getElem?_append_left (by omega)]

theorem gap_between : F.gap F₁.size = F₁.gap F₁.size ++ F₂.gap 0 := by
  obtain ⟨before, last, first, after, h₁, h₂, hF, hlen⟩ := h.gaps
  rw [gap, gap, gap, h₁, h₂, hF, ← hlen]
  simp

theorem gap_right (k : Nat) : F.gap (F₁.size + (k + 1)) = F₂.gap (k + 1) := by
  obtain ⟨before, last, first, after, -, h₂, hF, hlen⟩ := h.gaps
  rw [gap, gap, h₂, hF, getElem?_append_right (by omega), hlen]
  simp

theorem between_left (hij : i < j) (hj : j < F₁.size) : F.between i j = F₁.between i j := by
  obtain ⟨before, last, first, after, h₁, -, hF, hlen⟩ := h.gaps
  have hts : ((F.tokens.drop (i + 1)).take (j - i - 1)).map bare =
      ((F₁.tokens.drop (i + 1)).take (j - i - 1)).map bare := by
    rw [map_take, map_drop, h.tokens, ← map_drop, ← map_take, take_drop_append]
    rw [size] at hj
    omega
  rw [between, between, ← weave_bare, hts, weave_bare, h₁, hF, take_drop_append (by omega), take_drop_append (by omega)]

theorem between_right (i j : Nat) : F.between (F₁.size + i) (F₁.size + j) = F₂.between i j := by
  obtain ⟨before, last, first, after, -, h₂, hF, hlen⟩ := h.gaps
  have hts : (F.tokens.drop (F₁.size + i + 1)).map bare = (F₂.tokens.drop (i + 1)).map bare := by
    have hsuf := h.tokens_suffix_right (i + 1)
    exact hsuf
  have hg : F.gaps.drop (F₁.size + i + 1) = F₂.gaps.drop (i + 1) := by
    rw [hF, h₂, drop_append, drop_of_length_le (by omega), hlen, add_assoc, Nat.add_sub_cancel_left]
    rfl
  have hsub : F₁.size + j - (F₁.size + i) = j - i := Nat.add_sub_add_left ..
  rw [between, between, hg, hsub, ← weave_bare, map_take, hts, ← map_take, weave_bare]

theorem before_left (hk : k < F₁.size) : F.before k = F₁.before k := by
  obtain ⟨before, last, first, after, h₁, -, hF, hlen⟩ := h.gaps
  rw [Fragment.before, Fragment.before, h₁, hF, take_append_of_le_length (by omega),
    take_append_of_le_length (by omega), ← weave_bare, map_take, h.tokens, ← map_take, weave_bare,
    take_append_of_le_length (le_of_lt hk)]

theorem before_right (k : Nat) : F.before (F₁.size + k) = F₁.spelling ++ F₂.before k := by
  obtain ⟨before, last, first, after, h₁, h₂, hF, hlen⟩ := h.gaps
  have hg : F.gaps.take (F₁.size + k + 1) = before ++ (last ++ first) :: after.take k := by
    rw [hF, take_append, take_of_length_le (by omega), hlen, add_assoc, Nat.add_sub_cancel_left, take_succ_cons]
  have hts : (F.tokens.take (F₁.size + k)).map bare = (F₁.tokens ++ F₂.tokens.take k).map bare := by
    rw [map_take, h.tokens, ← map_take, take_append, take_of_length_le (by rw [size]; omega), size, Nat.add_sub_cancel_left]
  rw [Fragment.before, Fragment.before, hg, ← weave_bare, hts, weave_bare, weave_append hlen, spelling, h₁, h₂, take_succ_cons]

end Joined

end Fragment

end Declass
