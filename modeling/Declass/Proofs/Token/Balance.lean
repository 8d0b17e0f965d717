import Declass.Proofs.Token.Nesting

/-!
# Brackets that balance kind by kind

A group is closed by counting brackets of its own kind, so its tokens balance in that kind (`Fragment.bracketed_of_close?`), whatever
brackets of other kinds there are.
-/

namespace Declass

open Declass.Bracket List

namespace Token

variable {b : Bracket} {n m : Nat} {ts us : List Token}

theorem level_filter (b : Bracket) (n : Nat) (ts : List Token) : b.level n (ts.filter (!·.isTrivia)) = b.level n ts := by
  induction ts generalizing n with
  | nil => rfl
  | cons t ts ih =>
    by_cases ht : t.isTrivia
    · have hk : t.kind ≠ .punct := by
        intro hk
        simp [isTrivia, hk] at ht
      have hno : opened? t = none ∧ closed? t = none := by
        simp [opened?, closed?, isPunct, hk]
      rw [filter_cons_of_neg (by simp [ht]), level, hno.1, hno.2]
      exact ih n
    · rw [filter_cons_of_pos (by simpa using ht), level, level]
      simp only [ih]

/-- The token that closes a group, after those in the group. -/
theorem level_of_closeWithin (h : closeWithin b n ts = some m) :
    b.level n (ts.take m) = some 0 ∧ ∃ t, ts[m]? = some t ∧ closed? t = some b := by
  induction ts generalizing n m with
  | nil => nomatch h
  | cons t ts ih =>
    rw [closeWithin_cons] at h
    have hs {n' : Nat} (hn : (closeWithin b n' ts).map (· + 1) = some m)
        (hlv : ∀ us, b.level n (t :: us) = b.level n' us) :
        b.level n ((t :: ts).take m) = some 0 ∧ ∃ t', (t :: ts)[m]? = some t' ∧ closed? t' = some b := by
      obtain ⟨m', hm', rfl⟩ := Option.map_eq_some_iff.1 hn
      obtain ⟨hall, hfd⟩ := ih hm'
      refine ⟨?_, by simpa using hfd⟩
      rw [take_succ_cons, hlv]
      exact hall
    split at h
    next ho => exact hs h fun us => by rw [level, if_pos ho]
    next ho =>
      split at h
      next hc =>
        split at h
        next hn =>
          cases h
          subst hn
          exact ⟨rfl, t, rfl, hc⟩
        next hn => exact hs h fun us => by rw [level, if_neg ho, if_pos hc, if_neg hn]
      next hc => exact hs h fun us => by rw [level, if_neg ho, if_neg hc]

theorem closeWithin_append (h : closeWithin b n ts = some m) : closeWithin b n (ts ++ us) = some m := by
  obtain ⟨hlv, t, ht, hc⟩ := level_of_closeWithin h
  have hlt := (List.getElem?_eq_some_iff.1 ht).1
  have hspl : ts ++ us = ts.take m ++ t :: (ts.drop (m + 1) ++ us) := by
    conv_lhs => rw [← take_append_drop m ts, drop_eq_getElem?_toList_append, ht]
    simp
  rw [hspl, closeWithin_of_level hlv hc, length_take_of_le (Nat.le_of_lt hlt)]

/-- Where fewer groups of a kind are open, the tokens close one. -/
theorem exists_closeWithin {r : Nat} (h : b.level (n + 1 + r) ts = some m) (hm : m ≤ r) : ∃ j, closeWithin b n ts = some j := by
  induction ts generalizing n with
  | nil =>
    cases h
    omega
  | cons t ts ih =>
    rw [level] at h
    rw [closeWithin_cons]
    split
    next ho =>
      rw [if_pos ho] at h
      obtain ⟨j, hj⟩ := ih (n := n + 1) (by rw [← h]; congr 1; omega)
      exact ⟨j + 1, by rw [hj]; rfl⟩
    next ho =>
      rw [if_neg ho] at h
      split
      next hc =>
        rw [if_pos hc, if_neg (by omega)] at h
        split
        next hn => exact ⟨0, rfl⟩
        next hn =>
          obtain ⟨j, hj⟩ := ih (n := n - 1) (by rw [← h]; congr 1; omega)
          exact ⟨j + 1, by rw [hj]; rfl⟩
      next hc =>
        rw [if_neg hc] at h
        obtain ⟨j, hj⟩ := ih h
        exact ⟨j + 1, by rw [hj]; rfl⟩

end Token

namespace Fragment

open Token

variable {F : Fragment} {x : Text} {i j : Nat}

theorem close?_eq_some_iff : F.close? i = some j ↔
      ∃ b t n, F.tok? i = some t ∧ opened? t = some b ∧ closeWithin b 0 (F.tokens.drop (i + 1)) = some n ∧ n + (i + 1) = j := by
  constructor
  · intro h
    unfold close? matchingClose at h
    split at h
    · nomatch h
    · rename_i b hb
      obtain ⟨n, hn, rfl⟩ := Option.map_eq_some_iff.1 h
      obtain ⟨t, ht, htb⟩ := Option.bind_eq_some_iff.1 hb
      exact ⟨b, t, n, ht, htb, hn, rfl⟩
  · rintro ⟨b, t, n, ht, htb, hn, rfl⟩
    have hb : F.tokens[i]?.bind opened? = some b := Option.bind_eq_some_iff.2 ⟨t, ht, htb⟩
    rw [close?, matchingClose, hb]
    exact Option.map_eq_some_iff.2 ⟨n, hn, rfl⟩

theorem lt_size_of_close? (h : F.close? i = some j) : j < F.size := by
  obtain ⟨b, t, n, -, -, hn, rfl⟩ := close?_eq_some_iff.1 h
  obtain ⟨-, c, hc, -⟩ := level_of_closeWithin hn
  rw [getElem?_drop] at hc
  have hlt := (List.getElem?_eq_some_iff.1 hc).1
  rw [size]
  omega

/-- Where all groups of a kind are closed at the end, each is. -/
theorem exists_close? {b : Bracket} {t : Token} (hlv : b.level 0 F.tokens = some 0) (ht : F.tok? i = some t)
    (ho : opened? t = some b) : ∃ j, F.close? i = some j := by
  have hspl : F.tokens = F.tokens.take i ++ t :: F.tokens.drop (i + 1) := by
    conv_lhs => rw [← take_append_drop i F.tokens, drop_eq_getElem?_toList_append]
    rw [tok?] at ht
    rw [ht]
    rfl
  rw [hspl, level_append] at hlv
  obtain ⟨m, -, hm⟩ := Option.bind_eq_some_iff.1 hlv
  rw [level, if_pos ho, Nat.add_comm] at hm
  obtain ⟨n, hn⟩ := exists_closeWithin hm (Nat.zero_le m)
  exact ⟨_, close?_eq_some_iff.2 ⟨b, t, n, ht, ho, hn, rfl⟩⟩

/-- A parenthesis or a brace opens a group that is no square bracket. -/
theorem exists_opening {F : Fragment} {k : Nat} (h : F.isPunct k "(" ∨ F.isPunct k "\x7b") :
    ∃ b : Bracket, b ≠ .square ∧ F.isPunct k b.opening :=
  h.elim (⟨.round, by decide, ·⟩) (⟨.curly, by decide, ·⟩)

/-- The group opened at a position, whatever other brackets stand in it. -/
structure Bracketed (x : Text) (i j : Nat) where
  before : List Token
  opener : Token
  inside : List Token
  closer : Token
  after : List Token
  bracket : Bracket
  split : tokenize x = before ++ opener :: (inside ++ closer :: after)
  opened : opened? opener = some bracket
  closed : closed? closer = some bracket
  level : bracket.level 0 inside = some 0
  first : (before.filter (!·.isTrivia)).length = i
  last : i + 1 + (inside.filter (!·.isTrivia)).length = j
  significant : opener.isTrivia = false ∧ closer.isTrivia = false

theorem Bracketed.between (g : Bracketed x i j) : (ofText x).between i j = Token.spelling g.inside := by
  have h := between_eq g.split g.significant.1 g.significant.2
  rw [g.first, g.last] at h
  exact h

theorem bracketed_of_close? (h : (ofText x).close? i = some j) : Nonempty (Bracketed x i j) := by
  obtain ⟨b, o, n, ho, hob, hn, rfl⟩ := close?_eq_some_iff.1 h
  rw [tok?, tokens_ofText] at ho
  rw [tokens_ofText] at hn
  obtain ⟨us, rest, hspl, hlen, hsig⟩ := split_at (tokenize x) ho
  have hd : ((tokenize x).filter (!·.isTrivia)).drop (i + 1) = rest.filter (!·.isTrivia) := by
    rw [hspl, filter_append, filter_cons_of_pos (by simp [hsig]), ← hlen]
    simp
  rw [hd] at hn
  obtain ⟨hlv, c, hc, hcl⟩ := level_of_closeWithin hn
  obtain ⟨ms, vs, hr, hms, hcsig⟩ := split_at rest hc
  have htk : (rest.filter (!·.isTrivia)).take n = ms.filter (!·.isTrivia) := by
    rw [hr, filter_append, ← hms, take_left]
  rw [htk, level_filter] at hlv
  exact ⟨us, o, ms, c, vs, b, by rw [hspl, hr], hob, hcl, hlv, hlen, by omega, hsig, hcsig⟩

namespace Bracketed

variable (g : Bracketed x i j)

theorem take_before : (ofText x).tokens.take i = g.before.filter (!·.isTrivia) := by
  rw [tokens_ofText, g.split, filter_append]
  exact take_left' g.first

theorem getElem?_middle {ts us : List Token} {t : Token} {n : Nat} (h : ts.length = n) : (ts ++ t :: us)[n]? = some t := by
  subst h
  simp

theorem exists_head_closer : ∃ d, g.closer.text.head? = some d ∧ d ≠ '\n' := by
  have htx : g.closer.text = g.bracket.closing := (Token.isPunct_iff.1 (closed?_eq_some_iff.1 g.closed)).2
  rw [htx]
  cases g.bracket
  · exact ⟨')', rfl, by decide⟩
  · exact ⟨'\x7d', rfl, by decide⟩
  · exact ⟨']', rfl, by decide⟩

theorem tok?_first : (ofText x).tok? i = some g.opener := by
  rw [tok?, tokens_ofText, g.split, filter_append, filter_cons_of_pos (by simp [g.significant.1])]
  exact getElem?_middle g.first

theorem tok?_last : (ofText x).tok? j = some g.closer := by
  have hspl : tokenize x = (g.before ++ g.opener :: g.inside) ++ g.closer :: g.after := by rw [g.split]; simp
  have hlen : ((g.before ++ g.opener :: g.inside).filter (!·.isTrivia)).length = j := by
    have hl := g.last
    rw [filter_append, filter_cons_of_pos (by simp [g.significant.1]), length_append, length_cons, g.first]
    omega
  rw [tok?, tokens_ofText, hspl, filter_append, filter_cons_of_pos (by simp [g.significant.2])]
  exact getElem?_middle hlen

theorem lexed_inside : Lexed false (g.inside ++ g.closer :: g.after) := by
  have hlex : Lexed true ((g.before ++ [g.opener]) ++ (g.inside ++ g.closer :: g.after)) := by
    have := lexed_tokenizeFrom true 0 x
    rw [← tokenize, g.split] at this
    simpa using this
  have hrt := hlex.append_right
  have hfalse : lineStartAfterAll true (g.before ++ [g.opener]) = false := by
    have hk : g.opener.kind ≠ .space := by
      intro hk
      have := g.significant.1
      simp [isTrivia, hk] at this
    simp [lineStartAfterAll, lineStartAfter, hk]
  rw [hfalse] at hrt
  exact hrt

include g in
/-- What stands in a group is shorter than the text that holds it. -/
theorem length_between_lt : ((ofText x).between i j).length < x.length := by
  have hlex : Lexed true (g.before ++ g.opener :: (g.inside ++ g.closer :: g.after)) :=
    g.split ▸ lexed_tokenizeFrom true 0 x
  have hpos := length_pos_of_ne_nil hlex.append_right.text_ne_nil
  have hx := congrArg List.length (spelling_tokenize x)
  rw [g.split] at hx
  simp only [Token.spelling, flatMap_append, flatMap_cons, length_append] at hx
  rw [g.between, Token.spelling]
  omega

end Bracketed

/-! ## Positions of a text -/

section

variable {k : Nat} {t : Token}

theorem weave_take_succ {gaps : List Text} {ts : List Token} (ht : ts[k]? = some t) (hlen : k + 1 < gaps.length) :
    weave (gaps.take (k + 2)) (ts.take (k + 1)) = weave (gaps.take (k + 1)) (ts.take k) ++ t.text ++ (gaps[k + 1]?.getD []) := by
  induction k generalizing gaps ts with
  | zero =>
    rcases gaps with - | ⟨gap, - | ⟨gap', gaps⟩⟩
    · simp at hlen
    · simp at hlen
    · cases ts with
      | nil => cases ht
      | cons u ts =>
        cases ht
        simp [weave]
  | succ k ih =>
    rcases gaps with - | ⟨gap, gaps⟩
    · simp at hlen
    · cases ts with
      | nil => cases ht
      | cons u ts =>
        have hlen' : k + 1 < gaps.length := Nat.lt_of_succ_lt_succ hlen
        have := ih ht hlen'
        simp only [take_succ_cons, weave] at this ⊢
        rw [this]
        simp

theorem length_gaps (x : Text) : (ofText x).gaps.length = (ofText x).tokens.length + 1 :=
  length_gather_gaps [] (tokenize x)

/-- The text before a position is that before the last, its token, and the gap. -/
theorem before_succ {x : Text} (ht : (ofText x).tok? k = some t) :
    (ofText x).before (k + 1) = (ofText x).before k ++ t.text ++ (ofText x).gap (k + 1) := by
  have hlt := lt_size_of_tok? ht
  refine weave_take_succ ht ?_
  rw [length_gaps]
  unfold size at hlt
  omega

theorem before_size (x : Text) : (ofText x).before (ofText x).size = x := by
  have hlen := length_gaps x
  rw [before, take_of_length_le (by unfold size; omega), take_of_length_le (by unfold size; omega)]
  exact spelling_ofText x

theorem mem_tokenize_of_tok? (h : (ofText x).tok? k = some t) : t ∈ tokenize x := by
  rw [tok?, tokens_ofText] at h
  exact mem_of_mem_filter (mem_of_getElem? h)

theorem text_ne_nil_of_tok? (ht : (ofText x).tok? k = some t) : t.text ≠ [] := by
  rw [tok?, tokens_ofText] at ht
  obtain ⟨us, vs, hspl, -, -⟩ := split_at _ ht
  have hlex : Lexed true (us ++ t :: vs) := hspl ▸ lexed_tokenizeFrom true 0 x
  exact hlex.append_right.text_ne_nil

/-- Before each position stands a part of the text. -/
theorem exists_before (h : k ≤ (ofText x).size) :
    ∃ rest, x = (ofText x).before k ++ rest ∧ ∀ t, (ofText x).tok? k = some t → ∃ rest', rest = t.text ++ rest' := by
  rcases Nat.lt_or_eq_of_le h with hlt | rfl
  · obtain ⟨t, ht⟩ : ∃ t, (ofText x).tok? k = some t := ⟨_, getElem?_eq_getElem hlt⟩
    have ht' := ht
    rw [tok?, tokens_ofText] at ht'
    obtain ⟨us, vs, hspl, rfl, hsig⟩ := split_at _ ht'
    refine ⟨Token.spelling (t :: vs), ?_, ?_⟩
    · rw [before_eq hspl hsig, ← spelling_append, ← hspl, spelling_tokenize]
    · intro t' ht'
      cases ht.symm.trans ht'
      exact ⟨Token.spelling vs, rfl⟩
  · refine ⟨[], by rw [before_size, append_nil], ?_⟩
    intro t ht
    exact absurd (lt_size_of_tok? ht) (Nat.lt_irrefl _)

end

end Fragment

end Declass
