import Declass.Proofs.Outline.Cursor

/-!
# Parameter lists

Up to the next outer comma the tokens are those of one parameter (`commaGroups_param`), and each parameter is read as if it stood
alone (`listOfTokens_joinParams`).
-/

namespace Declass.Grammar

variable (n : Nat) (ts : List Token)

open Declass.Bracket List Token

/-! ## The place of a token does not matter -/

theorem joined_shift : joined (ts.map (shift n)) = joined ts := by
  fun_induction joined ts with
  | case1 => rfl
  | case2 t => rfl
  | case3 t u ts gap ih =>
    simp only [map_cons] at ih ⊢
    rw [joined, ih]
    rfl

variable {p : Token → Bool} {us group : List Token} {groups : List (List Token)}

theorem takeWhile_shift (hp : ∀ t, p (shift n t) = p t) (ts : List Token) :
    (ts.map (shift n)).takeWhile p = (ts.takeWhile p).map (shift n) := by
  rw [takeWhile_map]
  congr 2
  exact funext hp

theorem dropWhile_shift (hp : ∀ t, p (shift n t) = p t) (ts : List Token) :
    (ts.map (shift n)).dropWhile p = (ts.dropWhile p).map (shift n) := by
  rw [dropWhile_map]
  congr 2
  exact funext hp

theorem ofTokens_shift : WrittenParam.ofTokens (ts.map (shift n)) = WrittenParam.ofTokens ts := by
  unfold WrittenParam.ofTokens
  dsimp only
  rw [takeWhile_shift n fun t => rfl,
    dropWhile_shift n fun t => rfl, ← map_reverse, joined_shift]
  generalize (ts.takeWhile fun t => !t.isPunct "[").reverse = us
  match us with
  | [] => rfl
  | [t] => rfl
  | t :: u :: us =>
    have hjoin dims : joined ((shift n u :: us.map (shift n)).reverse ++ dims.map (shift n)) =
        joined ((u :: us).reverse ++ dims) := by
      rw [← joined_shift n ((u :: us).reverse ++ dims)]
      simp
    simp only [map_cons, hjoin]
    rfl

theorem declared?_shift : declared? (ts.map (shift n)) = declared? ts := by
  unfold declared?
  rw [takeWhile_shift n fun t => rfl]
  generalize ts.takeWhile (fun t => !t.isPunct "=") = us
  match us with
  | [] => rfl
  | [t] =>
    have hone := ofTokens_shift n [t]
    rw [map_singleton] at hone ⊢
    simp only [hone]
    rfl
  | t :: u :: us =>
    have hm := ofTokens_shift n (t :: u :: us)
    simp only [map_cons] at hm ⊢
    rw [hm]

/-! ## Outer commas -/

theorem isPunctOf_openings {t : Token} (h : t.isPunctOf ["<", ">"] = false) :
    t.isPunctOf ["(", "[", "\x7b", "<"] = (opened? t).isSome := by
  have hang : t.isPunct "<" = false := by simp_all [isPunctOf]
  rw [opened?, isSome_find?]
  simp only [isPunctOf, any_cons, any_nil, Bool.or_false, opening, hang]
  rw [Bool.or_comm (t.isPunct "[")]

theorem isPunctOf_closings {t : Token} (h : t.isPunctOf ["<", ">"] = false) :
    t.isPunctOf [")", "]", "\x7d", ">"] = (closed? t).isSome := by
  have hang : t.isPunct ">" = false := by simp_all [isPunctOf]
  rw [closed?, isSome_find?]
  simp only [isPunctOf, any_cons, any_nil, Bool.or_false, closing, hang]
  rw [Bool.or_comm (t.isPunct "]")]

/-- Up to the next outer comma the tokens are one group. -/
theorem commaGroups_append {s : List Bracket} {ts : List Token} (hps : passAll s ts = some [])
    (hcom : hasOuterComma s ts = false) (hangles : ts.any (·.isPunctOf ["<", ">"]) = false)
    (hus : commaGroups 0 us = group :: groups) : commaGroups s.length (ts ++ us) = (ts ++ group) :: groups := by
  induction ts generalizing s with
  | nil =>
    cases hps
    exact hus
  | cons t ts ih =>
    obtain ⟨s₁, hp, hps⟩ := Option.bind_eq_some_iff.1 hps
    rw [hasOuterComma, hp, Bool.or_eq_false_iff] at hcom
    rw [any_cons, Bool.or_eq_false_iff] at hangles
    have hr := ih hps hcom.2 hangles.2
    have hout : ¬(decide (s.length = 0) && t.isPunct ",") := by
      simpa using hcom.1
    have hdep : (if t.isPunctOf ["(", "[", "\x7b", "<"] then s.length + 1
        else if t.isPunctOf [")", "]", "\x7d", ">"] then s.length - 1 else s.length) = s₁.length := by
      rw [isPunctOf_openings hangles.1, isPunctOf_closings hangles.1]
      cases ho : opened? t with
      | some b =>
        rw [pass_of_opened? ho] at hp
        cases hp
        rfl
      | none =>
        cases hc : closed? t with
        | none =>
          rw [pass_of_none ho hc] at hp
          cases hp
          rfl
        | some b =>
          rw [pass_of_closed? hc] at hp
          cases s with
          | nil => nomatch hp
          | cons b' s =>
            rw [close] at hp
            split at hp
            · cases hp
              rfl
            · cases hp
    rw [cons_append, commaGroups, if_neg hout]
    dsimp only
    rw [hdep, hr]
    rfl

/-! ## The list -/

theorem passAll_shift (s : List Bracket) (ts : List Token) : passAll s (ts.map (shift n)) = passAll s ts := by
  induction ts generalizing s with
  | nil => rfl
  | cons t ts ih =>
    have hps : pass s (shift n t) = pass s t := rfl
    simp only [map_cons, passAll, hps, ih]

theorem hasOuterComma_shift (s : List Bracket) (ts : List Token) : hasOuterComma s (ts.map (shift n)) = hasOuterComma s ts := by
  induction ts generalizing s with
  | nil => rfl
  | cons t ts ih =>
    have hps : pass s (shift n t) = pass s t := rfl
    have hcom : (shift n t).isPunct "," = t.isPunct "," := rfl
    simp only [map_cons, hasOuterComma, hps, hcom, ih]

theorem Param.endsBefore (p : Param) (offset : Nat) {c : Char} (hc : divides c) (rest : Text) :
    EndsBefore (tokenizeFrom false offset p.text) (c :: rest) :=
  endsBefore_of_isClosed p.closed offset fun _ _ d hd => .inr (by cases hd; exact hc)

theorem joinParams_nil : joinParams [] = [] := rfl

theorem joinParams_singleton (p : Param) : joinParams [p] = p.text := intercalate_singleton

/-- The tokens of the first parameter, a comma, and the others'. -/
theorem tokenizeFrom_joinParams (p q : Param) (ps : List Param) (offset : Nat) :
    ∃ at₁ at₂, tokenizeFrom false offset (joinParams (p :: q :: ps)) =
      tokenizeFrom false offset p.text ++ ⟨.punct, ",", at₁⟩ :: tokenizeFrom false at₂ (joinParams (q :: ps)) := by
  have htx : joinParams (p :: q :: ps) = p.text ++ ',' :: joinParams (q :: ps) := by
    simp [joinParams]
  have hm lineStart offset :=
    tokenizeFrom_mark (c := ',') rfl (joinParams (q :: ps)) (fun h => nomatch h) lineStart offset
  rw [htx, tokenizeFrom_append (p.endsBefore offset rfl _), hm]
  exact ⟨_, _, rfl⟩

theorem commaGroups_param (p : Param) (offset : Nat) (hus : commaGroups 0 us = group :: groups) :
    commaGroups 0 ((significant p.text).map (shift offset) ++ us) =
      ((significant p.text).map (shift offset) ++ group) :: groups := by
  refine commaGroups_append (s := []) ?_ ?_ ?_ hus
  · rw [passAll_shift]
    exact p.nested
  · rw [hasOuterComma_shift, p.noComma]
  · rw [any_map]
    exact p.noAngles

theorem listOfTokens_eq : WrittenParam.listOfTokens ts = (commaGroups 0 ts).filterMap declared? := rfl

/-- The parameters of the list are those that its parts declare alone. -/
theorem listOfTokens_joinParams (ps : List Param) (offset : Nat) :
    WrittenParam.listOfTokens ((tokenizeFrom false offset (joinParams ps)).filter (!·.isTrivia)) =
      ps.filterMap Param.written? := by
  match ps with
  | [] =>
    rw [joinParams_nil, tokenizeFrom]
    rfl
  | [p] =>
    have hnil : commaGroups 0 [] = [[]] := rfl
    have hone := commaGroups_param p offset hnil
    rw [append_nil] at hone
    rw [joinParams_singleton, filter_tokenizeFrom, listOfTokens_eq, hone]
    simp [filterMap_cons, declared?_shift, Param.written?]
  | p :: q :: ps =>
    obtain ⟨at₁, at₂, hts⟩ := tokenizeFrom_joinParams p q ps offset
    have ih := listOfTokens_joinParams (q :: ps) at₂
    have hcom (us : List Token) : commaGroups 0 (⟨.punct, ",", at₁⟩ :: us) = [] :: commaGroups 0 us := by
      simp [commaGroups, isPunct]
    rw [listOfTokens_eq] at ih
    rw [hts, filter_append, filter_cons_of_pos rfl, filter_tokenizeFrom, listOfTokens_eq,
      commaGroups_param p offset (hcom _), append_nil, filterMap_cons, ih, declared?_shift, ← Param.written?]
    exact filterMap_cons.symm

/-- The list can stand between parentheses. -/
theorem level_joinParams (ps : List Param) (offset : Nat) :
    round.level 0 ((tokenizeFrom false offset (joinParams ps)).filter (!·.isTrivia)) = some 0 := by
  have hpar (p : Param) (offset : Nat) :
      round.level 0 ((tokenizeFrom false offset p.text).filter (!·.isTrivia)) = some 0 := by
    rw [filter_tokenizeFrom, level_shift]
    exact level_of_passAll p.nested
  match ps with
  | [] =>
    rw [joinParams_nil, tokenizeFrom]
    rfl
  | [p] => rw [joinParams_singleton, hpar]
  | p :: q :: ps =>
    obtain ⟨at₁, at₂, hts⟩ := tokenizeFrom_joinParams p q ps offset
    rw [hts, filter_append, level_append, hpar]
    exact level_joinParams (q :: ps) at₂

theorem isClosed_shift : isClosed (ts.map (shift n)) = isClosed ts := by
  rw [isClosed, getLast?_map, Option.all_map]
  rfl

theorem isClosed_joinParams (ps : List Param) (offset : Nat) : isClosed (tokenizeFrom false offset (joinParams ps)) := by
  match ps with
  | [] =>
    rw [joinParams_nil, tokenizeFrom]
    rfl
  | [p] =>
    have hsh := tokenizeFrom_shift false 0 offset p.text
    rw [Nat.zero_add] at hsh
    rw [joinParams_singleton, hsh, isClosed_shift, p.closed]
  | p :: q :: ps =>
    obtain ⟨at₁, at₂, hts⟩ := tokenizeFrom_joinParams p q ps offset
    have ih := isClosed_joinParams (q :: ps) at₂
    rw [hts, isClosed, getLast?_append_cons]
    cases hus : tokenizeFrom false at₂ (joinParams (q :: ps)) with
    | nil => rfl
    | cons u us =>
      rwa [hus] at ih

/-- The parameters as a text between parentheses. -/
def Head.inner (h : Head) : Inner .round where
  text := joinParams h.params
  balanced := level_joinParams h.params 0
  closed := isClosed_joinParams h.params 0

end Declass.Grammar
