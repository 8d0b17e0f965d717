import Declass.Proofs.Lowering.Arguments

/-!
# Arguments are read back

Arguments are cut into tokens together with their neighbours and the commas between them. Main statement: a list that is put
together from arguments is split into them (`splitArgs_join`).
-/

namespace Declass

open List

namespace Token

/-- From inside `depth` brackets the tokens close these only, with commas inside. -/
def isEnclosed : Nat → List Token → Bool
  | depth, [] => depth = 0
  | depth, t :: ts =>
    if t.isPunctOf ["(", "[", "\x7b"] then isEnclosed (depth + 1) ts
    else if t.isPunctOf [")", "]", "\x7d"] then 0 < depth && isEnclosed (depth - 1) ts
    else (!t.isPunct "," || 0 < depth) && isEnclosed depth ts

variable {depth : Nat} {ts us : List Token} {piece : Text} {pieces : List Text}

/-- Tokens that close their brackets belong to one piece. -/
theorem commaTexts_append (h : isEnclosed depth ts) (hus : commaTexts 0 us = piece :: pieces) :
    commaTexts depth (ts ++ us) = (spelling ts ++ piece) :: pieces := by
  induction ts generalizing depth with
  | nil =>
    cases of_decide_eq_true h
    exact hus
  | cons t ts ih =>
    have hcm : (depth = 0 && t.isPunct ",") = false := by
      rw [Bool.eq_false_iff]
      intro hcm
      obtain ⟨rfl, hcm⟩ : depth = 0 ∧ t.isPunct "," := by simpa using hcm
      obtain ⟨hk, ht⟩ : t.kind = .punct ∧ t.text = [','] := by simpa [isPunct] using hcm
      simp [isEnclosed, isPunctOf, isPunct, hk, ht] at h
    have hspl : spelling (t :: ts) = t.text ++ spelling ts := rfl
    rw [cons_append, commaTexts, hcm, if_neg (by decide)]
    rw [isEnclosed] at h
    split at h
    next hop => simp only [if_pos hop, ih h, hspl, append_assoc]
    next hop =>
      split at h
      next hcl => simp only [if_neg hop, if_pos hcl, ih (Bool.and_eq_true_iff.1 h).2, hspl, append_assoc]
      next hcl => simp only [if_neg hop, if_neg hcl, ih (Bool.and_eq_true_iff.1 h).2, hspl, append_assoc]

theorem commaTexts_bare : commaTexts depth (ts.map bare) = commaTexts depth ts := by
  induction ts generalizing depth with
  | nil => rfl
  | cons t ts ih =>
    simp only [map_cons, commaTexts, ih]
    rfl

end Token

open Token Text

/-- A text that can be an argument. -/
structure IsArgument (x : Text) : Prop where
  nonempty : x ≠ []
  trimmed : trim x = x
  whole : ∀ t ∈ tokenize x, t.kind ≠ .comment ∧ t.kind ≠ .directive ∧ t.isTerminated = true
  enclosed : isEnclosed 0 (tokenize x) = true

namespace IsArgument

variable {x : Text}

theorem exists_cons (h : IsArgument x) : ∃ c r, x = c :: r ∧ Text.isBlank c = false := by
  obtain ⟨c, r, rfl⟩ := exists_cons_of_ne_nil h.nonempty
  refine ⟨c, r, rfl, ?_⟩
  obtain ⟨b, -, hb⟩ := exists_dropEndWhile Text.isBlank (trimStart (c :: r))
  rw [← trimEnd, ← trim, h.trimmed] at hb
  exact isBlank_head_trimStart (by rw [hb]; rfl)

/-- An argument is cut into its tokens wherever it stands. -/
theorem lexed (h : IsArgument x) (lineStart : Bool) : Lexed lineStart (tokenize x) := by
  have hlex : Lexed true (tokenize x) := lexed_tokenizeFrom true 0 x
  have hspl : spelling (tokenize x) = x := spelling_tokenizeFrom true 0 x
  cases htok : tokenize x with
  | nil => exact .nil _
  | cons t ts =>
    rw [htok] at hlex hspl
    have hwh := h.whole t (by rw [htok]; exact mem_cons_self)
    obtain ⟨c, r, rfl, hc⟩ := h.exists_cons
    have hl := hlex
    obtain - | ⟨c', r', ht, hl, -⟩ := hl
    obtain rfl : c' = c := by
      rw [show spelling (t :: ts) = t.text ++ spelling ts from rfl, ht] at hspl
      exact (cons.inj hspl).1
    refine hlex.inline ?_ hwh.2.1 ?_ lineStart
    · rw [Bool.eq_false_iff]
      intro hst
      obtain ⟨hk, ht'⟩ : t.kind = .punct ∧ t.text = ['#'] := by simpa [isStray, isPunct] using hst
      obtain ⟨rfl, rfl⟩ := cons.inj (ht.symm.trans ht')
      exact hwh.2.1 (Prod.ext_iff.1 (hl.eq.symm.trans (Lexeme.directive rfl rfl).eq)).1
    · intro hk
      have hsp := (hlex.space_spec hk).2.1
      rw [ht, all_cons, Bool.and_eq_true] at hsp
      rw [isBlank_of_isSpace hsp.1] at hc
      cases hc

theorem endsBefore (h : IsArgument x) (rest : Text) : EndsBefore (tokenize x) (',' :: rest) := by
  intro t ht
  obtain ⟨hcm, hdir, htm⟩ := h.whole t (mem_of_getLast? ht)
  refine ⟨htm, by simp [endsLine, hcm, hdir], ?_⟩
  rintro c ⟨⟩
  exact .inr rfl

end IsArgument

variable {args : List Text}

/-- The tokens of joined arguments: theirs, with commas and spaces between them. -/
theorem exists_joined (hne : args ≠ []) (h : ∀ x ∈ args, IsArgument x) :
    ∃ zs, (∀ lineStart, Lexed lineStart zs) ∧ spelling zs = intercalate ", " args ∧ (commaTexts 0 zs).map trim = args ∧
      ∃ c r, intercalate ", " args = c :: r ∧ Text.isBlank c = false := by
  have hspell (x : Text) : spelling (tokenize x) = x := spelling_tokenizeFrom true 0 x
  induction args with
  | nil => exact absurd rfl hne
  | cons x rest ih =>
    obtain ⟨hx, h⟩ := forall_mem_cons.1 h
    cases rest with
    | nil =>
      rw [intercalate_singleton]
      refine ⟨tokenize x, hx.lexed, hspell x, ?_, hx.exists_cons⟩
      rw [← append_nil (tokenize x), commaTexts_append hx.enclosed rfl, hspell, append_nil, map_singleton, hx.trimmed]
    | cons y rest =>
      rw [intercalate_cons_cons]
      obtain ⟨zs, hlex, hspl, hsplit, c, r, hjn, hc⟩ := ih (by simp) h
      have hstop (d : Char) (hd : (spelling zs).head? = some d) : isSpace d = false := by
        rw [hspl, hjn] at hd
        cases hd
        rw [Bool.eq_false_iff]
        intro hs
        rw [isBlank_of_isSpace hs] at hc
        cases hc
      obtain ⟨piece, pieces, hpc⟩ : ∃ piece pieces, commaTexts 0 zs = piece :: pieces := by
        refine exists_cons_of_ne_nil fun hnil => ?_
        rw [hnil] at hsplit
        cases hsplit
      have hone : commaTexts 0 ([ofSpace [' ']] ++ zs) = ([' '] ++ piece) :: pieces := commaTexts_append rfl hpc
      have hcm : commaTexts 0 (ofMark [','] :: ofSpace [' '] :: zs) = [] :: ([' '] ++ piece) :: pieces :=
        congrArg _ hone
      rw [hpc, map_cons] at hsplit
      refine ⟨tokenize x ++ ofMark [','] :: ofSpace [' '] :: zs, fun lineStart => ?_, ?_, ?_, ?_⟩
      · refine (hx.lexed lineStart).append (hx.endsBefore _) ?_
        have hsp : Lexed false (ofSpace [' '] :: zs) := .space_cons (hlex _) rfl rfl hstop
        exact hsp.mark_cons rfl _
      · rw [spelling_append, hspell, append_assoc, ← hspl]
        rfl
      · rw [commaTexts_append hx.enclosed hcm, hspell, append_nil, map_cons, map_cons, hx.trimmed,
          trim_append_of_allBlank_left rfl, hsplit]
      · obtain ⟨d, s, rfl, hd⟩ := hx.exists_cons
        exact ⟨d, _, rfl, hd⟩

/-- Arguments that are put together are split again. -/
theorem splitArgs_join (args : List Text) (hne : args ≠ []) (h : ∀ x ∈ args, IsArgument x) :
    splitArgs (intercalate ", " args) = args := by
  obtain ⟨zs, hlex, hspl, hsplit, c, r, hjn, hc⟩ := exists_joined hne h
  have hbare := Tidy.bare_tokenize (hlex true)
  have hbl : allBlank (intercalate ", " args) = false := by rw [hjn, allBlank, all_cons, hc, Bool.false_and]
  rw [hspl] at hbare
  rw [splitArgs, hbl, if_neg (by decide), ← commaTexts_bare, hbare, commaTexts_bare, hsplit]

theorem splitArgs_join_call : splitArgs "f(a, b), \x7b1, ','\x7d, \"é, \", x[g(1, 2)]" =
    ["f(a, b)", "\x7b1, ','\x7d", "\"é, \"", "x[g(1, 2)]"] := by
  refine splitArgs_join ["f(a, b)", "\x7b1, ','\x7d", "\"é, \"", "x[g(1, 2)]"] (by decide) ?_
  simp only [forall_mem_cons]
  refine ⟨⟨by decide, by decide, ?_, ?_⟩, ⟨by decide, by decide, ?_, ?_⟩, ⟨by decide, by decide, ?_, ?_⟩,
    ⟨by decide, by decide, ?_, ?_⟩, by simp⟩ <;> decide +kernel

end Declass
