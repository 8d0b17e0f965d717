import Declass.Dump.Line

/-!
# Lines with colours

Escape sequences switch the colours of a line. Main statement: without them it is the line that was coloured, and no escape
character is left of any line (`DumpLine.withoutColours_spec`).
-/

namespace Declass.DumpLine

open List

/-- The second text is the first one, with escape sequences at any places. -/
inductive Coloured : Text → Text → Prop where
  | nil : Coloured [] []
  | char {line shown : Text} (c : Char) : Coloured line shown → Coloured (c :: line) (c :: shown)
  | switch {line shown : Text} (codes : Text) (letter : Char) (hcodes : codes.all (!·.isAlpha) = true)
      (hletter : letter.isAlpha = true) :
      Coloured line shown → Coloured line ('\x1b' :: '[' :: (codes ++ letter :: shown))

variable {line shown codes : Text} {c letter : Char}

theorem withoutColours_cons (h : c ≠ '\x1b') (t : Text) : withoutColours (c :: t) = c :: withoutColours t := by
  rw [withoutColours]
  exact h

/-- A sequence goes on up to its letter. -/
theorem sequence_append (hcodes : codes.all (!·.isAlpha)) (hletter : letter.isAlpha) (t : Text) :
    withoutColours.sequence (codes ++ letter :: t) = withoutColours t := by
  induction codes with
  | nil => rw [nil_append, withoutColours.sequence, if_pos hletter]
  | cons c codes ih =>
    rw [all_cons, Bool.and_eq_true, Bool.not_eq_true'] at hcodes
    rw [cons_append, withoutColours.sequence, hcodes.1, if_neg Bool.false_ne_true, ih hcodes.2]

theorem Coloured.withoutColours_eq (h : Coloured line shown) (hline : '\x1b' ∉ line) : withoutColours shown = line := by
  induction h with
  | nil => rfl
  | char c _ ih =>
    rw [mem_cons, not_or] at hline
    rw [withoutColours_cons (.symm hline.1), ih hline.2]
  | switch codes letter hcodes hletter _ ih =>
    rw [withoutColours, withoutColours.escape, sequence_append hcodes hletter, ih hline]

/-- What is left has no escape character, wherever reading starts. -/
theorem escape_not_mem (t : Text) : '\x1b' ∉ withoutColours t ∧ '\x1b' ∉ withoutColours.escape t ∧
    '\x1b' ∉ withoutColours.sequence t := by
  induction t with
  | nil => exact ⟨not_mem_nil, not_mem_nil, not_mem_nil⟩
  | cons c t ih =>
    obtain ⟨hline, hescape, hsequence⟩ := ih
    refine ⟨?_, ?_, ?_⟩
    · by_cases hc : c = '\x1b'
      · rw [hc]
        exact hescape
      · rw [withoutColours_cons hc]
        exact not_mem_cons_of_ne_of_not_mem (.symm hc) hline
    · unfold withoutColours.escape
      split
      next heq =>
        cases heq
        exact hsequence
      next heq =>
        cases heq
        exact hescape
      next hc heq =>
        cases heq
        exact not_mem_cons_of_ne_of_not_mem (.symm hc) hline
      next heq => cases heq
    · rw [withoutColours.sequence]
      split
      · exact hline
      · exact hsequence

/-- A line without escape characters is read as it is, however it is coloured; and no escape character is left of any line. -/
theorem withoutColours_spec (line shown : Text) :
    ('\x1b' ∉ line → Coloured line shown → withoutColours shown = line) ∧ '\x1b' ∉ withoutColours shown :=
  ⟨fun hline h => h.withoutColours_eq hline, (escape_not_mem shown).1⟩

theorem withoutColours_spec_kind : withoutColours "\x1b[0;32mEnumDecl\x1b[0m\x1b[33m" = "EnumDecl" := by
  refine (withoutColours_spec "EnumDecl" _).1 (by decide) ?_
  exact .switch "0;32" 'm' rfl rfl <| .char _ <| .char _ <| .char _ <| .char _ <| .char _ <| .char _ <| .char _ <|
    .char _ <| .switch "0" 'm' rfl rfl <| .switch "33" 'm' rfl rfl .nil

end Declass.DumpLine
