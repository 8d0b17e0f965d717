import Declass.Basic
import Mathlib.Data.List.DropRight

/-!
# Trimmed texts

What is left of a text without the blanks at its ends, for a text in two parts and for a text that is trimmed already.
-/

namespace Declass.Text

open List

theorem dropEndWhile_append (p : Char → Bool) (x y : Text) :
    dropEndWhile p (x ++ y) = if y.all p then dropEndWhile p x else x ++ dropEndWhile p y := by
  have hemp : (y.reverse.dropWhile p).isEmpty = y.all p := by
    rw [Bool.eq_iff_iff]
    simp
  rw [dropEndWhile, reverse_append, dropWhile_append, hemp]
  split
  · rfl
  · rw [reverse_append, reverse_reverse]
    rfl

/-- What is dropped at the end of a text. -/
theorem exists_dropEndWhile (p : Char → Bool) (t : Text) : ∃ b, b.all p ∧ t = dropEndWhile p t ++ b := by
  refine ⟨(t.reverse.takeWhile p).reverse, ?_, ?_⟩
  · rw [all_reverse]
    exact all_takeWhile
  · rw [dropEndWhile, ← reverse_append, takeWhile_append_dropWhile, reverse_reverse]

theorem exists_trimStart (t : Text) : ∃ b, allBlank b ∧ t = b ++ trimStart t :=
  ⟨t.takeWhile isBlank, all_takeWhile, takeWhile_append_dropWhile.symm⟩

variable {t : Text}

theorem isBlank_head_trimStart {c : Char} (h : (trimStart t).head? = some c) : isBlank c = false := by
  have hc := head?_dropWhile_not isBlank t
  rw [← trimStart, h] at hc
  simpa using hc

theorem trimEnd_eq_nil_iff : trimEnd t = [] ↔ allBlank t := by
  rw [trimEnd, dropEndWhile, allBlank]
  simp

theorem allBlank_append (x y : Text) : allBlank (x ++ y) = (allBlank x && allBlank y) :=
  all_append

theorem isEmpty_trim : (trim t).isEmpty = allBlank t := by
  obtain ⟨b, hb, ht⟩ := exists_trimStart t
  have hall : allBlank (b ++ trimStart t) = allBlank (trimStart t) := by rw [allBlank_append, hb, Bool.true_and]
  rw [← ht] at hall
  rw [hall, Bool.eq_iff_iff, List.isEmpty_iff, trim, trimEnd_eq_nil_iff]

theorem trim_eq_nil_iff : trim t = [] ↔ allBlank t := by
  rw [← List.isEmpty_iff, isEmpty_trim]

/-- The blanks at both ends of a text. -/
theorem exists_trim (t : Text) : ∃ b₁ b₂, allBlank b₁ ∧ allBlank b₂ ∧ t = b₁ ++ trim t ++ b₂ := by
  obtain ⟨b₁, h₁, hst⟩ := exists_trimStart t
  obtain ⟨b₂, h₂, hend⟩ := exists_dropEndWhile isBlank (trimStart t)
  refine ⟨b₁, b₂, h₁, h₂, ?_⟩
  rw [append_assoc, trim, trimEnd, ← hend]
  exact hst

theorem trimStart_append (x y : Text) : trimStart (x ++ y) = if allBlank x then trimStart y else trimStart x ++ y := by
  rw [trimStart, dropWhile_append]
  have hemp : (x.dropWhile isBlank).isEmpty = allBlank x := by
    rw [Bool.eq_iff_iff, List.isEmpty_iff, dropWhile_eq_nil_iff, allBlank, all_eq_true]
  rw [hemp]
  rfl

theorem trimEnd_append (x y : Text) : trimEnd (x ++ y) = if allBlank y then trimEnd x else x ++ trimEnd y :=
  dropEndWhile_append isBlank x y

theorem trim_append_of_allBlank_left {x y : Text} (hx : allBlank x) : trim (x ++ y) = trim y := by
  rw [trim, trimStart_append, if_pos hx, trim]

theorem trim_append_of_allBlank_right {x y : Text} (hy : allBlank y) : trim (x ++ y) = trim x := by
  rw [trim, trimStart_append]
  split
  next hx => rw [trim_eq_nil_iff.2 hx, ← trim, trim_eq_nil_iff.2 hy]
  next => rw [trimEnd_append, if_pos hy, trim]

/-- Trimmed at its end, a text keeps its first character. -/
theorem trimEnd_cons {c : Char} {x : Text} (h : allBlank (c :: x) = false) : ∃ x', trimEnd (c :: x) = c :: x' := by
  obtain ⟨b, -, hspl⟩ := exists_dropEndWhile isBlank (c :: x)
  rw [← trimEnd] at hspl
  cases hx : trimEnd (c :: x) with
  | nil =>
    rw [trimEnd_eq_nil_iff.1 hx] at h
    cases h
  | cons d x' =>
    rw [hx] at hspl
    cases hspl
    exact ⟨x', rfl⟩

theorem trimEnd_trimEnd : trimEnd (trimEnd t) = trimEnd t := by
  simp [trimEnd, dropEndWhile, dropWhile_idempotent]

theorem trimStart_trim : trimStart (trim t) = trim t := by
  cases ht : trimStart t with
  | nil =>
    rw [trim, ht]
    rfl
  | cons c r =>
    have hc : isBlank c = false := isBlank_head_trimStart (by rw [ht]; rfl)
    obtain ⟨r', hr'⟩ := trimEnd_cons (c := c) (by simp [allBlank, hc])
    rw [trim, ht, hr', trimStart, dropWhile_cons_of_neg (by simp [hc])]

theorem trim_trim : trim (trim t) = trim t := by
  rw [trim, trimStart_trim, trim, trimEnd_trimEnd]

theorem length_trim_le : (trim t).length ≤ t.length := by
  have hst : (trimStart t).length ≤ t.length := (dropWhile_suffix _).length_le
  have hend : (trim t).length ≤ (trimStart t).length := by
    have h := (dropWhile_suffix isBlank (l := (trimStart t).reverse)).length_le
    rw [length_reverse] at h
    rw [trim, trimEnd, dropEndWhile, length_reverse]
    exact h
  omega

end Declass.Text
