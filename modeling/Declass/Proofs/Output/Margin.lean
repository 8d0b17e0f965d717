import Declass.Output.Document
import Declass.Proofs.Text.Trim
import Mathlib.Order.Bounds.Basic

/-!
# The layout of a body at its new margin

The lines of a body at the left margin are its lines, trimmed, without the blank ones at both ends. A line after the first
keeps its distance from the least indented of them, and the first starts at column zero (`reindent_layout`).
-/

namespace Declass

open List Text

namespace Indent

variable {line : Text} {ls : List Text}

/-! ## Lines -/

/-- The text of a line after `n` spaces, nothing for a blank one. -/
def placed (n : Nat) (line : Text) : Text :=
  if allBlank line then [] else replicate n ' ' ++ trim line

theorem placed_zero : placed 0 line = trim line := by
  unfold placed
  split
  next hb => rw [trim_eq_nil_iff.2 hb]
  · rfl

theorem placed_eq_nil (h : allBlank line) (n : Nat) : placed n line = [] :=
  if_pos h

theorem trim_placed (n : Nat) (line : Text) : trim (placed n line) = trim line := by
  unfold placed
  split
  next hb => rw [trim_eq_nil_iff.2 hb, trim_eq_nil_iff.2 rfl]
  · have hblanks : allBlank (replicate n ' ') := by simp [allBlank, isBlank]
    rw [trim_append_of_allBlank_left hblanks, trim_trim]

/-- A line that is not blank: indentation, text, and blanks. -/
theorem trimEnd_eq_append (h : allBlank line = false) : trimEnd line = line.takeWhile isBlank ++ trim line := by
  have hspl : line = line.takeWhile isBlank ++ trimStart line := takeWhile_append_dropWhile.symm
  have hst : allBlank (trimStart line) = false := by
    rwa [hspl, allBlank_append, allBlank, all_takeWhile] at h
  conv_lhs => rw [hspl]
  rw [trimEnd_append, hst, if_neg Bool.false_ne_true, trim]

theorem takeWhile_trimEnd (h : allBlank line = false) : (trimEnd line).takeWhile isBlank = line.takeWhile isBlank := by
  have htrim : (trim line).takeWhile isBlank = [] := by
    have hspl := takeWhile_append_dropWhile (p := isBlank) (l := trim line)
    rw [← trimStart, trimStart_trim] at hspl
    exact append_left_eq_self.1 hspl
  rw [trimEnd_eq_append h, takeWhile_append_of_pos fun c hc => all_eq_true.1 all_takeWhile c hc, htrim, append_nil]

theorem moveLeft_trimEnd (n : Nat) (line : Text) : moveLeft n (trimEnd line) = placed (depth line - n) line := by
  cases hb : allBlank line with
  | true =>
    rw [trimEnd_eq_nil_iff.2 hb, placed_eq_nil hb]
    rfl
  | false =>
    have htext : trimStart (trimEnd line) = trim line := by
      rw [trimEnd_eq_append hb, trimStart_append, allBlank, all_takeWhile, if_pos rfl, trimStart_trim]
    simp [moveLeft, placed, depth, htext, takeWhile_trimEnd hb, trim_eq_nil_iff]

/-! ## The margin -/

/-- The column where a line's text starts. A tab counts four. -/
def startColumn (line : Text) : Nat :=
  4 * (line.takeWhile isBlank).count '\t' + (line.takeWhile isBlank).countP (· ≠ '\t')

theorem columns_eq (t : Text) : columns t = 4 * t.count '\t' + t.countP (· ≠ '\t') := by
  induction t with
  | nil => rfl
  | cons c t ih =>
    rw [columns, foldr_cons, ← columns, ih, count_cons, countP_cons]
    by_cases hc : c = '\t'
    · simp only [hc, if_pos, beq_self_eq_true, ne_eq, not_true_eq_false, decide_false, Bool.false_eq_true, if_false]
      omega
    · simp only [hc, if_false, beq_iff_eq, ne_eq, not_false_eq_true, decide_true, if_true]
      omega

/-- The depth of a line is the column of its text. -/
theorem depth_eq_startColumn : depth = startColumn :=
  funext fun line => columns_eq (line.takeWhile isBlank)

/-- Blanks at the ends of lines change no depth. -/
theorem map_depth_trimEnd (ls : List Text) :
    ((ls.map trimEnd).filter (!allBlank ·)).map depth = (ls.filter (!allBlank ·)).map depth := by
  have hb (l : Text) : allBlank (trimEnd l) = allBlank l := by
    rw [Bool.eq_iff_iff, ← trimEnd_eq_nil_iff, ← trimEnd_eq_nil_iff, trimEnd_trimEnd]
  rw [filter_map, map_map]
  simp only [Function.comp_def, hb]
  refine map_congr_left fun l hl => ?_
  rw [depth, takeWhile_trimEnd (by simpa using (mem_filter.1 hl).2), depth]

/-- The margin is the least depth of lines that are not blank, if any. -/
theorem isLeast_margin (hmem : line ∈ ls) (hb : allBlank line = false) :
    IsLeast (depth '' {l | l ∈ ls ∧ allBlank l = false}) (margin (ls.map trimEnd)) := by
  have himage : depth '' {l | l ∈ ls ∧ allBlank l = false} = {d | d ∈ (ls.filter (!allBlank ·)).map depth} := by
    ext d
    simp
  have hd : depth line ∈ (ls.filter (!allBlank ·)).map depth :=
    mem_map_of_mem (mem_filter.2 ⟨hmem, by rw [hb]; rfl⟩)
  obtain ⟨m, hm⟩ := Option.isSome_iff_exists.1 (isSome_min?_of_mem hd)
  have hmargin : margin (ls.map trimEnd) = m := by rw [margin, map_depth_trimEnd, hm, Option.getD_some]
  rw [himage, hmargin]
  exact min?_eq_some_iff.1 hm

/-! ## Empty lines at both ends -/

/-- Only empty lines at both ends are dropped. -/
theorem exists_trimEmpty (ls : List Text) : ∃ before after, ls = replicate before [] ++ trimEmpty ls ++ replicate after [] := by
  have hempty (xs : List Text) : xs.takeWhile isEmpty = replicate (xs.takeWhile isEmpty).length [] :=
    eq_replicate_of_mem fun line hl => isEmpty_iff.1 (all_eq_true.1 all_takeWhile line hl)
  refine ⟨(ls.takeWhile isEmpty).length, ((ls.dropWhile isEmpty).reverse.takeWhile isEmpty).length, ?_⟩
  rw [← hempty, ← reverse_replicate, ← hempty, append_assoc, trimEmpty, ← reverse_append,
    takeWhile_append_dropWhile, reverse_reverse, takeWhile_append_dropWhile]

theorem head?_dropWhile_isEmpty (ls : List Text) : (ls.dropWhile isEmpty).head? ≠ some [] := by
  intro h
  have hhead := head?_dropWhile_not isEmpty ls
  rw [h] at hhead
  simp at hhead

/-- No empty line is left at the end. -/
theorem getLast?_trimEmpty (ls : List Text) : (trimEmpty ls).getLast? ≠ some [] := by
  rw [trimEmpty, getLast?_reverse]
  exact head?_dropWhile_isEmpty _

/-- No empty line is left at the start. -/
theorem head?_trimEmpty (ls : List Text) : (trimEmpty ls).head? ≠ some [] := by
  intro h
  obtain ⟨t, ht⟩ : trimEmpty ls <+: ls.dropWhile isEmpty := by
    rw [← reverse_suffix, trimEmpty, reverse_reverse]
    exact dropWhile_suffix isEmpty
  refine head?_dropWhile_isEmpty ls ?_
  rw [← ht, head?_append, h, Option.some_or]

end Indent

open Indent

/-- The lines of a body, each in its place. -/
theorem reindent_eq {body first : Text} {rest : List Text} (h : lines body = first :: rest) : reindent body = trimEmpty
      (placed 0 first :: rest.map fun line => placed (depth line - margin (rest.map trimEnd)) line) := by
  rw [reindent, h, placed_zero]
  simp only [map_map, Function.comp_def, moveLeft_trimEnd]

/-- A body at the margin keeps its lines' texts and layout. -/
theorem reindent_layout (body : Text) :
    (reindent body).head? ≠ some [] ∧ (reindent body).getLast? ≠ some [] ∧
      (∀ line ∈ reindent body, allBlank line → line = []) ∧
      ∃ before after,
        (Text.lines body).map trim = replicate before [] ++ (reindent body).map trim ++ replicate after [] ∧
        ∀ k line, (reindent body)[k]? = some line → line ≠ [] →
          ∃ source, (Text.lines body)[before + k]? = some source ∧
            (before + k = 0 → line = trim source) ∧
            (0 < before + k → ∃ m,
              IsLeast (startColumn '' {l | l ∈ (Text.lines body).tail ∧ allBlank l = false}) m ∧
                line = replicate (startColumn source - m) ' ' ++ trim source) := by
  rw [← depth_eq_startColumn]
  cases hlines : Text.lines body with
  | nil =>
    have hout : reindent body = [] := by rw [reindent, hlines]
    rw [hout]
    exact ⟨nofun, nofun, nofun, 0, 0, rfl, nofun⟩
  | cons first rest =>
    generalize hm : margin (rest.map trimEnd) = m
    have hout := reindent_eq hlines
    rw [hm] at hout
    generalize hshown : (placed 0 first :: rest.map fun line => placed (depth line - m) line) = shown at hout
    have htrim : shown.map trim = (first :: rest).map trim := by
      simp [← hshown, trim_placed, Function.comp_def]
    have hplaced : ∀ line ∈ shown, ∃ n source, line = placed n source := by
      rw [← hshown]
      simp
    obtain ⟨before, after, hspl⟩ := exists_trimEmpty shown
    rw [hout]
    refine ⟨head?_trimEmpty shown, getLast?_trimEmpty shown, ?_, before, after, ?_, ?_⟩
    · intro line hl hb
      obtain ⟨n, source, rfl⟩ := hplaced line (by rw [hspl]; simp [hl])
      refine placed_eq_nil ?_ n
      rwa [← Text.trim_eq_nil_iff, trim_placed, Text.trim_eq_nil_iff] at hb
    · rw [← htrim]
      conv_lhs => rw [hspl]
      rw [map_append, map_append, map_replicate, map_replicate, Text.trim_eq_nil_iff.2 rfl]
    · intro k line hk hne
      have hat : shown[before + k]? = some line := by
        have hlt := (List.getElem?_eq_some_iff.1 hk).1
        rw [hspl, append_assoc, getElem?_append_right (by simp), length_replicate, Nat.add_sub_cancel_left,
          getElem?_append_left hlt, hk]
      generalize before + k = i at hat
      rw [← hshown] at hat
      cases i with
      | zero =>
        cases hat
        exact ⟨first, rfl, fun _ => placed_zero, nofun⟩
      | succ i =>
        rw [getElem?_cons_succ, getElem?_map, Option.map_eq_some_iff] at hat
        obtain ⟨source, hsource, rfl⟩ := hat
        have hb : allBlank source = false := Bool.eq_false_iff.2 fun hb => hne (placed_eq_nil hb _)
        refine ⟨source, hsource, nofun, fun _ => ⟨m, hm ▸ isLeast_margin (mem_of_getElem? hsource) hb, ?_⟩⟩
        rw [placed, hb, if_neg Bool.false_ne_true]

/-- Tabs and spaces: the margin is after a tab and two spaces. -/
theorem reindent_layout_tabs :
    reindent "a;\n\t  if (x)\n\n\t\ty;\n" = ["a;".toList, "if (x)".toList, [], "  y;".toList] ∧
      IsLeast (startColumn '' {l | l ∈ ["\t  if (x)".toList, [], "\t\ty;".toList] ∧ allBlank l = false}) 6 := by
  have hlines : Text.lines "a;\n\t  if (x)\n\n\t\ty;\n" = ["a;".toList, "\t  if (x)".toList, [], "\t\ty;".toList] := by
    decide +kernel
  have hout : reindent "a;\n\t  if (x)\n\n\t\ty;\n" = ["a;".toList, "if (x)".toList, [], "  y;".toList] := by decide +kernel
  obtain ⟨-, -, -, before, after, htexts, hline⟩ := reindent_layout "a;\n\t  if (x)\n\n\t\ty;\n"
  rw [hout, hlines] at htexts hline
  have hbefore : before = 0 := by
    have hlen := congrArg length htexts
    simp only [length_map, length_cons, length_nil, length_append, length_replicate] at hlen
    omega
  obtain ⟨source, hsource, -, hlater⟩ := hline 3 "  y;".toList rfl (by decide)
  obtain ⟨m, hleast, htext⟩ := hlater (by omega)
  rw [hbefore] at hsource
  cases hsource
  have hcolumn : startColumn "\t\ty;".toList = 8 := by decide
  have hm := congrArg length htext
  rw [length_append, length_replicate, hcolumn] at hm
  obtain rfl : m = 6 := by
    have htexts : "  y;".toList.length = 4 ∧ (trim "\t\ty;".toList).length = 2 := by decide +kernel
    omega
  exact ⟨hout, hleast⟩

end Declass
