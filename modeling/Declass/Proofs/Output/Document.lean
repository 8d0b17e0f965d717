import Declass.Output.Unit
import Declass.Proofs.Output.Margin
import Declass.Proofs.Token.Nesting
import Mathlib.Data.List.Forall2

/-!
# Balanced documents

The scanner reads the moved lines of a body as it reads the body (`run_line`, `run_reindent`). So a document whose items are balanced
(`Item.Balanced`) is rendered to a text whose brackets are nested.
-/

namespace Declass

open List Text Token
open Option (bind_eq_some_iff)

namespace Scan

variable {line : Text}

/-- At a line's start the second mode does for the first. -/
inductive AtLine : Mode → Mode → Prop where
  | code (lineStart inSpace : Bool) : AtLine (.code lineStart inSpace) (.code true true)
  | quoted {q : Char} (hq : q = '"' ∨ q = '\'') : AtLine (.quoted q false) (.quoted q false)
  | comment : AtLine (.blockComment false) (.blockComment false)
  | directive : AtLine (.directive .blank) (.directive .blank)

/-- The second line holds what the first does, but for blanks at its ends. -/
inductive Moved : Text → Text → Prop where
  | blank {line : Text} (h : Text.allBlank line = true) : Moved line []
  | text {b₁ b₂ content : Text} (n : Nat) (h₁ : Text.allBlank b₁ = true) (h₂ : Text.allBlank b₂ = true)
    (hcontent : (content.head?).any (!Text.isBlank ·) = true) :
    Moved (b₁ ++ content ++ b₂) (replicate n ' ' ++ content)

variable {m m' m₁ : Mode} {q : State} {s s₁ : List Bracket} {c : Char} {b : Text}

/-- A literal is one that a `"` or a `'` ends. -/
def Mode.isProper : Mode → Bool
  | quoted q _ => q == '"' || q == '\''
  | _ => true

theorem isProper_start {lineStart inSpace : Bool} (h : Mode.start lineStart inSpace c = some m) : m.isProper := by
  unfold Mode.start at h
  split at h
  · cases h
    rfl
  split at h
  · split at h
    · cases h
      rfl
    · nomatch h
  split at h
  · cases h
    rfl
  split at h
  · cases h
    rfl
  split at h
  · rename_i hc
    cases h
    simpa [Mode.isProper] using hc
  split at h
  · cases h
    rfl
  split at h <;> cases h <;> rfl

theorem isProper_onward (hm : m.isProper) (h : m.onward c = some m') : m'.isProper := by
  cases m with
  | quoted q hidden =>
    simp only [Mode.onward] at h
    split at h
    · cases h
      exact hm
    split at h
    · cases h
      exact hm
    split at h
    · cases h
    split at h
    · cases h
      rfl
    · cases h
      exact hm
  | slash =>
    simp only [Mode.onward, Option.some.injEq] at h
    subst h
    split <;> rfl
  | number hex sign zero =>
    simp only [Mode.onward] at h
    split at h <;> cases h <;> rfl
  | separator hex =>
    simp only [Mode.onward] at h
    split at h
    · cases h
      rfl
    · cases h
  | blockComment star =>
    simp only [Mode.onward, Option.some.injEq] at h
    subst h
    split <;> rfl
  | directive tail =>
    simp only [Mode.onward] at h
    split at h
    · cases h
      rfl
    split at h
    · cases h
      rfl
    · cases h
  | _ =>
    cases h
    rfl

theorem isProper_next (hm : m.isProper) (h : next (m, s) c = some (m', s₁)) : m'.isProper := by
  unfold next at h
  split at h
  · simp only [Option.bind_eq_bind, bind_eq_some_iff] at h
    obtain ⟨m₂, hst, s₂, -, heq⟩ := h
    cases heq
    exact isProper_start hst
  · obtain ⟨m₂, honw, heq⟩ := Option.map_eq_some_iff.1 h
    cases heq
    exact isProper_onward hm honw

theorem isProper_run {t : Text} (hm : m.isProper) (h : run (m, s) t = some (m', s₁)) : m'.isProper := by
  induction t generalizing m s with
  | nil =>
    cases h
    exact hm
  | cons c t ih =>
    obtain ⟨⟨m₂, s₂⟩, hn, hr⟩ := bind_eq_some_iff.1 h
    exact ih (isProper_next hm hn) hr

/-- A blank at the start of a line. -/
theorem AtLine.next_blank (h : AtLine m m') (hc : isBlank c) (hn : next (m, s) c = some q) : AtLine q.1 m' ∧ q.2 = s := by
  have hne (d : Char) (hd : isBlank d = false) : c ≠ d := ne_of_holds hc hd
  cases h with
  | code lineStart inSpace =>
    obtain ⟨l₁, l₂, hn'⟩ := next_isBlank (m := .code lineStart inSpace) rfl hc s
    cases hn'.symm.trans hn
    exact ⟨.code l₁ l₂, rfl⟩
  | @quoted quote hq =>
    have hend : c ≠ quote := by
      rcases hq with rfl | rfl
      · exact hne _ (by decide)
      · exact hne _ (by decide)
    by_cases hf : c = '\n'
    · subst hf
      simp [next, Mode.fresh?, Mode.onward] at hn
    · rw [next_quoted (hne _ (by decide)) hf, if_neg hend] at hn
      cases hn
      exact ⟨.quoted hq, rfl⟩
  | comment =>
    rw [next_onward (n := .blockComment false) rfl (by simp [Mode.onward, hne '*' (by decide)])] at hn
    cases hn
    exact ⟨.comment, rfl⟩
  | directive =>
    by_cases hf : c = '\n'
    · subst hf
      simp [next, Mode.fresh?, Mode.onward] at hn
    · have hadd : LineTail.add .blank c = .blank := by simp [LineTail.add, hne '\\' (by decide), hc]
      rw [next_onward (n := .directive .blank) (by simp [Mode.fresh?]) (by simp [Mode.onward, hf, hadd])] at hn
      cases hn
      exact ⟨.directive, rfl⟩

/-- Blanks at the start of a line. -/
theorem AtLine.run_blanks (h : AtLine m m') (hb : allBlank b) (hr : run (m, s) b = some (m₁, s₁)) : AtLine m₁ m' ∧ s₁ = s := by
  induction b generalizing m with
  | nil =>
    cases hr
    exact ⟨h, rfl⟩
  | cons c b ih =>
    rw [allBlank, all_cons, Bool.and_eq_true] at hb
    obtain ⟨⟨m₂, s₂⟩, hn, hr₂⟩ := bind_eq_some_iff.1 hr
    obtain ⟨h₂, hs⟩ := h.next_blank hb.1 hn
    cases hs
    exact ih h₂ hb.2 hr₂

theorem AtLine.run_margin (h : AtLine m m') (n : Nat) : run (m', s) (replicate n ' ') = some (m', s) := by
  have hsp : next (m', s) ' ' = some (m', s) := by
    cases h with
    | code => rfl
    | quoted hq => rcases hq with rfl | rfl <;> rfl
    | comment => rfl
    | directive => rfl
  induction n with
  | zero => rfl
  | succ n ih => rw [replicate_succ, run_cons, hsp, Option.bind_some, ih]

/-- The text of a line is read alike. -/
theorem AtLine.run_content {content : Text} (h : AtLine m m') (hr : run (m, s) content = some (m₁, s₁)) :
    ∃ m₁', run (m', s) content = some (m₁', s₁) ∧ m₁.Le m₁' := by
  cases h with
  | code lineStart inSpace => exact run_mono (.code (fun _ => rfl) (fun _ => rfl)) hr
  | quoted | comment | directive => exact ⟨m₁, hr, .refl m₁⟩

theorem settles_of_isCode (h : m.isCode) : m.settles := by
  cases m with
  | lineComment => rfl
  | directive tail => nomatch h
  | _ => exact h

/-- A blank before the end of a line, in a token that goes on. -/
theorem next_blank_of_not_isCode (hpr : m.isProper) (hm : m.isCode = false) (hc : isBlank c)
    (hf : c ≠ '\n') (hn : next (m, s) c = some q) :
    q.1.isCode = false ∧ ∀ r, next q '\n' = some r → next (m, s) '\n' = some r := by
  have hne (d : Char) (hd : isBlank d = false) : c ≠ d := ne_of_holds hc hd
  cases m with
  | separator hex =>
    have halnum : c.isAlphanum = false := by
      have := continuesIdent_eq_false_of_isBlank hc
      simp only [continuesIdent, Bool.or_eq_false_iff] at this
      exact this.1
    simp [next, Mode.fresh?, Mode.onward, halnum] at hn
  | quoted quote hidden =>
    have hend : c ≠ quote := by
      simp only [Mode.isProper, Bool.or_eq_true, beq_iff_eq] at hpr
      rcases hpr with rfl | rfl
      · exact hne _ (by decide)
      · exact hne _ (by decide)
    have hq : q = (.quoted quote false, s) := by
      cases hidden with
      | true =>
        exact (Option.some.inj hn).symm
      | false =>
        rw [next_quoted (hne _ (by decide)) hf, if_neg hend] at hn
        exact (Option.some.inj hn).symm
    subst hq
    refine ⟨rfl, ?_⟩
    intro r hr
    simp [next, Mode.fresh?, Mode.onward] at hr
  | lineComment =>
    rw [next_onward (by simp [Mode.fresh?, hf]) rfl] at hn
    cases hn
    exact ⟨rfl, fun _ => id⟩
  | blockComment star =>
    rw [next_onward (n := .blockComment false) rfl
      (by simp [Mode.onward, hne '/' (by decide), hne '*' (by decide)])] at hn
    cases hn
    exact ⟨rfl, fun _ hr => by simpa [next, Mode.fresh?, Mode.onward] using hr⟩
  | directive tail =>
    rw [next_onward (n := .directive (tail.add c)) (by simp [Mode.fresh?, hf]) (by simp [Mode.onward, hf])] at hn
    cases hn
    refine ⟨rfl, ?_⟩
    intro r hr
    have hsl := hne '\\' (by decide)
    cases tail with
    | text =>
      have hadd : LineTail.add .text c = .text := by simp [LineTail.add, hsl]
      rwa [hadd] at hr
    | blank =>
      have hadd : LineTail.add .blank c = .blank := by simp [LineTail.add, hsl, hc]
      rwa [hadd] at hr
    | loose =>
      have hadd : LineTail.add .loose c = .loose := by simp [LineTail.add, hsl, hc]
      rwa [hadd] at hr
    | backslash =>
      by_cases hret : c = '\r'
      · have hadd : LineTail.add .backslash c = .backslash := by
          subst hret
          decide
        rwa [hadd] at hr
      · have hadd : LineTail.add .backslash c = .loose := by simp [LineTail.add, hsl, hc, hret]
        rw [hadd] at hr
        simp [next, Mode.fresh?, Mode.onward] at hr
  | _ => cases hm

theorem next_lineFeed_of_run {r : State} (hpr : m.isProper) (hm : m.isCode = false) (hb : allBlank b)
    (hf : '\n' ∉ b) (hr : run (m, s) (b ++ ['\n']) = some r) : next (m, s) '\n' = some r := by
  induction b generalizing m s with
  | nil =>
    obtain ⟨q, hn, hr⟩ := bind_eq_some_iff.1 hr
    cases hr
    exact hn
  | cons c b ih =>
    rw [allBlank, all_cons, Bool.and_eq_true] at hb
    rw [mem_cons, not_or] at hf
    obtain ⟨⟨m₂, s₂⟩, hn, hr⟩ := bind_eq_some_iff.1 hr
    obtain ⟨hm₂, hnx⟩ := next_blank_of_not_isCode hpr hm hb.1 (Ne.symm hf.1) hn
    exact hnx r (ih (isProper_next hpr hn) hm₂ hb.2 hf.2 hr)

theorem atLine_of_next_lineFeed (hpr : m.isProper) (h : next (m, s) '\n' = some (m₁, s₁)) : AtLine m₁ m₁ := by
  cases hset : m.settles with
  | true =>
    cases (next_lineFeed hset s).symm.trans h
    exact .code true true
  | false =>
    cases m with
    | quoted quote hidden =>
      cases hidden with
      | false => simp [next, Mode.fresh?, Mode.onward] at h
      | true =>
        cases h
        exact .quoted (by simpa [Mode.isProper] using hpr)
    | blockComment star =>
      rw [next_onward (n := .blockComment false) rfl (by simp [Mode.onward])] at h
      cases h
      exact .comment
    | directive tail =>
      cases tail with
      | text => cases hset
      | backslash =>
        cases h
        exact .directive
      | blank => cases h
      | loose => cases h
    | separator hex => cases h
    | _ => cases hset

/-- The end of a line is read alike without the blanks before it. -/
theorem run_lineEnd (hpr : m.isProper) (hle : m.Le m') (hb : allBlank b) (hf : '\n' ∉ b)
    (hr : run (m, s) (b ++ ['\n']) = some (m₁, s₁)) : ∃ m₁', next (m', s) '\n' = some (m₁', s₁) ∧ AtLine m₁ m₁' := by
  cases hm : m.isCode with
  | true =>
    obtain ⟨m₂, hr₂, hm₂⟩ := run_allBlank hm hb s
    rw [run_append_of_eq hr₂, run_cons, next_lineFeed (settles_of_isCode hm₂)] at hr
    cases hr
    exact ⟨_, next_lineFeed (settles_of_isCode (hle.isCode hm)) s, .code true true⟩
  | false =>
    have hn := next_lineFeed_of_run hpr hm hb hf hr
    cases hle with
    | code => nomatch hm
    | refl => exact ⟨m₁, hn, atLine_of_next_lineFeed hpr hn⟩

theorem AtLine.le (h : AtLine m m') : m.Le m' := by
  cases h with
  | code => exact .code (fun _ => rfl) (fun _ => rfl)
  | quoted | comment | directive => exact .refl _

/-- A moved line is read as the line is. -/
theorem run_line {line line' : Text} (h : AtLine m m') (hpr : m.isProper) (hmv : Moved line line')
    (hf : '\n' ∉ line) (hr : run (m, s) (line ++ ['\n']) = some (m₁, s₁)) :
    ∃ m₁', run (m', s) (line' ++ ['\n']) = some (m₁', s₁) ∧ AtLine m₁ m₁' := by
  cases hmv with
  | blank hbl =>
    obtain ⟨m₁', hn, hat⟩ := run_lineEnd hpr h.le hbl hf hr
    exact ⟨m₁', by rw [nil_append, run_cons, hn]; rfl, hat⟩
  | @text b₁ b₂ content n h₁ h₂ hcon =>
    rw [append_assoc, append_assoc, run_append] at hr
    obtain ⟨⟨m₂, s₂⟩, hr₁, hr₂⟩ := bind_eq_some_iff.1 hr
    obtain ⟨hat₂, rfl⟩ := h.run_blanks h₁ hr₁
    rw [run_append] at hr₂
    obtain ⟨⟨m₃, s₃⟩, hr₃, hend⟩ := bind_eq_some_iff.1 hr₂
    obtain ⟨m₃', hr₃', hle⟩ := hat₂.run_content hr₃
    have hproper₃ := isProper_run (isProper_run hpr hr₁) hr₃
    obtain ⟨m₁', hn, hat⟩ := run_lineEnd hproper₃ hle h₂ (fun hmem => hf (by simp [hmem])) hend
    refine ⟨m₁', ?_, hat⟩
    rw [append_assoc, run_append_of_eq (h.run_margin n), run_append_of_eq hr₃', run_cons, hn]
    rfl

end Scan

namespace Text

/-- The lines, each with a line feed after it. -/
def unlines (ls : List Text) : Text :=
  ls.flatMap (· ++ ['\n'])

/-- The first line of a text, without a carriage return before the line feed. -/
theorem lines_cases (x : Text) : x = [] ∨ ('\n' ∉ x ∧ lines x = [x]) ∨
      ∃ line r rest, allBlank r ∧ '\n' ∉ line ++ r ∧ x = line ++ r ++ '\n' :: rest ∧ lines x = line :: lines rest := by
  induction x using lines.induct with
  | case1 => exact .inl rfl
  | case2 t ih => exact .inr (.inr ⟨[], [], t, rfl, by simp, rfl, rfl⟩)
  | case3 t ih => exact .inr (.inr ⟨[], ['\r'], t, by decide, by decide, rfl, rfl⟩)
  | case4 c t hf hret hnil ih =>
    have hl : lines (c :: t) = [[c]] := by rw [lines.eq_4 c t hf hret, hnil]
    rcases ih with rfl | ⟨-, hlines⟩ | ⟨line, r, rest, -, -, -, hlines⟩
    · exact .inr (.inl ⟨by simpa using Ne.symm hf, hl⟩)
    · nomatch hnil.symm.trans hlines
    · nomatch hnil.symm.trans hlines
  | case5 c t hf hret line rest hlines ih =>
    have hl : lines (c :: t) = (c :: line) :: rest := by rw [lines.eq_4 c t hf hret, hlines]
    have hc : '\n' ≠ c := Ne.symm hf
    rcases ih with rfl | ⟨hmem, hone⟩ | ⟨line', r, rest', hr, hmem, rfl, hm⟩
    · nomatch hlines
    · cases hlines.symm.trans hone
      exact .inr (.inl ⟨by simp [hc, hmem], hl⟩)
    · cases hlines.symm.trans hm
      refine .inr (.inr ⟨c :: line, r, rest', hr, ?_, rfl, hl⟩)
      rw [cons_append, mem_cons, not_or]
      exact ⟨hc, hmem⟩

end Text

namespace Document

/-- A line with its indentation. -/
def indented (depth : Nat) (line : Text) : Text :=
  (if line.isEmpty then [] else replicate (4 * depth) ' ') ++ line

theorem addLine_eq (out line : Text) : addLine depth out line = out ++ (indented depth line ++ ['\n']) := by
  simp [addLine, indented]

theorem foldl_addLine (out : Text) (body : List Text) :
    body.foldl (addLine depth) out = out ++ unlines (body.map (indented depth)) := by
  induction body generalizing out with
  | nil => simp [unlines]
  | cons line body ih =>
    rw [foldl_cons, ih, addLine_eq]
    simp [unlines]

theorem isEmpty_indented : (indented depth line).isEmpty = line.isEmpty := by
  cases line <;> simp [indented]

end Document

namespace Scan

open Document (indented)

/-- A line at its new margin. -/
theorem moved_placed (n : Nat) : Moved line (indented 1 (Indent.placed n line)) := by
  cases hb : allBlank line with
  | true =>
    rw [Indent.placed_eq_nil hb]
    exact .blank hb
  | false =>
    obtain ⟨b₁, b₂, h₁, h₂, hspl⟩ := exists_trim line
    have hhead : ((trim line).head?).any (!Text.isBlank ·) := by
      cases htr : trim line with
      | nil => nomatch hb.symm.trans (trim_eq_nil_iff.1 htr)
      | cons c r =>
        have hc : isBlank c = false := isBlank_head_trimStart (by rw [trimStart_trim, htr]; rfl)
        simp [hc]
    rw [Indent.placed, hb, if_neg Bool.false_ne_true]
    generalize trim line = content at hspl hhead ⊢
    have hindented : indented 1 (List.replicate n ' ' ++ content) = List.replicate (4 + n) ' ' ++ content := by
      rw [replicate_add, append_assoc, indented, if_neg]
      intro hnil
      rw [List.isEmpty_iff, append_eq_nil_iff] at hnil
      rw [hnil.2] at hhead
      cases hhead
    rw [hindented, hspl]
    exact .text (4 + n) h₁ h₂ hhead

variable {x : Text} {ls : List Text} {m : Mode} {s s₁ : List Bracket}

/-- The moved lines of a text are read as the text is. -/
theorem run_lines (hls : List.Forall₂ Moved (lines x) ls) {m' m₁ : Mode} (h : AtLine m m') (hpr : m.isProper)
    (hr : run (m, s) x = some (m₁, s₁)) (hm₁ : m₁.settles) : run (m', s) (unlines ls) = some (.code true true, s₁) := by
  generalize hlines : lines x = lines at hls
  induction hls generalizing x m m' s with
  | nil =>
    obtain rfl : x = [] := by
      rcases lines_cases x with hx | ⟨-, hone⟩ | ⟨line, r, rest, -, -, -, hmo⟩
      · exact hx
      · nomatch hlines.symm.trans hone
      · nomatch hlines.symm.trans hmo
    cases hr
    cases h with
    | code => rfl
    | quoted | comment | directive => nomatch hm₁
  | @cons line line' lines ls hmv hrs ih =>
    have hunlines : unlines (line' :: ls) = (line' ++ ['\n']) ++ unlines ls := by simp [unlines]
    rw [hunlines]
    rcases lines_cases x with rfl | ⟨hf, hone⟩ | ⟨line₁, r, rest, hbl, hf, rfl, hmo⟩
    · nomatch hlines
    · cases hlines.symm.trans hone
      cases hrs
      have hr' : run (m, s) (line ++ ['\n']) = some (.code true true, s₁) := by
        rw [run_append_of_eq hr, run_cons, next_lineFeed hm₁]
        rfl
      obtain ⟨m₂, hr₂, hat⟩ := run_line h hpr hmv hf hr'
      cases hat
      rw [run_append_of_eq hr₂]
      rfl
    · cases hlines.symm.trans hmo
      have hmv' : Moved (line ++ r) line' := by
        cases hmv with
        | blank hb => exact .blank (by rw [allBlank_append, hb, hbl]; rfl)
        | text n h₁ h₂ hcon =>
          rw [append_assoc]
          exact .text n h₁ (by rw [allBlank_append, h₂, hbl]; rfl) hcon
      have hspl : line ++ r ++ '\n' :: rest = (line ++ r ++ ['\n']) ++ rest := by simp
      rw [hspl, run_append] at hr
      obtain ⟨⟨m₂, s₂⟩, hr₁, hr₂⟩ := bind_eq_some_iff.1 hr
      obtain ⟨m₂', hr₂', hat⟩ := run_line h hpr hmv' hf hr₁
      rw [run_append_of_eq hr₂']
      exact ih hat (isProper_run hpr hr₁) hr₂ rfl

/-! ## Empty lines -/

theorem run_feeds (n : Nat) : run (.code true true, s) (replicate n '\n') = some (.code true true, s) := by
  induction n with
  | zero => rfl
  | succ n ih => exact ih

/-- Where line feeds lead between tokens, the scanner is between tokens. -/
theorem AtLine.eq_of_run_feeds {n : Nat} (h : AtLine m m)
    (hr : run (m, s) (replicate n '\n') = some (.code true true, s₁)) : m = .code true true ∧ s₁ = s := by
  cases h with
  | code =>
    cases (run_feeds n).symm.trans hr
    exact ⟨rfl, rfl⟩
  | quoted =>
    cases n with
    | zero => cases hr
    | succ n => simp [replicate_succ, next, Mode.fresh?, Mode.onward] at hr
  | comment =>
    induction n with
    | zero => cases hr
    | succ n ih => exact ih hr
  | directive =>
    cases n with
    | zero => cases hr
    | succ n => cases hr

/-- After whole lines the scanner is at the start of a line. -/
theorem atLine_of_run_unlines (hr : run (.code true true, s) (unlines ls) = some (m, s₁)) : AtLine m m := by
  rcases eq_nil_or_concat ls with rfl | ⟨ls, line, rfl⟩
  · cases hr
    exact .code true true
  · have hspl : unlines (ls ++ [line]) = (unlines ls ++ line) ++ ['\n'] := by simp [unlines]
    rw [concat_eq_append, hspl, run_append] at hr
    obtain ⟨⟨m₁, s₂⟩, hr₁, hr₂⟩ := bind_eq_some_iff.1 hr
    have hpr : m₁.isProper := isProper_run rfl hr₁
    obtain ⟨q, hn, hq⟩ := bind_eq_some_iff.1 hr₂
    cases hq
    exact atLine_of_next_lineFeed hpr hn

theorem unlines_replicate_nil (n : Nat) : unlines (replicate n []) = replicate n '\n' := by
  induction n with
  | zero => rfl
  | succ n ih => exact congrArg ('\n' :: ·) ih

/-- Empty lines at the start and at the end do not matter. -/
theorem run_unlines_trimEmpty (hr : run (.code true true, s) (unlines ls) = some (.code true true, s₁)) :
    run (.code true true, s) (unlines (Indent.trimEmpty ls)) = some (.code true true, s₁) := by
  obtain ⟨before, after, hspl⟩ := Indent.exists_trimEmpty ls
  have hfeeds : unlines ls = replicate before '\n' ++ (unlines (Indent.trimEmpty ls) ++ replicate after '\n') := by
    rw [← unlines_replicate_nil, ← unlines_replicate_nil, unlines, unlines, unlines, unlines, ← flatMap_append,
      ← flatMap_append, ← append_assoc, ← hspl]
  rw [hfeeds, run_append_of_eq (run_feeds before), run_append] at hr
  obtain ⟨⟨m, s₂⟩, hr₁, hr₂⟩ := bind_eq_some_iff.1 hr
  obtain ⟨rfl, rfl⟩ := (atLine_of_run_unlines hr₁).eq_of_run_feeds hr₂
  exact hr₁

theorem map_trimEmpty : (Indent.trimEmpty ls).map (indented depth) = Indent.trimEmpty (ls.map (indented depth)) := by
  have hemp : isEmpty ∘ indented depth = isEmpty := by
    funext line
    exact Document.isEmpty_indented
  simp only [Indent.trimEmpty, dropWhile_map, ← map_reverse, hemp]

/-- The lines of a body at its new margin, inside the groups `s`. -/
theorem run_reindent (hr : run (.code false false, []) x = some (m, [])) (hm : m.settles) :
    run (.code true true, s) (unlines ((reindent x).map (indented 1))) = some (.code true true, s) := by
  cases hlines : lines x with
  | nil =>
    rw [reindent, hlines]
    rfl
  | cons first rest =>
    rw [reindent_eq hlines, map_trimEmpty]
    refine run_unlines_trimEmpty (run_lines ?_ (.code false false) rfl (run_around hr s) hm)
    rw [hlines, map_cons, map_map]
    refine .cons (moved_placed 0) ?_
    rw [forall₂_map_right_iff, forall₂_same]
    exact fun line _ => moved_placed _

end Scan

open List Scan Token
open Text (unlines)
open Document (indented)

namespace Scan

/-- The line leads from one line's start to the next, and from `s` to `s'`. -/
def ReadsLine (s : List Bracket) (line : Text) (s' : List Bracket) : Prop :=
  ∀ inSpace, run (.code true inSpace, s) (line ++ ['\n']) = some (.code true true, s')

/-- The lines of a block leave the groups around them. -/
def ReadsBlock (body : List Text) : Prop :=
  ∀ s, run (.code true true, s) (unlines (body.map (indented 1))) = some (.code true true, s)

variable {line : Text}

theorem Closes.readsLine (h : Closes line) (s : List Bracket) : ReadsLine s line s := by
  intro inSpace
  obtain ⟨m, hr, hm⟩ := h.run true inSpace s
  rw [run_append_of_eq hr, run_cons, next_lineFeed (settles_of_isCode hm)]
  rfl

theorem ReadsLine.indented {s s' : List Bracket} (h : ReadsLine s line s') (depth : Nat) :
    ReadsLine s (Document.indented depth line) s' := by
  intro inSpace
  unfold Document.indented
  cases hemp : line.isEmpty with
  | true => exact h inSpace
  | false =>
    rw [if_neg (by decide), append_assoc]
    cases 4 * depth with
    | zero => exact h inSpace
    | succ n =>
      have hsp : next (.code true inSpace, s) ' ' = some (.code true true, s) := by cases inSpace <;> rfl
      rw [replicate_succ, cons_append, run_cons, hsp, Option.bind_some,
        run_append_of_eq ((AtLine.code true true).run_margin n)]
      exact h true

theorem readsBlock_append {xs ys : List Text} (hx : ReadsBlock xs) (hy : ReadsBlock ys) : ReadsBlock (xs ++ ys) := by
  intro s
  rw [map_append, unlines, flatMap_append, ← unlines, run_append_of_eq (hx s)]
  exact hy s

theorem readsBlock_of_closes {body : List Text} (h : ∀ line ∈ body, Closes line) : ReadsBlock body := by
  intro s
  induction body with
  | nil => rfl
  | cons line body ih =>
    have hln := ((h line (by simp)).readsLine s).indented 1 true
    rw [map_cons, unlines, flatMap_cons, run_append_of_eq hln]
    exact ih fun l hl => h l (by simp [hl])

end Scan

namespace Item

/-- The item leaves no group open and closes no other. -/
def Balanced : Item → Prop
  | .line text => ReadsLine [] text []
  | .blank => True
  | .block head body foot => ∃ s, ReadsLine [] head s ∧ ReadsBlock body ∧ ReadsLine s foot []

end Item

namespace Document

/-- A text that is empty, or of whole lines that leave no group open. -/
def Complete (out : Text) : Prop :=
  out = [] ∨ run (.code true false, []) out = some (.code true true, [])

variable {out : Text} {d : Document}

theorem Complete.run (h : Complete out) : ∃ inSpace, Scan.run (.code true false, []) out = some (.code true inSpace, []) := by
  rcases h with rfl | h
  · exact ⟨false, rfl⟩
  · exact ⟨true, h⟩

theorem run_addLine {line : Text} {s s' : List Bracket} {inSpace : Bool}
    (hout : Scan.run (.code true false, []) out = some (.code true inSpace, s)) (h : ReadsLine s line s') :
    Scan.run (.code true false, []) (addLine 0 out line) = some (.code true true, s') := by
  rw [addLine_eq, run_append_of_eq hout]
  exact h.indented 0 inSpace

theorem complete_emit (hout : Complete out) {item : Item} (h : item.Balanced) : Complete (emit out item) := by
  cases item with
  | line text =>
    obtain ⟨inSpace, hr⟩ := hout.run
    exact .inr (run_addLine hr h)
  | blank =>
    simp only [emit]
    split
    · exact hout
    · rename_i hemp
      rcases hout with rfl | hr
      · exact absurd rfl hemp
      · refine .inr ?_
        rw [run_append_of_eq hr]
        rfl
  | block head body foot =>
    obtain ⟨s, hh, hb, hfoot⟩ := h
    obtain ⟨inSpace, hr⟩ := hout.run
    have hlines : Scan.run (.code true false, []) (body.foldl (addLine 1) (addLine 0 out head)) =
        some (.code true true, s) := by
      rw [foldl_addLine, run_append_of_eq (run_addLine hr hh)]
      exact hb s
    exact .inr (run_addLine hlines hfoot)

theorem complete_foldl_emit (hout : Complete out) (h : ∀ item ∈ d, item.Balanced) : Complete (d.foldl emit out) := by
  induction d generalizing out with
  | nil => exact hout
  | cons item d ih =>
    exact ih (complete_emit hout (h item (by simp))) fun i hi => h i (by simp [hi])

theorem complete_trimEndLines (h : Complete out) : Complete (trimEndLines out) := by
  unfold trimEndLines
  split
  · rename_i hl
    rcases h with rfl | hr
    · nomatch hl
    obtain ⟨feeds, hfeeds, hspl⟩ := Text.exists_dropEndWhile (· = '\n') out
    have hreplicate : feeds = List.replicate feeds.length '\n' := by
      refine eq_replicate_of_mem ?_
      intro c hc
      simpa using all_eq_true.1 hfeeds c hc
    rw [hspl, run_append] at hr
    obtain ⟨⟨m, s⟩, hk, hr⟩ := Option.bind_eq_some_iff.1 hr
    refine .inr ?_
    rw [run_append_of_eq hk]
    cases hn : feeds.length with
    | zero =>
      rw [length_eq_zero_iff.1 hn] at hr
      cases hr
      rfl
    | succ n =>
      rw [hreplicate, hn] at hr
      obtain ⟨⟨m₁, s₁⟩, hnx, hr⟩ := Option.bind_eq_some_iff.1 hr
      have hpr : m.isProper := isProper_run rfl hk
      obtain ⟨rfl, rfl⟩ := (atLine_of_next_lineFeed hpr hnx).eq_of_run_feeds hr
      have hf : "\n" = ['\n'] := rfl
      rw [hf, run_cons, hnx]
      rfl
  · exact h

/-- The brackets of a rendered document are nested. -/
theorem nested_render (h : ∀ item ∈ d, item.Balanced) : Nested (tokenize d.render) := by
  obtain ⟨inSpace, hr⟩ := (complete_trimEndLines (complete_foldl_emit (.inl rfl) h)).run
  exact nested_tokenize hr rfl

end Document

end Declass
