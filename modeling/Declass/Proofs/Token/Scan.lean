import Declass.Proofs.Text.Trim
import Declass.Proofs.Token.Relex

/-!
# Scanning character by character

A scanner that reads a text from left to right, knows which groups are open, and gives up where a text cannot be moved safely, such
as at a literal that does not end or a closing bracket that does not fit.
-/

namespace Declass

open Declass.Bracket List Text

namespace Bracket

variable {around : List Bracket}

/-- The bracket that a character opens. -/
def openedBy? : Char → Option Bracket
  | '(' => some .round
  | '\x7b' => some .curly
  | '[' => some .square
  | _ => none

/-- The bracket that a character closes. -/
def closedBy? : Char → Option Bracket
  | ')' => some .round
  | '\x7d' => some .curly
  | ']' => some .square
  | _ => none

/-- The open groups, innermost first, after a bracket closes. -/
def close (b : Bracket) : List Bracket → Option (List Bracket)
  | [] => none
  | b' :: s => if b = b' then some s else none

/-- The open groups, innermost first, after one more character. -/
def turn (s : List Bracket) (c : Char) : Option (List Bracket) :=
  match openedBy? c, closedBy? c with
  | some b, _ => some (b :: s)
  | none, some b => close b s
  | none, none => some s

variable {s s' : List Bracket}

theorem close_append {b : Bracket} (h : close b s = some s') : close b (s ++ around) = some (s' ++ around) := by
  cases s with
  | nil => nomatch h
  | cons b' s =>
    rw [close] at h
    rw [cons_append, close]
    split at h
    · rename_i heq
      cases h
      rw [if_pos heq]
    · nomatch h

/-- Groups around the open ones do not matter. -/
theorem turn_append {c : Char} (h : turn s c = some s') (around : List Bracket) : turn (s ++ around) c = some (s' ++ around) := by
  unfold turn at h ⊢
  split at h
  · cases h
    rfl
  · exact close_append h
  · cases h
    rfl

end Bracket

namespace Scan

open Token

/-- What a line of a directive holds so far. -/
inductive LineTail where
  /-- Only blanks, in a line that continues a directive. -/
  | blank
  | text
  /-- A backslash at its end, carriage returns aside. -/
  | backslash
  /-- A backslash at its end, other blanks aside. -/
  | loose
deriving DecidableEq

/-- What the line holds with one more character. -/
def LineTail.add (tail : LineTail) (c : Char) : LineTail :=
  if c = '\\' then backslash
  else if !isBlank c then text
  else if tail = backslash ∧ c ≠ '\r' then loose
  else tail

/-- What the next character can be part of. -/
inductive Mode where
  /-- A new token. -/
  | code (lineStart inSpace : Bool)
  /-- A `/` was read. -/
  | slash
  /-- A `.` was read. -/
  | point
  | word
  /-- A number: it is hexadecimal, it can go on with a sign, it is `0` so far. -/
  | number (hex sign zero : Bool)
  /-- A quote within a number was read. -/
  | separator (hex : Bool)
  /-- A literal: what ends it, and if a backslash hides the next character. -/
  | quoted (quote : Char) (hidden : Bool)
  | lineComment
  /-- A comment that `*/` ends, and if a `*` was read. -/
  | blockComment (star : Bool)
  | directive (tail : LineTail)
deriving DecidableEq

/-- A character after which a number can go on with a sign. -/
def isExponent (c : Char) : Bool :=
  c == 'e' || c == 'E' || c == 'p' || c == 'P'

/-- A number goes on with it, a quote only before a digit or letter. -/
def continuesNumber (sign : Bool) (c : Char) : Bool :=
  c.isAlphanum || c == '.' || c == '_' || c == '\'' || (sign && (c == '+' || c == '-'))

namespace Mode

/-- If the character starts a token, where, and if white space is before. -/
def fresh? : Mode → Char → Option (Bool × Bool)
  | code lineStart inSpace, _ => some (lineStart, inSpace)
  | slash, c => if c = '/' ∨ c = '*' then none else some (false, false)
  | point, c => if c.isDigit then none else some (false, false)
  | word, c => if continuesIdent c then none else some (false, false)
  | number _ sign _, c => if continuesNumber sign c then none else some (false, false)
  | lineComment, c => if c = '\n' then some (false, false) else none
  | directive tail, c => if c = '\n' ∧ tail = .text then some (false, false) else none
  | separator _, _ | quoted _ _, _ | blockComment _, _ => none

/-- The mode after the first character of a token. -/
def start (lineStart inSpace : Bool) (c : Char) : Option Mode :=
  if startsSpace c || (inSpace && c == '\x0c') then some (code (lineStart || c == '\n') true)
  else if c = '#' then if lineStart then some (directive .text) else none
  else if c = '/' then some slash
  else if c = '.' then some point
  else if c = '"' ∨ c = '\'' then some (quoted c false)
  else if startsIdent c then some word
  else if c.isDigit then some (number false false (c == '0'))
  else some (code false false)

/-- The mode after one more character of a token. -/
def onward : Mode → Char → Option Mode
  | code lineStart inSpace, _ => some (code lineStart inSpace)
  | slash, c => some (if c = '/' then lineComment else blockComment false)
  | point, _ => some (number false false false)
  | word, _ => some word
  | number hex _ zero, c =>
    if c = '\'' then some (separator hex)
    else
      let hex := hex || (zero && c == 'x')
      some (number hex (isExponent c && !hex) false)
  | separator hex, c => if c.isAlphanum then some (number hex (isExponent c && !hex) false) else none
  | quoted q hidden, c =>
    if hidden then some (quoted q false)
    else if c = '\\' then some (quoted q true)
    else if c = '\n' then none
    else if c = q then some (code false false)
    else some (quoted q false)
  | lineComment, _ => some lineComment
  | blockComment star, c => some (if star ∧ c = '/' then code false false else blockComment (c == '*'))
  | directive tail, c =>
    if c ≠ '\n' then some (directive (tail.add c))
    else if tail = .backslash then some (directive .blank)
    else none

/-- The scanner is between tokens, or where one can end. -/
def isCode : Mode → Bool
  | code _ _ | slash | point | word | number _ _ _ => true
  | _ => false

/-- A line feed puts the scanner at the start of a line between tokens. -/
def settles : Mode → Bool
  | lineComment | directive .text => true
  | m => m.isCode

end Mode

/-- A mode and the open groups. -/
abbrev State := Mode × List Bracket

/-- The state after one more character. -/
def next (q : State) (c : Char) : Option State :=
  match q.1.fresh? c with
  | some (lineStart, inSpace) => do
    let m ← Mode.start lineStart inSpace c
    let s ← turn q.2 c
    return (m, s)
  | none => (q.1.onward c).map fun m => (m, q.2)

/-- The state after a text. -/
def run (q : State) : Text → Option State
  | [] => some q
  | c :: t => (next q c).bind fun q => run q t

@[simp]
theorem run_nil (q : State) : run q [] = some q := rfl

@[simp]
theorem run_cons (q : State) (c : Char) (t : Text) : run q (c :: t) = (next q c).bind fun q => run q t := rfl

theorem run_append (q : State) (x y : Text) : run q (x ++ y) = (run q x).bind fun q => run q y := by
  induction x generalizing q with
  | nil => rfl
  | cons c x ih =>
    rw [cons_append, run_cons, run_cons]
    cases next q c with
    | none => rfl
    | some q' => exact ih q'

variable {q : State} {x t y : Text} {m m' m₁ : Mode} {s s' : List Bracket} {c d o : Char} {lineStart inSpace : Bool}
  {b : Bracket}

theorem run_append_of_eq {q' : State} (h : run q x = some q') : run q (x ++ y) = run q' y := by
  rw [run_append, h]
  rfl

/-! ## Groups around -/

theorem next_append (h : next (m, s) c = some (m', s')) (around : List Bracket) :
    next (m, s ++ around) c = some (m', s' ++ around) := by
  unfold next at h ⊢
  cases hf : m.fresh? c with
  | none =>
    rw [hf] at h
    obtain ⟨m'', hm, heq⟩ := Option.map_eq_some_iff.1 h
    cases heq
    simp [hm]
  | some l =>
    rw [hf] at h
    simp only [Option.bind_eq_bind, Option.bind_eq_some_iff] at h
    obtain ⟨m'', hm, s'', hs, heq⟩ := h
    cases heq
    simp [hm, turn_append hs around]

/-- Groups around a text do not matter to its scan. -/
theorem run_around (h : run (m, s) t = some (m', s')) (around : List Bracket) :
    run (m, s ++ around) t = some (m', s' ++ around) := by
  induction t generalizing m s with
  | nil =>
    cases h
    rfl
  | cons c t ih =>
    rw [run_cons] at h ⊢
    obtain ⟨⟨m'', s''⟩, hn, hr⟩ := Option.bind_eq_some_iff.1 h
    rw [next_append hn around]
    exact ih hr

/-! ## Kinds of characters -/

theorem continuesIdent_iff : continuesIdent c ↔
      (48 ≤ c.toNat ∧ c.toNat ≤ 57) ∨ (65 ≤ c.toNat ∧ c.toNat ≤ 90) ∨ c.toNat = 95 ∨ (97 ≤ c.toNat ∧ c.toNat ≤ 122) := by
  have hlow : c = '_' ↔ c.toNat = 95 := by
    rw [← Char.toNat_inj]
    rfl
  simp only [continuesIdent, Char.isAlphanum, isAlpha_iff, Char.isDigit, Bool.or_eq_true, Bool.and_eq_true,
    decide_eq_true_eq, UInt32.le_iff_toNat_le, beq_iff_eq, hlow, Char.toNat]
  have h0 : '0'.val.toNat = 48 := rfl
  have h9 : '9'.val.toNat = 57 := rfl
  omega

theorem isBlank_eq_false_of_continuesIdent (h : continuesIdent c) : isBlank c = false := by
  rw [continuesIdent_iff] at h
  simp only [isBlank, Bool.or_eq_false_iff, Bool.and_eq_false_iff, decide_eq_false_iff_not, beq_eq_false_iff_ne]
  omega

theorem startsSpace_eq_false_of_not_isBlank (h : isBlank c = false) : startsSpace c = false :=
  startsSpace_eq_false (p := (!isBlank ·)) (by rw [h]; rfl) rfl

/-- A character starts the same token after white space, unless blank or `#`. -/
theorem start_of_not_isBlank (h : isBlank c = false) (hc : c ≠ '#') (lineStart inSpace : Bool) :
    Mode.start lineStart inSpace c = Mode.start false false c := by
  have hf : c ≠ '\x0c' := by
    rintro rfl
    exact absurd h (by decide)
  simp [Mode.start, startsSpace_eq_false_of_not_isBlank h, hf, hc]

/-- A character of a name starts a name or a number. -/
theorem start_of_continuesIdent (hc : continuesIdent c) (lineStart inSpace : Bool) :
    Mode.start lineStart inSpace c = if startsIdent c then some .word
      else if c.isDigit then some (.number false false (c == '0')) else some (.code false false) := by
  have hbl := isBlank_eq_false_of_continuesIdent hc
  rw [start_of_not_isBlank hbl (ne_of_holds hc (by decide))]
  have hh := ne_of_holds hc (d := '#') (by decide)
  have hsl := ne_of_holds hc (d := '/') (by decide)
  have hpt := ne_of_holds hc (d := '.') (by decide)
  have hdbl := ne_of_holds hc (d := '"') (by decide)
  have hsing := ne_of_holds hc (d := '\'') (by decide)
  simp [Mode.start, startsSpace_eq_false_of_not_isBlank hbl, hh, hsl, hpt, hdbl, hsing]

theorem start_ident (h : startsIdent c) (lineStart inSpace : Bool) : Mode.start lineStart inSpace c = some .word := by
  rw [start_of_continuesIdent (continuesIdent_of_startsIdent h), if_pos h]

theorem start_digit (h : c.isDigit) (lineStart inSpace : Bool) :
    Mode.start lineStart inSpace c = some (.number false false (c == '0')) := by
  rw [start_of_continuesIdent (continuesIdent_of_isDigit h), startsIdent_eq_false_of_isDigit h, if_neg Bool.false_ne_true,
    if_pos h]

/-- A character that is no bracket leaves the open groups. -/
theorem turn_eq_self (ho : openedBy? c = none) (hc : closedBy? c = none) : turn s c = some s := by
  simp [turn, ho, hc]

theorem turn_of_holds {p : Char → Bool} (h : p c) (hp : ['(', ')', '\x7b', '\x7d', '[', ']'].all (!p ·))
    (s : List Bracket) : turn s c = some s := by
  refine turn_eq_self ?_ ?_
  · unfold openedBy?
    split <;> simp_all
  · unfold closedBy?
    split <;> simp_all

theorem turn_of_continuesIdent (h : continuesIdent c) (s : List Bracket) : turn s c = some s :=
  turn_of_holds h (by decide) s

theorem turn_of_isBlank (h : isBlank c) (s : List Bracket) : turn s c = some s :=
  turn_of_holds h (by decide) s

/-! ## Steps -/

/-- A character that starts a new token is read as between tokens. -/
theorem next_of_fresh (h : m.fresh? c = some (lineStart, inSpace)) : next (m, s) c = next (.code lineStart inSpace, s) c := by
  have hc : (Mode.code lineStart inSpace).fresh? c = some (lineStart, inSpace) := rfl
  unfold next
  rw [h, hc]

theorem run_of_fresh (h : m.fresh? c = some (lineStart, inSpace)) :
    run (m, s) (c :: t) = run (.code lineStart inSpace, s) (c :: t) := by
  rw [run_cons, run_cons, next_of_fresh h]

theorem next_code (lineStart inSpace : Bool) (s : List Bracket) (c : Char) : next (.code lineStart inSpace, s) c =
      (Mode.start lineStart inSpace c).bind fun m => (turn s c).map fun s => (m, s) := by
  simp only [next, Mode.fresh?]
  cases Mode.start lineStart inSpace c with
  | none => rfl
  | some m => cases turn s c <;> rfl

theorem next_onward {n : Mode} (hf : m.fresh? c = none) (h : m.onward c = some n) (s : List Bracket) :
    next (m, s) c = some (n, s) := by
  simp [next, hf, h]

/-- A character with which no token goes on. -/
def breaks (c : Char) : Bool :=
  !continuesNumber true c && c != '/' && c != '*'

theorem continuesNumber_of_continuesIdent (h : continuesIdent c) (sign : Bool) : continuesNumber sign c := by
  simp only [continuesIdent, Bool.or_eq_true, beq_iff_eq] at h
  rcases h with h | rfl
  · simp [continuesNumber, h]
  · simp [continuesNumber]

theorem continuesNumber_true {sign : Bool} (h : continuesNumber sign c) : continuesNumber true c := by
  cases sign with
  | true => exact h
  | false =>
    simp only [continuesNumber, Bool.false_and, Bool.or_false] at h
    simp [continuesNumber, h]

theorem continuesIdent_eq_false_of_isBlank (h : isBlank c) : continuesIdent c = false :=
  eq_false_of_excludes isBlank_eq_false_of_continuesIdent h

theorem startsIdent_eq_false (h : continuesIdent c = false) : startsIdent c = false :=
  eq_false_of_imp continuesIdent_of_startsIdent h

theorem isDigit_eq_false (h : continuesIdent c = false) : c.isDigit = false :=
  eq_false_of_imp continuesIdent_of_isDigit h

theorem breaks_of_isBlank (h : isBlank c) : breaks c := by
  have hid := continuesIdent_eq_false_of_isBlank h
  simp only [continuesIdent, Bool.or_eq_false_iff] at hid
  have hpt := ne_of_holds h (d := '.') (by decide)
  have hlow := ne_of_holds h (d := '_') (by decide)
  have hq := ne_of_holds h (d := '\'') (by decide)
  have hplus := ne_of_holds h (d := '+') (by decide)
  have hminus := ne_of_holds h (d := '-') (by decide)
  have hsl := ne_of_holds h (d := '/') (by decide)
  have hstar := ne_of_holds h (d := '*') (by decide)
  simp [breaks, continuesNumber, hid.1, hpt, hlow, hq, hplus, hminus, hsl, hstar]

/-- Such a character starts a new token wherever a token can end. -/
theorem fresh_of_breaks (hm : m.isCode) (hc : breaks c) : ∃ lineStart inSpace, m.fresh? c = some (lineStart, inSpace) := by
  simp only [breaks, Bool.and_eq_true, Bool.not_eq_true', bne_iff_ne] at hc
  obtain ⟨⟨hnum, hsl⟩, hstar⟩ := hc
  have hid : continuesIdent c = false := eq_false_of_imp (continuesNumber_of_continuesIdent · true) hnum
  have hdig := isDigit_eq_false hid
  cases m with
  | code lineStart inSpace => exact ⟨lineStart, inSpace, rfl⟩
  | slash => exact ⟨false, false, by simp [Mode.fresh?, hsl, hstar]⟩
  | point => exact ⟨false, false, by simp [Mode.fresh?, hdig]⟩
  | word => exact ⟨false, false, by simp [Mode.fresh?, hid]⟩
  | number hex sign zero =>
    have hsign : continuesNumber sign c = false := eq_false_of_imp continuesNumber_true hnum
    exact ⟨false, false, by simp [Mode.fresh?, hsign]⟩
  | _ => nomatch hm

theorem next_lineFeed (h : m.settles) (s : List Bracket) : next (m, s) '\n' = some (.code true true, s) := by
  obtain ⟨lineStart, inSpace, hf⟩ : ∃ lineStart inSpace, m.fresh? '\n' = some (lineStart, inSpace) := by
    unfold Mode.settles at h
    split at h
    · exact ⟨false, false, rfl⟩
    · exact ⟨false, false, rfl⟩
    · exact fresh_of_breaks h (by decide)
  rw [next_of_fresh hf, next_code]
  simp [Mode.start, startsSpace, turn_of_isBlank (c := '\n') (by decide)]

/-- Between tokens, a blank leaves the open groups. -/
theorem next_isBlank (hm : m.isCode) (hc : isBlank c) (s : List Bracket) :
    ∃ lineStart inSpace, next (m, s) c = some (.code lineStart inSpace, s) := by
  obtain ⟨lineStart, inSpace, hf⟩ := fresh_of_breaks hm (breaks_of_isBlank hc)
  have hid := continuesIdent_eq_false_of_isBlank hc
  have hh := ne_of_holds hc (d := '#') (by decide)
  have hsl := ne_of_holds hc (d := '/') (by decide)
  have hpt := ne_of_holds hc (d := '.') (by decide)
  have hdbl := ne_of_holds hc (d := '"') (by decide)
  have hsing := ne_of_holds hc (d := '\'') (by decide)
  rw [next_of_fresh hf, next_code, turn_of_isBlank hc]
  unfold Mode.start
  by_cases hsp : (startsSpace c || inSpace && c == '\x0c')
  · rw [if_pos hsp]
    exact ⟨_, _, rfl⟩
  · rw [if_neg hsp, if_neg hh, if_neg hsl, if_neg hpt, if_neg (by simp [hdbl, hsing]),
      if_neg (by simp [startsIdent_eq_false hid]), if_neg (by simp [isDigit_eq_false hid])]
    exact ⟨_, _, rfl⟩

theorem run_code_allBlank (ht : allBlank t) (lineStart inSpace : Bool) (s : List Bracket) :
    ∃ lineStart' inSpace', run (.code lineStart inSpace, s) t = some (.code lineStart' inSpace', s) := by
  induction t generalizing lineStart inSpace with
  | nil => exact ⟨lineStart, inSpace, rfl⟩
  | cons c t ih =>
    simp only [allBlank, all_cons, Bool.and_eq_true] at ht
    obtain ⟨lineStart', inSpace', hn⟩ := next_isBlank (m := .code lineStart inSpace) rfl ht.1 s
    rw [run_cons, hn]
    exact ih ht.2 lineStart' inSpace'

/-- Blanks that are read between tokens leave the open groups. -/
theorem run_allBlank (hm : m.isCode) (ht : allBlank t) (s : List Bracket) : ∃ m', run (m, s) t = some (m', s) ∧ m'.isCode := by
  cases t with
  | nil => exact ⟨m, rfl, hm⟩
  | cons c t =>
    simp only [allBlank, all_cons, Bool.and_eq_true] at ht
    obtain ⟨lineStart, inSpace, hn⟩ := next_isBlank hm ht.1 s
    obtain ⟨lineStart', inSpace', hr⟩ := run_code_allBlank ht.2 lineStart inSpace s
    exact ⟨.code lineStart' inSpace', by rw [run_cons, hn]; exact hr, rfl⟩

/-! ## More places -/

/-- The second mode reads what the first does. -/
inductive Mode.Le : Mode → Mode → Prop where
  | refl (m : Mode) : Le m m
  | code {lineStart inSpace lineStart' inSpace' : Bool} (hl : lineStart = true → lineStart' = true)
      (hs : inSpace = true → inSpace' = true) : Le (.code lineStart inSpace) (.code lineStart' inSpace')

theorem Mode.Le.isCode (h : m.Le m') (hm : m.isCode) : m'.isCode := by
  cases h with
  | refl => exact hm
  | code => rfl

theorem start_mono {lineStart' inSpace' : Bool} (hl : lineStart → lineStart')
    (hs : inSpace → inSpace') (h : Mode.start lineStart inSpace c = some m) :
    ∃ m', Mode.start lineStart' inSpace' c = some m' ∧ m.Le m' := by
  by_cases hsp : startsSpace c
  · simp only [Mode.start, hsp, Bool.true_or, if_true, Option.some.injEq] at h ⊢
    subst h
    refine ⟨_, rfl, .code ?_ id⟩
    simp only [Bool.or_eq_true]
    exact Or.imp_left hl
  by_cases hf : c = '\x0c'
  · subst hf
    cases inSpace with
    | true =>
      rw [hs rfl]
      cases h
      refine ⟨_, rfl, .code ?_ id⟩
      simpa using hl
    | false =>
      cases h
      cases inSpace' <;> exact ⟨_, rfl, .code nofun nofun⟩
  · simp only [Mode.start, hsp, beq_eq_false_iff_ne.2 hf, Bool.and_false] at h ⊢
    by_cases hh : c = '#'
    · subst hh
      cases lineStart with
      | true =>
        rw [hl rfl]
        exact ⟨m, h, .refl m⟩
      | false => nomatch h
    · rw [if_neg hh] at h ⊢
      exact ⟨m, h, .refl m⟩

theorem next_mono (hle : m.Le m₁) (h : next (m, s) c = some (m', s')) : ∃ m₁', next (m₁, s) c = some (m₁', s') ∧ m'.Le m₁' := by
  cases hle with
  | refl => exact ⟨m', h, .refl m'⟩
  | code hl hs =>
    rw [next_code] at h ⊢
    obtain ⟨m₂, hst, hturn⟩ := Option.bind_eq_some_iff.1 h
    obtain ⟨s₂, hturn, heq⟩ := Option.map_eq_some_iff.1 hturn
    cases heq
    obtain ⟨m₁', hst', hle⟩ := start_mono hl hs hst
    exact ⟨m₁', by simp [hst', hturn], hle⟩

theorem run_mono (hle : m.Le m₁) (h : run (m, s) t = some (m', s')) : ∃ m₁', run (m₁, s) t = some (m₁', s') ∧ m'.Le m₁' := by
  induction t generalizing m m₁ s with
  | nil =>
    cases h
    exact ⟨m₁, rfl, hle⟩
  | cons c t ih =>
    obtain ⟨⟨m₂, s₂⟩, hn, hr⟩ := Option.bind_eq_some_iff.1 h
    obtain ⟨m₃, hn', hle'⟩ := next_mono hle hn
    obtain ⟨m₁', hr', hle''⟩ := ih hle' hr
    exact ⟨m₁', by rw [run_cons, hn']; exact hr', hle''⟩

theorem Mode.le_code (lineStart inSpace : Bool) : Mode.Le (.code false false) (.code lineStart inSpace) :=
  .code nofun nofun

/-! ## Texts that close what they open -/

/-- The text can stand between tokens and closes what it opens. -/
def Closes (t : Text) : Prop :=
  ∃ m, run (.code false false, []) t = some (m, []) ∧ m.isCode = true

theorem closes_nil : Closes [] :=
  ⟨_, rfl, rfl⟩

theorem Closes.run (h : Closes t) (lineStart inSpace : Bool) (s : List Bracket) :
    ∃ m, run (.code lineStart inSpace, s) t = some (m, s) ∧ m.isCode := by
  obtain ⟨m, hr, hm⟩ := h
  obtain ⟨m', hr', hle⟩ := run_mono (Mode.le_code lineStart inSpace) (run_around hr s)
  exact ⟨m', hr', hle.isCode hm⟩

/-- The text starts with nothing that goes on with a token. -/
def Apart (t : Text) : Prop :=
  ∀ c, t.head? = some c → breaks c = true

/-- A text read after white space is read after any token it does not go on. -/
theorem Closes.run_of_apart (h : Closes t) (ht : Apart t) (hm : m.isCode) :
    ∃ m', Scan.run (m, s) t = some (m', s) ∧ m'.isCode := by
  cases t with
  | nil => exact ⟨m, rfl, hm⟩
  | cons c t =>
    obtain ⟨lineStart, inSpace, hf⟩ := fresh_of_breaks hm (ht c rfl)
    rw [run_of_fresh hf]
    exact h.run lineStart inSpace s

theorem Closes.append (hx : Closes x) (hy : Closes y) (h : Apart y) : Closes (x ++ y) := by
  obtain ⟨m, hr, hm⟩ := hx
  obtain ⟨m', hr', hm'⟩ := hy.run_of_apart h hm
  exact ⟨m', by rw [run_append_of_eq hr]; exact hr', hm'⟩

/-- A text that ends in white space or punctuation goes before any. -/
theorem Closes.append_of_code (hx : Scan.run (.code false false, []) x = some (.code lineStart inSpace, []))
    (hy : Closes y) : Closes (x ++ y) := by
  obtain ⟨m', hr', hm'⟩ := hy.run lineStart inSpace []
  exact ⟨m', by rw [run_append_of_eq hx]; exact hr', hm'⟩

/-- Punctuation with which no token goes on is read after any token. -/
theorem next_punct (hm : m.isCode) (hc : breaks c)
    (hs : ∀ lineStart inSpace, Mode.start lineStart inSpace c = some (.code false false)) :
    next (m, s) c = (turn s c).map fun s => (.code false false, s) := by
  obtain ⟨lineStart, inSpace, hf⟩ := fresh_of_breaks hm hc
  rw [next_of_fresh hf, next_code, hs]
  rfl

theorem next_open (hm : m.isCode) (hc : openedBy? c = some b) : next (m, s) c = some (.code false false, b :: s) := by
  unfold openedBy? at hc
  split at hc <;> cases hc <;> exact next_punct hm (by decide) (by decide)

theorem next_close (hm : m.isCode) (hc : closedBy? c = some b) : next (m, b :: s) c = some (.code false false, s) := by
  unfold closedBy? at hc
  split at hc <;> cases hc <;> exact next_punct hm (by decide) (by decide)

/-- Two texts around one that starts and ends a token of its own. -/
theorem Closes.sep {between : Text} (hx : Closes x) (hy : Closes y) (hap : between.head?.any breaks)
    (hr : Scan.run (.code false false, []) between = some (.code lineStart inSpace, [])) : Closes (x ++ between ++ y) := by
  rw [append_assoc]
  refine hx.append (.append_of_code hr hy) ?_
  cases between with
  | nil => nomatch hap
  | cons d between =>
    intro c hc
    cases hc
    exact hap

/-- A text in brackets, with what stands before it. -/
theorem run_group (hx : run q x = some (m, s)) (hm : m.isCode) (ho : openedBy? o = some b)
    (hc : closedBy? c = some b) (hy : run (.code false false, b :: s) y = some (m', b :: s))
    (hm' : m'.isCode) : run q (x ++ o :: y ++ [c]) = some (.code false false, s) := by
  rw [append_assoc, run_append_of_eq hx, cons_append, run_cons, next_open hm ho, Option.bind_some,
    run_append_of_eq hy, run_cons, next_close hm' hc]
  rfl

theorem Closes.group (h : Closes x) (ho : openedBy? o = some b) (hc : closedBy? c = some b) : Closes (o :: x ++ [c]) := by
  obtain ⟨m, hr, hm⟩ := h.run false false [b]
  exact ⟨_, run_group (x := []) rfl rfl ho hc hr hm, rfl⟩

/-! ## Names -/

/-- A name in C: a letter or `_`, and then letters, digits and `_`. -/
def isName (t : Text) : Bool :=
  t.head?.any startsIdent && t.all continuesIdent

theorem run_word (h : t.all continuesIdent) (s : List Bracket) : run (.word, s) t = some (.word, s) := by
  induction t with
  | nil => rfl
  | cons c t ih =>
    simp only [all_cons, Bool.and_eq_true] at h
    rw [run_cons, next_onward (by simp [Mode.fresh?, h.1]) rfl]
    exact ih h.2

theorem run_name (h : isName t) (lineStart inSpace : Bool) (s : List Bracket) :
    run (.code lineStart inSpace, s) t = some (.word, s) := by
  cases t with
  | nil => nomatch h
  | cons c t =>
    simp only [isName, all_cons, Bool.and_eq_true] at h
    obtain ⟨hst, hc, hall⟩ := h
    rw [run_cons, next_code, start_ident hst, turn_of_continuesIdent hc]
    exact run_word hall s

theorem closes_name (h : isName t) : Closes t :=
  ⟨.word, run_name h false false [], rfl⟩

theorem isName_append (hx : isName x) (hy : y.all continuesIdent) : isName (x ++ y) := by
  cases x with
  | nil => nomatch hx
  | cons c x =>
    simp only [isName, all_cons, Bool.and_eq_true] at hx
    rw [isName, all_append, all_cons, hx.2.1, hx.2.2, hy]
    simpa using hx.1

end Scan

end Declass
