import Declass.Basic

/-!
# TOML strings

The four ways to write a string: on one line or on several, with escapes between quotation marks or literally between
apostrophes. Each reader starts after the opening mark and gives the string and what follows its closing mark.
-/

namespace Declass.Toml

def isHexDigit (c : Char) : Bool :=
  c.isDigit || ('a' ≤ c && c ≤ 'f') || ('A' ≤ c && c ≤ 'F')

/-- A tab or a character from the space on that is no control character. -/
def isPlain (c : Char) : Bool :=
  c = '\t' || (' ' ≤ c && c ≠ Char.ofNat 0x7F)

def isGap (c : Char) : Bool :=
  c = ' ' || c = '\t'

def afterLineEnd? : Text → Option Text
  | '\n' :: rest => some rest
  | '\r' :: '\n' :: rest => some rest
  | _ => none

/-- The character with the number that `n` hexadecimal digits spell. -/
def hexEscape? (n : Nat) (t : Text) : Option (Char × Text) :=
  let digits := t.take n
  let code := Text.digitsValue 16 digits
  if digits.length = n && digits.all isHexDigit && code.isValidChar then some (Char.ofNat code, t.drop n) else none

/-- The character that an escape stands for, after its backslash. -/
def escape? : Text → Option (Char × Text)
  | 'b' :: rest => some (Char.ofNat 8, rest)
  | 't' :: rest => some ('\t', rest)
  | 'n' :: rest => some ('\n', rest)
  | 'f' :: rest => some (Char.ofNat 12, rest)
  | 'r' :: rest => some ('\r', rest)
  | '"' :: rest => some ('"', rest)
  | '\\' :: rest => some ('\\', rest)
  | 'u' :: rest => hexEscape? 4 rest
  | 'U' :: rest => hexEscape? 8 rest
  | _ => none

theorem length_of_hexEscape? {n : Nat} {t rest : Text} {c : Char} (h : hexEscape? n t = some (c, rest)) :
    rest.length ≤ t.length := by
  unfold hexEscape? at h
  dsimp only at h
  split at h
  · obtain ⟨_, rfl⟩ := Prod.mk.inj (Option.some.inj h)
    simp
  · nomatch h

/-- An escape takes at least one character. -/
theorem length_of_escape? {t rest : Text} {c : Char} (h : escape? t = some (c, rest)) : rest.length < t.length := by
  unfold escape? at h
  split at h
  case h_8 => exact Nat.lt_succ_of_le (length_of_hexEscape? h)
  case h_9 => exact Nat.lt_succ_of_le (length_of_hexEscape? h)
  case h_10 => nomatch h
  all_goals
    obtain ⟨_, rfl⟩ := Prod.mk.inj (Option.some.inj h)
    simp

/-- A string on one line between quotation marks. -/
def basic? : Text → Option (Text × Text)
  | [] => none
  | '"' :: rest => some ([], rest)
  | '\\' :: rest =>
    match h : escape? rest with
    | some (c, rest') =>
      have := length_of_escape? h
      (basic? rest').map fun (s, r) => (c :: s, r)
    | none => none
  | c :: rest => if isPlain c then (basic? rest).map fun (s, r) => (c :: s, r) else none
termination_by t => t.length
decreasing_by all_goals (simp only [List.length_cons]; omega)

/-- A string on one line between apostrophes. -/
def literal? : Text → Option (Text × Text)
  | [] => none
  | '\'' :: rest => some ([], rest)
  | c :: rest => if isPlain c then (literal? rest).map fun (s, r) => (c :: s, r) else none

/-- The marks at the end of a long string: three close it, up to two before belong to it. -/
def closing? (mark : Char) (t : Text) : Option (Text × Text) :=
  let n := (t.takeWhile (· = mark)).length
  if n < 3 then none
  else
    let extra := min (n - 3) 2
    some (List.replicate extra mark, t.drop (extra + 3))

/-- What follows blanks and line ends after a backslash. -/
def afterFoldedLine? (t : Text) : Option Text :=
  (afterLineEnd? (t.dropWhile isGap)).map skip
where
  /-- The text without the blanks and line ends at its start. -/
  skip : Text → Text
    | '\n' :: rest => skip rest
    | '\r' :: '\n' :: rest => skip rest
    | ' ' :: rest => skip rest
    | '\t' :: rest => skip rest
    | t => t

theorem length_of_afterLineEnd? {t rest : Text} (h : afterLineEnd? t = some rest) : rest.length < t.length := by
  unfold afterLineEnd? at h
  split at h
  · cases h
    simp
  · cases h
    simp only [List.length_cons]
    omega
  · nomatch h

theorem length_skip_le (t : Text) : (afterFoldedLine?.skip t).length ≤ t.length := by
  fun_induction afterFoldedLine?.skip t with
  | case1 rest ih => exact Nat.le_succ_of_le ih
  | case2 rest ih => exact Nat.le_succ_of_le (Nat.le_succ_of_le ih)
  | case3 rest ih => exact Nat.le_succ_of_le ih
  | case4 rest ih => exact Nat.le_succ_of_le ih
  | case5 t => exact Nat.le_refl _

theorem length_of_afterFoldedLine? {t rest : Text} (h : afterFoldedLine? t = some rest) : rest.length < t.length := by
  unfold afterFoldedLine? at h
  obtain ⟨r, hr, rfl⟩ := Option.map_eq_some_iff.1 h
  have h₁ := length_of_afterLineEnd? hr
  have h₂ := length_skip_le r
  have h₃ := (List.dropWhile_suffix (p := isGap) (l := t)).length_le
  omega

/-- A string on several lines between quotation marks. -/
def longBasic? : Text → Option (Text × Text)
  | [] => none
  | '\n' :: rest => (longBasic? rest).map fun (s, r) => ('\n' :: s, r)
  | '\r' :: '\n' :: rest => (longBasic? rest).map fun (s, r) => ('\n' :: s, r)
  | '\\' :: rest =>
    match hf : afterFoldedLine? rest with
    | some rest' =>
      have := length_of_afterFoldedLine? hf
      longBasic? rest'
    | none =>
      match h : escape? rest with
      | some (c, rest') =>
        have := length_of_escape? h
        (longBasic? rest').map fun (s, r) => (c :: s, r)
      | none => none
  | c :: rest =>
    if c = '"' && (closing? '"' (c :: rest)).isSome then closing? '"' (c :: rest)
    else if isPlain c then (longBasic? rest).map fun (s, r) => (c :: s, r)
    else none
termination_by t => t.length
decreasing_by all_goals (simp only [List.length_cons]; omega)

/-- A string on several lines between apostrophes. -/
def longLiteral? : Text → Option (Text × Text)
  | [] => none
  | '\n' :: rest => (longLiteral? rest).map fun (s, r) => ('\n' :: s, r)
  | '\r' :: '\n' :: rest => (longLiteral? rest).map fun (s, r) => ('\n' :: s, r)
  | c :: rest =>
    if c = '\'' && (closing? '\'' (c :: rest)).isSome then closing? '\'' (c :: rest)
    else if isPlain c then (longLiteral? rest).map fun (s, r) => (c :: s, r)
    else none

/-- A string in one of its four forms. A line end after the opening of a long one is left out. -/
def string? : Text → Option (Text × Text)
  | '"' :: '"' :: '"' :: rest => longBasic? ((afterLineEnd? rest).getD rest)
  | '\'' :: '\'' :: '\'' :: rest => longLiteral? ((afterLineEnd? rest).getD rest)
  | '"' :: rest => basic? rest
  | '\'' :: rest => literal? rest
  | _ => none

end Declass.Toml
