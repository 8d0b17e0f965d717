import Declass.Token.Basic

/-!
# Cutting a text into tokens

`Token.lexeme` finds the kind of the first token and how many characters follow its first one. No input is refused: a literal
stops at the end of its line and a comment at the end of the text.
-/

namespace Declass

namespace Token

/-- Space, tab, line feed, form feed or carriage return. -/
def isSpace (c : Char) : Bool :=
  c == ' ' || c == '\t' || c == '\n' || c == '\x0c' || c == '\r'

/-- A character that can start white space. A form feed only continues it. -/
def startsSpace (c : Char) : Bool :=
  c == ' ' || c == '\t' || c == '\n' || c == '\r'

def startsIdent (c : Char) : Bool :=
  c.isAlpha || c == '_'

def continuesIdent (c : Char) : Bool :=
  c.isAlphanum || c == '_'

/-- The number of characters before a line feed or the end. -/
def lineLength (t : Text) : Nat :=
  (t.takeWhile (· ≠ '\n')).length

/-- The number of characters through the next `*/`, or to the end. -/
def commentLength : Text → Nat
  | [] => 0
  | '*' :: '/' :: _ => 2
  | _ :: t => commentLength t + 1

/-- The number of characters through the closing `quote`, or up to a line feed. A backslash hides the next one. -/
def quotedLength (quote : Char) : Text → Nat
  | [] => 0
  | ['\\'] => 1
  | '\\' :: _ :: t => quotedLength quote t + 2
  | c :: t =>
    if c = '\n' then 0
    else if c = quote then 1
    else quotedLength quote t + 1

/-- A directive's line ends in a backslash, carriage returns aside. -/
def isContinued (line : Text) : Bool :=
  (line.reverse.dropWhile (· = '\r')).head? == some '\\'

/-- The number of characters of a directive, with the lines that continue it. -/
def directiveLength (t : Text) : Nat :=
  match _h : t.dropWhile (· ≠ '\n') with
  | [] => t.length
  | _ :: rest =>
    if isContinued (t.takeWhile (· ≠ '\n')) then lineLength t + 1 + directiveLength rest else lineLength t
termination_by t.length
decreasing_by
  have hd : (t.dropWhile (· ≠ '\n')).length ≤ t.length := (List.dropWhile_suffix _).length_le
  rw [_h, List.length_cons] at hd
  omega

/-- The number of characters that continue a number after `prev`: a sign after an exponent mark unless `hex`, a quote before a
digit or a letter. -/
def numberLength (hex : Bool) (prev : Char) : Text → Nat
  | [] => 0
  | c :: t =>
    let sign := (c == '+' || c == '-') && (prev == 'e' || prev == 'E' || prev == 'p' || prev == 'P') && !hex
    let separator := c == '\'' && (t.head?.any Char.isAlphanum)
    if c.isAlphanum || c == '.' || c == '_' || sign || separator then numberLength hex c t + 1 else 0

/-- The kind of the token that starts with `c`, and how many characters after `c` belong to it. -/
def lexeme (lineStart : Bool) (c : Char) (rest : Text) : TokenKind × Nat :=
  if startsSpace c then (.space, (rest.takeWhile isSpace).length)
  else if c = '/' ∧ rest.head? = some '/' then (.comment, lineLength rest)
  else if c = '/' ∧ rest.head? = some '*' then (.comment, commentLength rest.tail + 1)
  else if c = '#' ∧ lineStart then (.directive, directiveLength (c :: rest) - 1)
  else if c = '"' then (.string, quotedLength '"' rest)
  else if c = '\'' then (.char, quotedLength '\'' rest)
  else if startsIdent c then (.ident, (rest.takeWhile continuesIdent).length)
  else if c.isDigit ∨ (c = '.' ∧ rest.head?.any Char.isDigit) then
    (.number, numberLength (c == '0' && rest.head? == some 'x') c rest)
  else if (c = ':' ∧ rest.head? = some ':') ∨ (c = '-' ∧ rest.head? = some '>') then (.punct, 1)
  else (.punct, 0)

/-- If a directive can start after a token: a line feed in white space makes a line's start. -/
def lineStartAfter (lineStart : Bool) (t : Token) : Bool :=
  t.kind == .space && (lineStart || t.text.any (· == '\n'))

/-- The tokens of a text that starts at byte offset `offset`. -/
def tokenizeFrom (lineStart : Bool) (offset : Nat) : Text → List Token
  | [] => []
  | c :: rest =>
    let (kind, n) := lexeme lineStart c rest
    let token : Token := { kind, text := c :: rest.take n, start := offset }
    token :: tokenizeFrom (lineStartAfter lineStart token) token.stop (rest.drop n)
termination_by t => t.length
decreasing_by simp only [List.length_drop, List.length_cons]; omega

end Token

def tokenize (t : Text) : List Token :=
  Token.tokenizeFrom true 0 t

namespace Token

theorem spelling_tokenizeFrom (lineStart : Bool) (offset : Nat) (t : Text) :
    spelling (tokenizeFrom lineStart offset t) = t := by
  induction h : t.length using Nat.strongRecOn generalizing t lineStart offset with
  | ind n ih =>
    cases t with
    | nil => simp [tokenizeFrom, spelling]
    | cons c rest =>
      have hlt : (rest.drop (lexeme lineStart c rest).2).length < n := by
        rw [← h]
        simp only [List.length_drop, List.length_cons]
        omega
      have key := ih _ hlt
      simp only [spelling] at key
      simp [tokenizeFrom, spelling, key, List.take_append_drop]

/-- The tokens of a text, put one after the other, are the text. -/
theorem spelling_tokenize (t : Text) : spelling (tokenize t) = t :=
  spelling_tokenizeFrom true 0 t

end Token

end Declass
