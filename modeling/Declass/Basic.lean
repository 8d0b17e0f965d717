/-!
# Texts and tables

A text is the list of its characters; positions in answers are byte offsets, measured by `Text.byteSize`. A table is a list whose
entries are told apart by a key, and `Table.upsert` is the only way in which it changes.
-/

namespace Declass

/-- A text is the list of its characters. -/
abbrev Text := List Char

/-- A string literal stands for the text it spells. -/
instance : Coe String Text := ⟨String.toList⟩

namespace Text

/-- The number of bytes that UTF-8 takes for the text. -/
def byteSize (t : Text) : Nat :=
  t.foldr (fun c n => c.utf8Size + n) 0

/-- What follows `lead` when the text starts with it. -/
def after? : Text → Text → Option Text
  | [], t => some t
  | _ :: _, [] => none
  | c :: lead, d :: t => if c = d then after? lead t else none

def startsWith (t lead : Text) : Bool :=
  (after? lead t).isSome

def endsWith (t tail : Text) : Bool :=
  tail.isSuffixOf t

/-- The text before and after the first `sep`. -/
def cut? (sep : Text) : Text → Option (Text × Text)
  | [] => (after? sep []).map fun rest => ([], rest)
  | c :: t =>
    match after? sep (c :: t) with
    | some rest => some ([], rest)
    | none => (cut? sep t).map fun (before, rest) => (c :: before, rest)

/-- The text before and after the last `sep`. -/
def cutLast? (sep : Text) : Text → Option (Text × Text)
  | [] => (after? sep []).map fun rest => ([], rest)
  | c :: t =>
    match cutLast? sep t with
    | some (before, rest) => some (c :: before, rest)
    | none => (after? sep (c :: t)).map fun rest => ([], rest)

def contains (t sub : Text) : Bool :=
  (cut? sub t).isSome

/-- The pieces between the occurrences of `sep`. -/
def splitOn (sep : Text) : Text → List Text
  | [] => [[]]
  | c :: t =>
    if startsWith (c :: t) sep then [] :: splitOn sep (t.drop (sep.length - 1))
    else
      match splitOn sep t with
      | [] => [[c]]
      | piece :: pieces => (c :: piece) :: pieces
termination_by t => t.length
decreasing_by all_goals (simp only [List.length_drop, List.length_cons]; omega)

/-- The texts one after the other, with `sep` between neighbours. -/
abbrev join (sep : Text) (ts : List Text) : Text :=
  List.intercalate sep ts

/-- The lines of the text. After the last line feed a line is never empty. -/
def lines : Text → List Text
  | [] => []
  | '\n' :: t => [] :: lines t
  | '\r' :: '\n' :: t => [] :: lines t
  | c :: t =>
    match lines t with
    | [] => [[c]]
    | line :: rest => (c :: line) :: rest

/-- The text without the characters at its end that satisfy `p`. -/
def dropEndWhile (p : Char → Bool) (t : Text) : Text :=
  (t.reverse.dropWhile p).reverse

/-- The longest end of the text whose characters all satisfy `p`. -/
def takeEndWhile (p : Char → Bool) (t : Text) : Text :=
  (t.reverse.takeWhile p).reverse

def toUpper (t : Text) : Text :=
  t.map Char.toUpper

def toLower (t : Text) : Text :=
  t.map Char.toLower

/-- Two texts that differ at most in the case of ASCII letters. -/
def eqIgnoringCase (s t : Text) : Bool :=
  toLower s == toLower t

/-! ## Blanks -/

/-- The character has the Unicode property `White_Space`. -/
def isBlank (c : Char) : Bool :=
  let n := c.toNat
  (0x9 ≤ n && n ≤ 0xD) || n == 0x20 || n == 0x85 || n == 0xA0 || n == 0x1680 || (0x2000 ≤ n && n ≤ 0x200A) ||
    n == 0x2028 || n == 0x2029 || n == 0x202F || n == 0x205F || n == 0x3000

def trimStart (t : Text) : Text :=
  t.dropWhile isBlank

def trimEnd (t : Text) : Text :=
  dropEndWhile isBlank t

def trim (t : Text) : Text :=
  trimEnd (trimStart t)

def allBlank (t : Text) : Bool :=
  t.all isBlank

/-- The longest pieces without a blank. -/
def words (t : Text) : List Text :=
  (List.splitOnP isBlank t).filter (· ≠ [])

/-- The words of the text with one space between neighbours. -/
def squeeze (t : Text) : Text :=
  join " " (words t)

def withoutBlanks (t : Text) : Text :=
  t.filter fun c => !isBlank c

/-! ## Decimal numerals -/

def ofNat (n : Nat) : Text :=
  Nat.toDigits 10 n

def ofInt : Int → Text
  | .ofNat n => ofNat n
  | .negSucc n => '-' :: ofNat (n + 1)

/-- The text is a numeral: digits, and at least one. -/
def isNumeral (t : Text) : Bool :=
  !t.isEmpty && t.all Char.isDigit

/-- The value of a text of digits in a base up to sixteen. -/
def digitsValue (base : Nat) (t : Text) : Nat :=
  t.foldl (fun n c => n * base + digitValue c) 0
where
  digitValue (c : Char) : Nat :=
    if c.isDigit then c.toNat - '0'.toNat
    else if c.isLower then c.toNat - 'a'.toNat + 10
    else c.toNat - 'A'.toNat + 10

def readNat? (t : Text) : Option Nat :=
  if isNumeral t then some (digitsValue 10 t) else none

/-- The number of 64-bit words. -/
def wordCount : Nat := Nat.pow 2 64

/-- The number of 64-bit words with sign that are not negative. -/
def signedCount : Nat := Nat.pow 2 63

/-- The 64-bit number that the text spells, with an optional `+` before it. -/
def readWord? (t : Text) : Option Nat := do
  let n ← readNat? ((after? "+" t).getD t)
  guard (n < wordCount)
  return n

/-- The integer in the range of 64-bit words with sign that the text spells. -/
def readInteger? (t : Text) : Option Int := do
  let n ← readSigned t
  guard (-(signedCount : Int) ≤ n && n < signedCount)
  return n
where
  readSigned : Text → Option Int
    | '-' :: digits => (readNat? digits).map fun n => -(n : Int)
    | '+' :: digits => (readNat? digits).map fun n => (n : Int)
    | digits => (readNat? digits).map fun n => (n : Int)

end Text

/-! ## Tables -/

namespace Table

variable {α : Type}

/-- Edits the first entry that satisfies `p`, else adds `fresh` at the end. -/
def upsert (p : α → Bool) (f : α → α) (fresh : α) : List α → List α
  | [] => [fresh]
  | x :: xs => if p x then f x :: xs else x :: upsert p f fresh xs

/-- An edit that keeps the key adds at most one key, at the end. -/
theorem map_upsert {β : Type} (key : α → β) (p : α → Bool) (f : α → α) (fresh : α) (hf : ∀ x, key (f x) = key x)
    (xs : List α) :
    (upsert p f fresh xs).map key = if xs.any p then xs.map key else xs.map key ++ [key fresh] := by
  induction xs with
  | nil => simp [upsert]
  | cons x xs ih =>
    by_cases h : p x
    · simp [upsert, h, hf]
    · by_cases h' : xs.any p <;> simp [upsert, h, h', ih]

end Table

end Declass
