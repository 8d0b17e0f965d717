import Declass.Token.Bracket
import Declass.Token.Lexer

/-!
# Fragments

A fragment is a lexed text seen through its significant tokens: the tokens that are not trivia, in order, and the gaps
of trivia before, between and after them. Everything that reads code looks at a fragment by the position of a
significant token.
-/

namespace Declass

/-- The significant tokens of a text, and the trivia before each and after the last. -/
structure Fragment where
  gaps : List Text
  tokens : List Token
deriving DecidableEq

namespace Fragment

/-- Gaps and tokens of a token list, where `lead` is the trivia already passed. -/
def gather (lead : Text) : List Token → List Text × List Token
  | [] => ([lead], [])
  | t :: ts =>
    if t.isTrivia then gather (lead ++ t.text) ts
    else
      let (gaps, tokens) := gather [] ts
      (lead :: gaps, t :: tokens)

def ofText (t : Text) : Fragment :=
  let (gaps, tokens) := gather [] (tokenize t)
  { gaps, tokens }

def weave : List Text → List Token → Text
  | [], _ => []
  | gap :: _, [] => gap
  | gap :: gaps, t :: ts => gap ++ t.text ++ weave gaps ts

def spelling (F : Fragment) : Text :=
  weave F.gaps F.tokens

theorem weave_gather (lead : Text) (ts : List Token) :
    weave (gather lead ts).1 (gather lead ts).2 = lead ++ Token.spelling ts := by
  induction ts generalizing lead with
  | nil => simp [gather, weave, Token.spelling]
  | cons t ts ih =>
    by_cases h : t.isTrivia
    · simp [gather, h, ih, Token.spelling, List.append_assoc]
    · simp [gather, h, weave, ih, Token.spelling, List.append_assoc]

/-- A fragment keeps its text. -/
theorem spelling_ofText (t : Text) : (ofText t).spelling = t := by
  simp [ofText, spelling, weave_gather, Token.spelling_tokenize]

variable (F : Fragment)

def size : Nat :=
  F.tokens.length

def tok? (k : Nat) : Option Token :=
  F.tokens[k]?

theorem lt_size_of_tok? {F : Fragment} {k : Nat} {t : Token} (h : F.tok? k = some t) : k < F.size :=
  (List.getElem?_eq_some_iff.1 h).1

def prev? : Nat → Option Token
  | 0 => none
  | k + 1 => F.tok? k

def isPunct (k : Nat) (p : Text) : Bool :=
  (F.tok? k).any (·.isPunct p)

theorem lt_size_of_isPunct {F : Fragment} {k : Nat} {p : Text} (h : F.isPunct k p = true) : k < F.size := by
  cases hk : F.tok? k with
  | none => simp [isPunct, hk] at h
  | some t => exact lt_size_of_tok? hk

def isIdent (k : Nat) : Bool :=
  (F.tok? k).any Token.isIdent

def ident? (k : Nat) : Option Text :=
  ((F.tok? k).filter Token.isIdent).map Token.text

/-- The position of the token that closes the group opened at `k`. -/
def close? (k : Nat) : Option Nat :=
  Token.matchingClose F.tokens k

theorem lt_of_close? {F : Fragment} {k c : Nat} (h : F.close? k = some c) : k < c :=
  Token.lt_of_matchingClose h

/-- The first position from `k` on with one of the marks `ps`. -/
def findPunct? (ps : List Text) (k : Nat) : Option Nat :=
  ((F.tokens.drop k).findIdx? (·.isPunctOf ps)).map (· + k)

/-- The trivia before the token at position `k`. -/
def gap (k : Nat) : Text :=
  F.gaps[k]?.getD []

/-- The text strictly between the tokens at positions `i` and `j`. -/
def between (i j : Nat) : Text :=
  weave ((F.gaps.drop (i + 1)).take (j - i)) ((F.tokens.drop (i + 1)).take (j - i - 1))

/-- The text before the token at position `k`. -/
def before (k : Nat) : Text :=
  weave (F.gaps.take (k + 1)) (F.tokens.take k)

end Fragment

end Declass
