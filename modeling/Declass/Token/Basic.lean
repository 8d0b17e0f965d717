import Declass.Basic

/-!
# Tokens

A token is a piece of source text with its kind and the byte offset at which it starts. White space, comments and
directives are tokens too, so that the tokens of a text, put one after the other, are the text.
-/

namespace Declass

/-- The kind of a token. A directive is a `#` line with the lines that continue it. -/
inductive TokenKind where
  | ident
  | number
  | string
  | char
  | punct
  | comment
  | directive
  | space
deriving DecidableEq

/-- A piece of source text, its kind, and the byte offset of its first character. -/
structure Token where
  kind : TokenKind
  text : Text
  start : Nat
deriving DecidableEq

namespace Token

def stop (t : Token) : Nat :=
  t.start + t.text.byteSize

/-- White space, comments and directives. -/
def isTrivia (t : Token) : Bool :=
  match t.kind with
  | .space | .comment | .directive => true
  | _ => false

/-- A name or a keyword. -/
def isIdent (t : Token) : Bool :=
  t.kind == .ident

def isWord (t : Token) (w : Text) : Bool :=
  t.isIdent && t.text == w

def isPunct (t : Token) (p : Text) : Bool :=
  t.kind == .punct && t.text == p

def isPunctOf (t : Token) (ps : List Text) : Bool :=
  ps.any t.isPunct

def isWordOf (t : Token) (ws : List Text) : Bool :=
  ws.any t.isWord

def spelling (ts : List Token) : Text :=
  ts.flatMap Token.text

/-- The tokens as a type name: one space between, none next to `::`. -/
def joined : List Token → Text
  | [] => []
  | [t] => t.text
  | t :: u :: ts =>
    let gap : Text := if u.isPunct "::" || t.isPunct "::" then [] else " "
    t.text ++ gap ++ joined (u :: ts)

end Token

end Declass
