import Declass.Token.Basic

/-!
# Matching brackets

The three kinds of brackets, and the position of the token that closes a group. A group is closed by counting brackets
of its own kind only, so `( ] )` is a group.
-/

namespace Declass

inductive Bracket where
  | round
  | curly
  | square
deriving DecidableEq

namespace Bracket

def opening : Bracket → Text
  | round => "("
  | curly => "\x7b"
  | square => "["

def closing : Bracket → Text
  | round => ")"
  | curly => "\x7d"
  | square => "]"

def opened? (t : Token) : Option Bracket :=
  [round, curly, square].find? fun b => t.isPunct b.opening

def closed? (t : Token) : Option Bracket :=
  [round, curly, square].find? fun b => t.isPunct b.closing

end Bracket

namespace Token

/-- How far the token stands that closes the innermost of the `depth + 1` open groups of kind `b`. -/
def closeWithin (b : Bracket) : Nat → List Token → Option Nat
  | _, [] => none
  | depth, t :: ts =>
    if t.isPunct b.opening then (closeWithin b (depth + 1) ts).map (· + 1)
    else if t.isPunct b.closing then
      match depth with
      | 0 => some 0
      | depth + 1 => (closeWithin b depth ts).map (· + 1)
    else (closeWithin b depth ts).map (· + 1)

/-- The position of the token that closes the group opened at position `k`. -/
def matchingClose (ts : List Token) (k : Nat) : Option Nat :=
  match ts[k]?.bind Bracket.opened? with
  | none => none
  | some b => (closeWithin b 0 (ts.drop (k + 1))).map (· + (k + 1))

theorem lt_of_matchingClose {ts : List Token} {k c : Nat} (h : matchingClose ts k = some c) : k < c := by
  unfold matchingClose at h
  split at h
  · simp at h
  · obtain ⟨n, _, rfl⟩ := Option.map_eq_some_iff.1 h
    omega

end Token

end Declass
