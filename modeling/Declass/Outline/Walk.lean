import Declass.Outline.Basic
import Declass.Token.Fragment

/-!
# Walks over a fragment

The jumps that reading declarations needs, over lists, names, qualifiers and dimensions, and back to the start of a declaration.
Each takes and gives positions of significant tokens.
-/

namespace Declass

/-- Builtin words that can end a type, so they are never a declared name. -/
def typeWords : List Text :=
  ["int", "char", "short", "long", "unsigned", "signed", "float", "double", "bool", "void", "const", "volatile"]

/-- Words that can stand between a parameter list and the body. -/
def functionQualifiers : List Text :=
  ["const", "volatile", "noexcept", "override", "final"]

namespace Token

/-- The number of tokens of `<...>`, which a `;` or a brace cuts off. -/
def anglesLength : Nat → List Token → Nat
  | _, [] => 0
  | depth, t :: ts =>
    if t.isPunct "<" then anglesLength (depth + 1) ts + 1
    else if t.isPunct ">" then if depth ≤ 1 then 1 else anglesLength (depth - 1) ts + 1
    else if t.isPunctOf [";", "\x7b"] then 0
    else anglesLength depth ts + 1

/-- A segment of a qualified name, `x` or `~x`, and its tokens. -/
def segment? : List Token → Option (Text × Nat)
  | [] => none
  | t :: ts =>
    if t.isIdent then some (t.text, 1)
    else if t.isPunct "~" then (ts.head?.filter isIdent).map fun u => ('~' :: u.text, 2)
    else none

/-- The segments of a qualified name, their tokens, and a `::` at its end. -/
def chain (ts : List Token) : List Text × Nat :=
  match segment? ts with
  | none => ([], 0)
  | some (name, n) =>
    match _h : ts[n]? with
    | none => ([name], n)
    | some t =>
      if t.isPunct "::" then
        let (names, m) := chain (ts.drop (n + 1))
        (name :: names, n + 1 + m)
      else ([name], n)
termination_by ts.length
decreasing_by
  have := (List.getElem?_eq_some_iff.1 _h).1
  simp only [List.length_drop]
  omega

/-- How far an initializer reaches: to a `;` or `,` outside brackets. -/
def exprLength : Nat → List Token → Option Nat
  | _, [] => none
  | depth, t :: ts =>
    if t.isPunctOf ["(", "[", "\x7b"] then (exprLength (depth + 1) ts).map (· + 1)
    else if t.isPunctOf [")", "]", "\x7d"] then (exprLength (depth - 1) ts).map (· + 1)
    else if depth = 0 && t.isPunctOf [";", ","] then some 0
    else (exprLength depth ts).map (· + 1)

end Token

namespace Fragment

variable (F : Fragment)

def skipAngles (k : Nat) : Nat :=
  k + Token.anglesLength 0 (F.tokens.drop k)

def chain (k : Nat) : List Text × Nat :=
  let (names, n) := Token.chain (F.tokens.drop k)
  (names, k + n)

theorem le_chain (k : Nat) : k ≤ (F.chain k).2 := by
  simp [chain]

/-- The position after the group at `k`, which may be a lone bracket. -/
def skipGroup (k : Nat) : Nat :=
  if F.isPunct k "(" then (F.close? k).elim (k + 1) (· + 1) else k

theorem le_skipGroup (k : Nat) : k ≤ F.skipGroup k := by
  unfold skipGroup
  split
  · cases h : F.close? k with
    | none => simp
    | some c =>
      have := lt_of_close? h
      simp only [Option.elim_some]
      omega
  · omega

/-- The position after what follows a parameter list. -/
def skipQualifiers (k : Nat) : Nat :=
  match _h : F.tok? k with
  | none => k
  | some t =>
    if t.isWordOf functionQualifiers || t.isPunct "&" || t.isWord "throw" then skipQualifiers (F.skipGroup (k + 1))
    else if t.isPunct "->" then (F.findPunct? ["\x7b", ";", ":"] k).getD F.size
    else k
termination_by F.size - k
decreasing_by
  have := lt_size_of_tok? _h
  have := F.le_skipGroup (k + 1)
  omega

/-- The bracket after the member initializer's name at `k`. -/
def initArgs (k : Nat) : Nat :=
  let next := (F.chain k).2
  if F.isPunct next "<" then F.skipAngles next else next

theorem le_initArgs (k : Nat) : k ≤ F.initArgs k := by
  have := F.le_chain k
  simp only [initArgs]
  split
  · simp only [skipAngles]
    omega
  · exact this

/-- The body's brace after the member initializers from `k` on. -/
def bodyAfterInits? (k : Nat) : Option Nat :=
  if (F.chain k).1.isEmpty then none
  else if F.isPunct (F.initArgs k) "(" || F.isPunct (F.initArgs k) "\x7b" then
    match _h : F.close? (F.initArgs k) with
    | none => none
    | some c =>
      if _hc : F.isPunct (c + 1) "," then bodyAfterInits? (c + 2)
      else if F.isPunct (c + 1) "\x7b" then some (c + 1)
      else none
  else none
termination_by F.size - k
decreasing_by
  have := F.le_initArgs k
  have := lt_of_close? _h
  have := lt_size_of_isPunct _hc
  omega

/-- The `[` around `k`, walking back; `depth` groups are open after `k`. -/
def squareOpenBefore? (depth : Nat) (k : Nat) : Option Nat :=
  match F.tok? k with
  | none => none
  | some t =>
    if t.isPunct "[" && depth ≤ 1 then some k
    else
      match k with
      | 0 => none
      | k + 1 =>
        let depth := if t.isPunct "]" then depth + 1 else if t.isPunct "[" then depth - 1 else depth
        squareOpenBefore? depth k

theorem le_of_squareOpenBefore? {F : Fragment} {depth k j : Nat} (h : F.squareOpenBefore? depth k = some j) :
    j ≤ k := by
  induction k generalizing depth with
  | zero =>
    unfold squareOpenBefore? at h
    split at h
    · simp at h
    · split at h
      · simp only [Option.some.injEq] at h
        omega
      · simp at h
  | succ k ih =>
    unfold squareOpenBefore? at h
    split at h
    · simp at h
    · split at h
      · simp only [Option.some.injEq] at h
        omega
      · have := ih h
        omega

def skipDimsBack? (k : Nat) : Option Nat :=
  if F.isPunct k "]" then
    match _h : F.squareOpenBefore? 0 k with
    | some (j + 1) => skipDimsBack? j
    | _ => none
  else some k
termination_by k
decreasing_by
  have := le_of_squareOpenBefore? _h
  omega

def skipDims (k : Nat) : Nat :=
  if _hk : F.isPunct k "[" then
    match _h : F.close? k with
    | none => k
    | some c => skipDims (c + 1)
  else k
termination_by F.size - k
decreasing_by
  have := lt_of_close? _h
  have := lt_size_of_isPunct _hk
  omega

/-- The first position of the declaration around `k`, walking back. -/
def declarationStart (depth : Nat) : Nat → Nat
  | 0 => 0
  | j + 1 =>
    match F.tok? j with
    | none => j + 1
    | some t =>
      if t.isPunctOf [")", "]"] then declarationStart (depth + 1) j
      else if t.isPunctOf ["(", "["] then declarationStart (depth - 1) j
      else if t.isPunct "\x7d" && (F.isPunct (j + 1) "," || depth > 0) then declarationStart (depth + 1) j
      else if t.isPunct "\x7b" && depth > 0 then declarationStart (depth - 1) j
      else if depth = 0 && t.isPunctOf [";", "\x7b", "\x7d"] then j + 1
      else declarationStart depth j

/-- The position before the `*` and `&` that end at `k`. -/
def skipPointersBack? : Nat → Option Nat
  | 0 => if F.isPunct 0 "*" || F.isPunct 0 "&" then none else some 0
  | k + 1 => if F.isPunct (k + 1) "*" || F.isPunct (k + 1) "&" then skipPointersBack? k else some (k + 1)

/-- A token that can stand after a declared name. -/
def endsDeclarator (k : Nat) : Bool :=
  (F.tok? k).any (·.isPunctOf ["(", "\x7b", "=", ",", ";", "["])

/-- The identifier before the first declarator around `k`. -/
def declaredType? (k : Nat) : Option Text := do
  let start := F.declarationStart 0 k
  let first ← (List.range' (start + 1) (k - start)).find? fun j => F.isIdent j && F.endsDeclarator (j + 1)
  let last ← F.skipPointersBack? (first - 1)
  F.ident? last

def exprEnd? (k : Nat) : Option Nat :=
  (Token.exprLength 0 (F.tokens.drop k)).map (· + k)

end Fragment

end Declass
