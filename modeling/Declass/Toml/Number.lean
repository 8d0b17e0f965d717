import Declass.Toml.Quoted
import Declass.Toml.Value

/-!
# TOML numbers

Integers in four bases, and numbers with a fraction or an exponent. A digit may be set off from the one before it by an
underscore. Integers have 64 bits; a fraction must not round to infinity, though it may round to minus infinity.
-/

namespace Declass.Toml

/-- The digits at the start of a text, without their underscores, and the rest. -/
def moreDigits (isDigit : Char → Bool) : Text → Text × Text
  | [] => ([], [])
  | '_' :: c :: rest =>
    if isDigit c then
      let (digits, rest) := moreDigits isDigit rest
      (c :: digits, rest)
    else ([], '_' :: c :: rest)
  | c :: rest =>
    if isDigit c then
      let (digits, rest) := moreDigits isDigit rest
      (c :: digits, rest)
    else ([], c :: rest)

def digits? (isDigit : Char → Bool) : Text → Option (Text × Text)
  | c :: rest => if isDigit c then some (moreDigits isDigit (c :: rest)) else none
  | [] => none

/-- An optional sign: whether it is a minus, and the rest. -/
def sign : Text → Bool × Text
  | '-' :: rest => (true, rest)
  | '+' :: rest => (false, rest)
  | t => (false, t)

/-- The digits of a decimal integer. A zero stands alone. -/
def decimal? : Text → Option (Text × Text)
  | '0' :: rest => some (['0'], rest)
  | t => digits? Char.isDigit t

/-- An integer that fits into 64 bits with sign. -/
def fit? (isMinus : Bool) (n : Nat) : Option Value :=
  if isMinus then (if n ≤ Text.signedCount then some (.integer (-(n : Int))) else none)
  else if n < Text.signedCount then some (.integer n) else none

/-- An integer in a base that its first two characters name. -/
def based? (base : Nat) (isDigit : Char → Bool) (t : Text) : Option (Value × Text) := do
  let (digits, rest) ← digits? isDigit t
  let v ← fit? false (Text.digitsValue base digits)
  return (v, rest)

def integer? : Text → Option (Value × Text)
  | '0' :: 'x' :: rest => based? 16 isHexDigit rest
  | '0' :: 'o' :: rest => based? 8 (fun c => '0' ≤ c && c ≤ '7') rest
  | '0' :: 'b' :: rest => based? 2 (fun c => c = '0' || c = '1') rest
  | t => do
    let (isMinus, t) := sign t
    let (digits, rest) ← decimal? t
    let v ← fit? isMinus (Text.digitsValue 10 digits)
    return (v, rest)

def exponent? : Text → Option (Int × Text)
  | c :: t =>
    if c = 'e' || c = 'E' then do
      let (isMinus, t) := sign t
      let (digits, rest) ← digits? Char.isDigit t
      let n : Int := Text.digitsValue 10 digits
      return (if isMinus then -n else n, rest)
    else none
  | [] => none

def fraction? : Text → Option (Text × Text)
  | '.' :: t => digits? Char.isDigit t
  | _ => none

/-- The least number that rounds to infinity: half a step above the largest double. -/
def infinityBound : Nat := Nat.pow 2 1024 - Nat.pow 2 970

/-- The number `m * 10 ^ e` rounds to infinity. Far from the bound, the count of digits decides. -/
def isInfinite (m : Nat) (e : Int) : Bool :=
  let places := (Text.ofNat m).length + e
  if m = 0 || places < 300 then false
  else if places > 320 then true
  else if e < 0 then m ≥ infinityBound * Nat.pow 10 e.natAbs
  else m * Nat.pow 10 e.natAbs ≥ infinityBound

/-- A number with a fraction, an exponent or both. -/
def fractional? (t : Text) : Option (Value × Text) := do
  let (isMinus, body) := sign t
  let (whole, rest) ← decimal? body
  let fraction := fraction? rest
  let (part, rest) := fraction.getD ([], rest)
  let power := exponent? rest
  guard (fraction.isSome || power.isSome)
  let (e, rest) := power.getD (0, rest)
  guard (isMinus || !isInfinite (Text.digitsValue 10 (whole ++ part)) (e - part.length))
  return (.float (t.take (t.length - rest.length)), rest)

/-- Infinity or not a number. -/
def special? (t : Text) : Option (Value × Text) := do
  let (_, body) := sign t
  let rest ← (Text.after? "inf" body).or (Text.after? "nan" body)
  return (.float (t.take (t.length - rest.length)), rest)

def number? (t : Text) : Option (Value × Text) :=
  (fractional? t).or ((special? t).or (integer? t))

end Declass.Toml
