import Declass.Toml.Value

/-!
# TOML moments

Dates, times of day, and both together with an optional offset from universal time. Days are checked against the
calendar; a minute may have a sixty-first second.
-/

namespace Declass.Toml

def bounded? (n low high : Nat) (t : Text) : Option (Nat × Text) :=
  let digits := t.take n
  let value := Text.digitsValue 10 digits
  if digits.length = n && digits.all Char.isDigit && low ≤ value && value ≤ high then some (value, t.drop n) else none

def afterOne? (choice : Text) : Text → Option Text
  | c :: rest => if choice.elem c then some rest else none
  | [] => none

def daysIn (year month : Nat) : Nat :=
  let isLeap := year % 4 = 0 && (year % 100 ≠ 0 || year % 400 = 0)
  if month = 2 then (if isLeap then 29 else 28)
  else if month = 4 || month = 6 || month = 9 || month = 11 then 30
  else 31

def afterDate? (t : Text) : Option Text := do
  let (year, t) ← bounded? 4 0 9999 t
  let t ← afterOne? "-" t
  let (month, t) ← bounded? 2 1 12 t
  let t ← afterOne? "-" t
  let (_, t) ← bounded? 2 1 (daysIn year month) t
  return t

def afterTime? (t : Text) : Option Text := do
  let (_, t) ← bounded? 2 0 23 t
  let t ← afterOne? ":" t
  let (_, t) ← bounded? 2 0 59 t
  let t ← afterOne? ":" t
  let (_, t) ← bounded? 2 0 60 t
  match t with
  | '.' :: c :: rest => if c.isDigit then some (rest.dropWhile Char.isDigit) else some t
  | _ => some t

def afterOffset? (t : Text) : Option Text :=
  (afterOne? "Zz" t).or do
    let t ← afterOne? "+-" t
    let (_, t) ← bounded? 2 0 23 t
    let t ← afterOne? ":" t
    let (_, t) ← bounded? 2 0 59 t
    return t

def afterDayTime? (t : Text) : Option Text := do
  let t ← afterOne? "Tt " t
  let t ← afterTime? t
  return (afterOffset? t).getD t

def moment? (t : Text) : Option (Value × Text) := do
  let rest ← ((afterDate? t).map fun rest => (afterDayTime? rest).getD rest).or (afterTime? t)
  return (.moment (t.take (t.length - rest.length)), rest)

end Declass.Toml
