import Declass.Basic

/-!
# UTF-8

The reader goes through the bytes once and gives characters and defects, one for each longest run of bytes that starts a character
and cannot be continued. A lossy reader shows each defect as the replacement character.
-/

namespace Declass.Text

/-- A character begun: its bits, the bytes owed, the next one's bounds. -/
structure OpenChar where
  bits : Nat
  owed : Nat
  low : Nat := 0x80
  high : Nat := 0xBF
deriving DecidableEq

/-- What a byte is at the start of a character. -/
inductive Lead where
  | single (c : Char)
  | opens (p : OpenChar)
  | invalid
deriving DecidableEq

/-- The byte `b` at the start of a character. Bounds keep out long forms and surrogates. -/
def lead (b : Nat) : Lead :=
  if b < 0x80 then .single (Char.ofNat b)
  else if 0xC2 ≤ b && b ≤ 0xDF then .opens { bits := b - 0xC0, owed := 1 }
  else if b = 0xE0 then .opens { bits := 0, owed := 2, low := 0xA0 }
  else if b = 0xED then .opens { bits := 0xD, owed := 2, high := 0x9F }
  else if 0xE1 ≤ b && b ≤ 0xEF then .opens { bits := b - 0xE0, owed := 2 }
  else if b = 0xF0 then .opens { bits := 0, owed := 3, low := 0x90 }
  else if 0xF1 ≤ b && b ≤ 0xF3 then .opens { bits := b - 0xF0, owed := 3 }
  else if b = 0xF4 then .opens { bits := 4, owed := 3, high := 0x8F }
  else .invalid

/-- The characters and defects of bytes; `p` was begun before. -/
def unitsAfter : Option OpenChar → List UInt8 → List (Option Char)
  | none, [] => []
  | some _, [] => [none]
  | none, b :: rest => fromLead b.toNat rest
  | some p, b :: rest =>
    let n := b.toNat
    if p.low ≤ n && n ≤ p.high then
      let bits := p.bits * 64 + (n - 0x80)
      if p.owed ≤ 1 then some (Char.ofNat bits) :: unitsAfter none rest
      else unitsAfter (some { bits, owed := p.owed - 1 }) rest
    else none :: fromLead n rest
where
  /-- The units from the first byte of a character on. -/
  fromLead (n : Nat) (rest : List UInt8) : List (Option Char) :=
    match lead n with
    | .single c => some c :: unitsAfter none rest
    | .opens p => unitsAfter (some p) rest
    | .invalid => none :: unitsAfter none rest

def units (bytes : List UInt8) : List (Option Char) :=
  unitsAfter none bytes

/-- The text that the bytes spell, when they have no defect. -/
def ofUtf8? (bytes : List UInt8) : Option Text :=
  (units bytes).mapM id

/-- The text that the bytes spell, with U+FFFD for each defect. -/
def ofUtf8Lossy (bytes : List UInt8) : Text :=
  (units bytes).map fun u => u.getD (Char.ofNat 0xFFFD)

def toUtf8 (t : Text) : List UInt8 :=
  t.flatMap String.utf8EncodeChar

end Declass.Text
