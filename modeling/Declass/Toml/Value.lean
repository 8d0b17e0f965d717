import Declass.Basic

/-!
# TOML values

The values of a TOML document. A table remembers how it came to be, because that decides whether a later line of the
document may add to it.
-/

namespace Declass.Toml

/-- How a table came to be. -/
inductive TableKind where
  /-- Its header stands in the document. -/
  | header
  /-- It lies on the way to a table with a header. -/
  | implied
  /-- It lies on the way to a dotted key. -/
  | dotted
  /-- It is written between braces. -/
  | inline
deriving DecidableEq

/-- A value. Fractions and moments in time keep their spelling. -/
inductive Value where
  | string (text : Text)
  | integer (n : Int)
  | float (spelling : Text)
  | boolean (b : Bool)
  | moment (spelling : Text)
  | array (items : List Value)
  | table (kind : TableKind) (entries : List (Text × Value))
  /-- An array of tables with headers; only the last one can still grow. -/
  | tables (earlier : List (List (Text × Value))) (last : List (Text × Value))

/-- The keys of a table and their values. -/
abbrev Entries := List (Text × Value)

namespace Entries

def get? (es : Entries) (key : Text) : Option Value :=
  (es.find? fun e => e.1 = key).map Prod.snd

/-- The entries with another value for a key that is there. -/
def set (es : Entries) (key : Text) (v : Value) : Entries :=
  es.map fun e => if e.1 = key then (key, v) else e

/-- The entries with a new key, which must not be there. -/
def add? (es : Entries) (key : Text) (v : Value) : Option Entries :=
  if (es.get? key).isSome then none else some (es ++ [(key, v)])

/-- Adds a value under a key reached through `path`, making tables as needed. The table that takes the key must be `isOpen` to
keys with dots. -/
def addDotted? (key : Text) (v : Value) (isOpen : Bool) : List Text → Entries → Option Entries
  | [], es => if isOpen then es.add? key v else none
  | k :: path, es =>
    match es.get? k with
    | none => (addDotted? key v true path []).map fun inner => es ++ [(k, .table .dotted inner)]
    | some (.table .dotted inner) => (addDotted? key v true path inner).map fun i => es.set k (.table .dotted i)
    | some (.table .implied inner) => (addDotted? key v false path inner).map fun i => es.set k (.table .implied i)
    | some (.tables earlier last) => (addDotted? key v false path last).map fun l => es.set k (.tables earlier l)
    | some _ => none

/-- Adds a value under a key reached through `path`. -/
def addKey? (es : Entries) (path : List Text) (key : Text) (v : Value) : Option Entries :=
  addDotted? key v true path es

/-- Changes the table of a header's path; of an array of tables the last one is meant. -/
def atPath? (f : Entries → Option Entries) : List Text → Entries → Option Entries
  | [], es => f es
  | k :: path, es =>
    match es.get? k with
    | none => (atPath? f path []).map fun inner => es ++ [(k, .table .implied inner)]
    | some (.table .inline _) => none
    | some (.table kind inner) => (atPath? f path inner).map fun i => es.set k (.table kind i)
    | some (.tables earlier last) => (atPath? f path last).map fun l => es.set k (.tables earlier l)
    | some _ => none

/-- Opens the table of a header. A table opens once; one only on the way to others may still open. -/
def openTable? (key : Text) (es : Entries) : Option Entries :=
  match es.get? key with
  | none => some (es ++ [(key, .table .header [])])
  | some (.table .implied inner) => some (es.set key (.table .header inner))
  | some _ => none

/-- Opens one more table of an array of tables. -/
def openItem? (key : Text) (es : Entries) : Option Entries :=
  match es.get? key with
  | none => some (es ++ [(key, .tables [] [])])
  | some (.tables earlier last) => some (es.set key (.tables (earlier ++ [last]) []))
  | some _ => none

end Entries

end Declass.Toml
