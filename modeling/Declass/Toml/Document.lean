import Declass.Toml.Moment
import Declass.Toml.Number

/-!
# TOML documents

Reading a document into the entries of its root table. A document is a sequence of lines: a key with its value, the
header of a table or of one more table of an array, a comment, or nothing.
-/

namespace Declass.Toml

/-! ## Blanks, comments and line ends -/

/-- The text without the spaces and tabs at its start. -/
def skipGap (t : Text) : Text :=
  t.dropWhile isGap

/-- The text after blanks, line ends and comments. -/
def skipLines (inComment : Bool) : Text → Text
  | [] => []
  | '\n' :: rest => skipLines false rest
  | '\r' :: '\n' :: rest => skipLines false rest
  | c :: rest =>
    if inComment then (if isPlain c then skipLines true rest else c :: rest)
    else if isGap c then skipLines false rest
    else if c = '#' then skipLines true rest
    else c :: rest

def skipComment : Text → Text
  | '#' :: rest => rest.dropWhile isPlain
  | t => t

/-- What follows a line that holds at most a comment. -/
def afterLine? (t : Text) : Option Text :=
  match skipComment (skipGap t) with
  | [] => some []
  | t => afterLineEnd? t

/-! ## Keys -/

/-- A character of a key without quotes. -/
def isBare (c : Char) : Bool :=
  c.isAlphanum || c = '_' || c = '-'

def simpleKey? : Text → Option (Text × Text)
  | '"' :: rest => basic? rest
  | '\'' :: rest => literal? rest
  | t =>
    let name := t.takeWhile isBare
    if name.isEmpty then none else some (name, t.dropWhile isBare)

/-- The parts of a key between dots, of which there are at most `n`. -/
def keyParts? : Nat → Text → Option (List Text × Text)
  | 0, _ => none
  | n + 1, t => do
    let (part, t) ← simpleKey? (skipGap t)
    match skipGap t with
    | '.' :: t =>
      let (parts, t) ← keyParts? n t
      return (part :: parts, t)
    | t => return ([part], t)

/-- How deep tables and arrays may nest. -/
def depthLimit : Nat := 79

/-- A key: the parts on the way, the last part, and the rest. -/
def key? (t : Text) : Option (List Text × Text × Text) := do
  let (parts, t) ← keyParts? depthLimit t
  let name ← parts.getLast?
  return (parts.dropLast, name, t)

/-- What follows the `=` between key and value, with blanks. -/
def afterEquals? (t : Text) : Option Text :=
  match t with
  | '=' :: rest => some (skipGap rest)
  | _ => none

/-! ## Values -/

/-- A value that holds no others. -/
def scalar? (t : Text) : Option (Value × Text) :=
  match t with
  | '"' :: _ => (string? t).map fun (s, rest) => (.string s, rest)
  | '\'' :: _ => (string? t).map fun (s, rest) => (.string s, rest)
  | 't' :: _ => (Text.after? "true" t).map fun rest => (.boolean true, rest)
  | 'f' :: _ => (Text.after? "false" t).map fun rest => (.boolean false, rest)
  | _ => (moment? t).or (number? t)

/-- At most `n` items of an array. A comma may follow the last. -/
def items? (item : Text → Option (Value × Text)) : Nat → Text → Option (List Value × Text)
  | 0, _ => none
  | n + 1, t =>
    match skipLines false t with
    | ']' :: rest => some ([], rest)
    | t => do
      let (v, t) ← item t
      match skipLines false t with
      | ',' :: rest =>
        let (vs, rest) ← items? item n rest
        return (v :: vs, rest)
      | ']' :: rest => return ([v], rest)
      | _ => none

/-- At most `n` entries of a table between braces. -/
def pairs? (item : Text → Option (Value × Text)) : Nat → Entries → Text → Option (Entries × Text)
  | 0, _, _ => none
  | n + 1, es, t => do
    let (path, name, t) ← key? t
    let (v, t) ← item (← afterEquals? t)
    let es ← es.addKey? path name v
    match skipGap t with
    | ',' :: rest => pairs? item n es rest
    | '}' :: rest => return (es, rest)
    | _ => none

/-- A value of at most `depth` arrays and tables in each other. -/
def value? : Nat → Text → Option (Value × Text)
  | 0, t => scalar? t
  | depth + 1, t =>
    match t with
    | '[' :: rest => (items? (value? depth) (rest.length + 1) rest).map fun (vs, rest) => (.array vs, rest)
    | '{' :: rest =>
      match skipGap rest with
      | '}' :: rest => some (.table .inline [], rest)
      | _ => (pairs? (value? depth) (rest.length + 1) [] rest).map fun (es, rest) => (.table .inline es, rest)
    | t => scalar? t

/-! ## Lines -/

/-- The document so far, and the table that lines go to. -/
structure Draft where
  root : Entries := []
  current : List Text := []

/-- The draft after the line of a header, and what follows the line. -/
def header? (d : Draft) (t : Text) : Option (Draft × Text) := do
  let isItem := Text.startsWith t "[["
  let close : Text := if isItem then "]]" else "]"
  let (path, name, t) ← key? (t.drop close.length)
  let t ← afterLine? (← Text.after? close t)
  let root ← Entries.atPath? (if isItem then Entries.openItem? name else Entries.openTable? name) path d.root
  return ({ root, current := path ++ [name] }, t)

/-- The draft after a line with a key, and what follows the line. -/
def keyLine? (d : Draft) (t : Text) : Option (Draft × Text) := do
  let (path, name, t) ← key? t
  let (v, t) ← value? depthLimit (← afterEquals? t)
  let t ← afterLine? t
  let root ← Entries.atPath? (fun es => es.addKey? path name v) d.current d.root
  return ({ d with root }, t)

/-- The draft after the first line of the text, and what follows the line. -/
def line? (d : Draft) (t : Text) : Option (Draft × Text) :=
  match skipGap t with
  | '[' :: rest => header? d ('[' :: rest)
  | t =>
    match afterLine? t with
    | some rest => some (d, rest)
    | none => keyLine? d t

/-- The draft after the whole text, which has at most `n` lines. -/
def lines? : Nat → Draft → Text → Option Draft
  | _, d, [] => some d
  | 0, _, _ => none
  | n + 1, d, t => do
    let (d, rest) ← line? d t
    lines? n d rest

/-- The entries of a document. A byte order mark is skipped. -/
def read? (t : Text) : Option Entries :=
  let t :=
    match t with
    | c :: rest => if c = Char.ofNat 0xFEFF then rest else t
    | [] => t
  (lines? (t.length + 1) {} t).map Draft.root

end Declass.Toml
