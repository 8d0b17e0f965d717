import Declass.Run.Report

/-!
# Reports as JSON

Reports written as JSON with one value a line, two spaces deeper for each level.
-/

namespace Declass

inductive JsonValue where
  | string (t : Text)
  | bool (b : Bool)
  | array (items : List JsonValue)
  | object (fields : List (Text × JsonValue))

namespace JsonValue

def escaped (c : Char) : Text :=
  if c = '"' then "\\\""
  else if c = '\\' then "\\\\"
  else if c = '\n' then "\\n"
  else if c = '\r' then "\\r"
  else if c = '\t' then "\\t"
  else if c = Char.ofNat 8 then "\\b"
  else if c = Char.ofNat 12 then "\\f"
  else if c.toNat < 0x20 then
    "\\u00" ++ [Nat.digitChar (c.toNat / 16), Nat.digitChar (c.toNat % 16)]
  else [c]

def quoted (t : Text) : Text :=
  "\"" ++ t.flatMap escaped ++ "\""

def newLine (depth : Nat) : Text :=
  '\n' :: List.replicate (2 * depth) ' '

mutual

/-- The text of a value that stands `depth` levels deep. -/
def pretty (depth : Nat) : JsonValue → Text
  | .string t => quoted t
  | .bool true => "true"
  | .bool false => "false"
  | .array [] => "[]"
  | .array (v :: vs) => "[" ++ prettyItems (depth + 1) (v :: vs) ++ newLine depth ++ "]"
  | .object [] => "\x7b\x7d"
  | .object (f :: fs) => "\x7b" ++ prettyFields (depth + 1) (f :: fs) ++ newLine depth ++ "\x7d"

def prettyItems (depth : Nat) : List JsonValue → Text
  | [] => []
  | [v] => newLine depth ++ pretty depth v
  | v :: w :: vs => newLine depth ++ pretty depth v ++ "," ++ prettyItems depth (w :: vs)

def prettyFields (depth : Nat) : List (Text × JsonValue) → Text
  | [] => []
  | [(name, v)] => newLine depth ++ quoted name ++ ": " ++ pretty depth v
  | (name, v) :: f :: fs =>
    newLine depth ++ quoted name ++ ": " ++ pretty depth v ++ "," ++ prettyFields depth (f :: fs)

end

def render (v : JsonValue) : Text :=
  pretty 0 v

def field (name : Text) (v : JsonValue) : Text × JsonValue :=
  (name, v)

def texts (ts : List Text) : JsonValue :=
  .array (ts.map .string)

def paths (ps : List Path) : JsonValue :=
  texts (ps.map Path.text)

def summaryFields (s : Summary) : List (Text × JsonValue) :=
  [("classes", .array (s.classes.map fun c =>
      .object [("name", .string c.name), ("methods", texts c.methods), ("fields", texts c.fields)])),
    ("overloads", .array (s.overloads.map fun o => .object [("name", .string o.name), ("mangled", texts o.mangled)])),
    ("has_main", .bool s.hasMain)]

def failures (fs : List Failure) : JsonValue :=
  .array (fs.map fun f => .object [("path", .string f.path.text), ("message", .string f.message)])

end JsonValue

namespace UnitReport

def json (r : UnitReport) : JsonValue :=
  .object ([JsonValue.field "input" (.string r.input.text), JsonValue.field "outputs" (.paths r.outputs)] ++
    JsonValue.summaryFields r.summary ++ [JsonValue.field "warnings" (.texts r.warnings)])

end UnitReport

namespace BatchReport

def json (r : BatchReport) : JsonValue :=
  .object ([JsonValue.field "analyzed" (.paths r.analyzed), JsonValue.field "outputs" (.paths r.outputs),
    JsonValue.field "failures" (.failures r.failures), JsonValue.field "write_errors" (.failures r.writeErrors)] ++
    JsonValue.summaryFields r.summary ++ [JsonValue.field "warnings" (.texts r.warnings)])

end BatchReport

end Declass
