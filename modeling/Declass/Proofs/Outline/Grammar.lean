import Declass.Outline.Scan
import Declass.Proofs.Token.Concat
import Declass.Proofs.Token.Nesting

/-!
# A grammar of source files

A file is a sequence of definitions, classes and namespaces; trivia can stand between any two tokens (`Gap`), and parameters,
arguments and bodies are any text whose brackets balance (`Param`, `Inner`). Every tree has a text (`Items.text`) and an outline
(`Items.outline`).
-/

namespace Declass.Grammar

open Token

/-! ## Gaps, names and texts between brackets -/

/-- The last token is complete and needs no line feed after it. -/
def isClosed (ts : List Token) : Bool :=
  ts.getLast?.all fun t => t.isTerminated && !t.endsLine

/-- The significant tokens of a text within a line. -/
def significant (t : Text) : List Token :=
  (tokenizeFrom false 0 t).filter (!·.isTrivia)

/-- White space, comments and directives after a token. -/
structure Gap where
  text : Text
  trivia : (tokenizeFrom false 0 text).all isTrivia = true
  closed : isClosed (tokenizeFrom false 0 text) = true

/-- A text that can stand between brackets of kind `b`. -/
structure Inner (b : Bracket) where
  text : Text
  balanced : b.level 0 (significant text) = some 0
  closed : isClosed (tokenizeFrom false 0 text) = true

/-- An identifier and what separates it from the next token. -/
structure Word where
  text : Text
  isName : Scan.isName text = true
  gap : Gap

/-- The word with its gap. -/
def Word.spelled (w : Word) : Text :=
  w.text ++ w.gap.text

/-- Words that start a construct of their own. -/
def structuralWords : List Text :=
  ["namespace", "template", "enum", "class", "struct", "union", "operator"]

/-- A word that starts no construct. -/
structure Plain extends Word where
  plain : text ∉ structuralWords

/-- A word of a type. Another word follows it. -/
structure TypeWord extends Plain where
  apart : gap.text ≠ []

/-- The name of a class, a namespace, a field or a function. -/
structure Name extends Plain where
  callable : text ∉ Outline.notCallable

/-- A word between a parameter list and a body. -/
structure Qualifier extends Word where
  known : text ∈ functionQualifiers

/-! ## Parameters -/

/-- A comma stands outside any bracket, where the groups `s` are open before the tokens. -/
def hasOuterComma : List Bracket → List Token → Bool
  | _, [] => false
  | s, t :: ts => (s.isEmpty && t.isPunct ",") || (Bracket.pass s t).any fun s => hasOuterComma s ts

/-- The text of one parameter. -/
structure Param where
  text : Text
  nested : Nested (significant text)
  noAngles : (significant text).any (·.isPunctOf ["<", ">"]) = false
  noComma : hasOuterComma [] (significant text) = false
  closed : isClosed (tokenizeFrom false 0 text) = true

/-- The parameter that tokens declare. `void` alone declares none. -/
def declared? (ts : List Token) : Option WrittenParam :=
  match ts.takeWhile fun t => !t.isPunct "=" with
  | [] => none
  | [t] => if t.isWord "void" then none else some (WrittenParam.ofTokens [t])
  | group => some (WrittenParam.ofTokens group)

/-- What a parameter declares, read alone. -/
def Param.written? (p : Param) : Option WrittenParam :=
  declared? (significant p.text)

/-- The texts of the parameters with commas between them. -/
def joinParams (ps : List Param) : Text :=
  List.intercalate "," (ps.map Param.text)

/-! ## Functions -/

/-- A function up to its body: type, class, name, parameters and qualifiers. -/
structure Head where
  type : List TypeWord
  owner : Option (Name × Gap)
  tilde : Option Gap
  name : Name
  params : List Param
  gap : Gap
  qualifiers : List Qualifier
  apart : qualifiers.IsChain fun q _ => q.gap.text ≠ []

/-- A member initializer: a name, and arguments in brackets. -/
structure Init where
  lead : Gap
  name : Word
  bracket : Bracket
  round_or_curly : bracket ≠ .square
  args : Inner bracket
  gap : Gap

/-- A function with a body, with member initializers if there are any. -/
structure Function where
  head : Head
  inits : List Init
  body : Inner .curly
  gap : Gap

namespace Head

variable (h : Head)

/-- The class before the name. -/
def ownerText : Text :=
  match h.owner with
  | none => []
  | some (c, g) => c.spelled ++ "::" ++ g.text

/-- The `~` before the name. -/
def tildeText : Text :=
  match h.tilde with
  | none => []
  | some g => "~" ++ g.text

/-- The name with what stands before it. -/
def nameText : Text :=
  h.ownerText ++ h.tildeText ++ h.name.spelled

def text : Text :=
  h.type.flatMap (·.spelled) ++ h.nameText ++ "(" ++ joinParams h.params ++ ")" ++ h.gap.text ++
    h.qualifiers.flatMap (·.spelled)

/-- The name that the function is known by in its class. -/
def declared : Text :=
  if h.tilde.isSome then '~' :: h.name.text else h.name.text

end Head

/-- The text of the initializer. -/
def Init.text (i : Init) : Text :=
  i.lead.text ++ i.name.spelled ++ i.bracket.opening ++ i.args.text ++ i.bracket.closing ++ i.gap.text

/-- The texts of the initializers with commas between them. -/
def joinInits (is : List Init) : Text :=
  List.intercalate "," (is.map Init.text)

namespace Function

variable (f : Function)

/-- The member initializers, after a `:`. -/
def initsText : Text :=
  match f.inits with
  | [] => []
  | _ => ":" ++ joinInits f.inits

/-- The text before the body. -/
def before : Text :=
  f.head.text ++ f.initsText ++ "\x7b"

def text : Text :=
  f.before ++ f.body.text ++ "\x7d" ++ f.gap.text

/-- What is listed for the function at `offset`, in `cls` if any. -/
def item (cls : Option Text) (offset : Nat) : OutlineItem :=
  let start := offset + f.before.byteSize
  .definition
    { owner := f.head.owner.elim cls fun (c, _) => some c.text
      name := f.head.declared
      inline := f.head.owner.isNone && cls.isSome
      params := f.head.params.filterMap Param.written?
      initList := if f.inits.isEmpty then none else some (joinInits f.inits).trim
      body := f.body.text
      span := ⟨start, start + f.body.text.byteSize⟩ }

end Function

/-! ## Classes and files -/

/-- A part of a class. -/
inductive Member where
  | label (word : Plain) (gap : Gap)
  | field (type : List TypeWord) (name : Name) (gap : Gap)
  | prototype (head : Head) (gap : Gap)
  | function (f : Function)

namespace Member

def text : Member → Text
  | label word gap => word.spelled ++ ":" ++ gap.text
  | field type name gap => type.flatMap (·.spelled) ++ name.spelled ++ ";" ++ gap.text
  | prototype head gap => head.text ++ ";" ++ gap.text
  | function f => f.text

/-- What is listed for the member of `cls` at byte `offset`. -/
def items (cls : Text) (offset : Nat) : Member → List OutlineItem
  | function f => [f.item (some cls) offset]
  | _ => []

/-- What is listed for the members of `cls` from byte `offset` on. -/
def outline (cls : Text) : Nat → List Member → List OutlineItem
  | _, [] => []
  | offset, m :: ms => m.items cls offset ++ outline cls (offset + m.text.byteSize) ms

end Member

/-- A class, which starts with the word `class` or `struct`. -/
structure Record where
  isStruct : Bool
  keyGap : Gap
  apart : keyGap.text ≠ []
  name : Name
  openGap : Gap
  members : List Member
  closeGap : Gap
  gap : Gap

namespace Record

variable (r : Record)

/-- The word that the class starts with. -/
def keyword : Word where
  text := if r.isStruct then "struct" else "class"
  isName := by split <;> decide
  gap := r.keyGap

/-- The text before the members. -/
def before : Text :=
  r.keyword.spelled ++ r.name.spelled ++ "\x7b" ++ r.openGap.text

/-- The text up to the closing brace. -/
def block : Text :=
  r.before ++ r.members.flatMap Member.text ++ "\x7d"

def text : Text :=
  r.block ++ r.closeGap.text ++ ";" ++ r.gap.text

/-- What is listed for the class at byte `offset`: its members', then the class. -/
def outline (offset : Nat) : List OutlineItem :=
  Member.outline r.name.text (offset + r.before.byteSize) r.members ++
    [.classBlock r.name.text ⟨offset, offset + r.block.byteSize⟩]

end Record

/-- The contents of a file or of a namespace. -/
inductive Items where
  | nil
  | function (f : Function) (after : Items)
  | record (r : Record) (after : Items)
  | scope (keyGap : Gap) (apart : keyGap.text ≠ []) (name : Name) (openGap : Gap) (inside : Items) (gap : Gap)
      (after : Items)

namespace Items

/-- The word that a namespace starts with. -/
def keyword (keyGap : Gap) : Word where
  text := "namespace"
  isName := by decide
  gap := keyGap

/-- The text of a namespace before what it holds. -/
def opening (keyGap : Gap) (name : Name) (openGap : Gap) : Text :=
  (keyword keyGap).spelled ++ name.spelled ++ "\x7b" ++ openGap.text

def text : Items → Text
  | nil => []
  | function f after => f.text ++ after.text
  | record r after => r.text ++ after.text
  | scope keyGap _ name openGap inside gap after =>
    opening keyGap name openGap ++ inside.text ++ "\x7d" ++ gap.text ++ after.text

/-- What an outline lists for the items, which start at byte `offset`. -/
def outline (offset : Nat) : Items → List OutlineItem
  | nil => []
  | function f after => f.item none offset :: after.outline (offset + f.text.byteSize)
  | record r after => r.outline offset ++ after.outline (offset + r.text.byteSize)
  | scope keyGap _ name openGap inside gap after =>
    let start := offset + (opening keyGap name openGap).byteSize
    inside.outline start ++ after.outline (start + (inside.text ++ "\x7d" ++ gap.text).byteSize)

end Items

/-- A file: white space, comments and directives, and then items. -/
structure File where
  lead : Text
  trivia : (tokenize lead).all isTrivia = true
  closed : isClosed (tokenize lead) = true
  items : Items

namespace File

variable (f : File)

def text : Text :=
  f.lead ++ f.items.text

/-- What an outline lists for the file. -/
def outline : List OutlineItem :=
  f.items.outline f.lead.byteSize

end File

end Declass.Grammar
