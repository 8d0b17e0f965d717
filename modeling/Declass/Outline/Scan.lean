import Declass.Outline.Declarator

/-!
# Reading an outline

One pass over the significant tokens of a file, with the stack of blocks around the position. `Outline.step` says what one token
starts; the pass goes on after what the step took.
-/

namespace Declass

/-- A block around a position, of a class with its keyword's offset. -/
inductive Enclosing where
  | fileScope
  | record (name : Text) (start : Nat)
  | skipped
deriving DecidableEq

namespace Outline

/-- Names before a `(` that define nothing. -/
def notCallable : List Text :=
  ["static_assert", "decltype", "alignas", "sizeof", "__attribute__", "__declspec", "operator"]

/-- What one step does: the next blocks and position, and what it found. -/
structure Step where
  blocks : List Enclosing
  found : Option OutlineItem
  next : Nat

def currentClass : List Enclosing → Option Text
  | .record name _ :: _ => some name
  | _ => none

/-- A closing brace leaves a block, and lists it if it is a class. -/
def leaveBlock (blocks : List Enclosing) (k stop : Nat) : Step :=
  match blocks with
  | .record name start :: blocks => ⟨blocks, some (.classBlock name ⟨start, stop⟩), k + 1⟩
  | _ :: blocks => ⟨blocks, none, k + 1⟩
  | [] => ⟨[], none, k + 1⟩

/-- A namespace opens a block of the file, or ends at its `;`. -/
def namespaceStep (F : Fragment) (blocks : List Enclosing) (k : Nat) : Option Step := do
  let j ← F.findPunct? ["\x7b", ";"] k
  return ⟨if F.isPunct j "\x7b" then .fileScope :: blocks else blocks, none, j + 1⟩

/-- An enumeration is passed over with its braces. -/
def enumStep (F : Fragment) (blocks : List Enclosing) (k : Nat) : Option Step := do
  let j ← F.findPunct? ["\x7b", ";"] k
  return ⟨blocks, none, if F.isPunct j "\x7b" then ((F.close? j).getD j) + 1 else j + 1⟩

/-- A record opens its block. Unions and unnamed ones are skipped. -/
def recordStep (F : Fragment) (blocks : List Enclosing) (k : Nat) (t : Token) : Step :=
  match F.findPunct? ["\x7b", ";", "=", "(", ")"] (k + 1) with
  | some j =>
    if F.isPunct j "\x7b" then
      let block :=
        match F.ident? (k + 1) with
        | some name => if t.isWord "union" then .skipped else .record name t.start
        | none => .skipped
      ⟨block :: blocks, none, j + 1⟩
    else ⟨blocks, none, k + 1⟩
  | none => ⟨blocks, none, k + 1⟩

/-- The owner of a definition, and whether it is inline. -/
def ownerOf (cls : Option Text) (segments : List Text) : Option Text × Bool :=
  match cls, segments.reverse with
  | some c, [_] => (some c, true)
  | _, _ :: qualifier :: _ => (some qualifier, false)
  | _, _ => (none, false)

/-- A name with parameters from `i` to `j`: a definition, an initializer or nothing. -/
def callableStep (F : Fragment) (blocks : List Enclosing) (k : Nat) (segments : List Text) (name : Text) (i j : Nat) :
    Option Step :=
  let cls := currentClass blocks
  let after := F.skipQualifiers (j + 1)
  let listed := if F.isPunct after ":" then F.bodyAfterInits? (after + 1) else none
  let body := listed.getD after
  if F.isPunct body "\x7b" then
    match F.close? body with
    | none => none
    | some close =>
      let (owner, inline) := ownerOf cls segments
      let span : Span := ⟨(F.tok? body).elim 0 Token.stop, (F.tok? close).elim 0 Token.start⟩
      let d : Definition :=
        { owner, name, inline, params := F.params i j, initList := listed.map fun b => (F.between after b).trim,
          body := F.between body close, span }
      some ⟨blocks, some (.definition d), close + 1⟩
  else
    let init :=
      if cls.isNone && segments.length = 1 && F.endsInitializer (j + 1) then F.parenInit? k name i j else none
    some ⟨blocks, init.map .global, j + 1⟩

/-- A name, possibly qualified, at file scope or in a class block. -/
def nameStep (F : Fragment) (blocks : List Enclosing) (k : Nat) : Option Step :=
  let (segments, after) := F.chain k
  match segments.getLast? with
  | none => some ⟨blocks, none, k + 1⟩
  | some name =>
    let dims := F.skipDims after
    let assigned :=
      if (currentClass blocks).isNone && segments.length = 1 && F.isPunct dims "=" then F.assignedInit? k name dims
      else none
    match assigned with
    | some (init, stop) => some ⟨blocks, some (.global init), stop + 1⟩
    | none =>
      if !F.isPunct after "(" || notCallable.contains name then some ⟨blocks, none, after⟩
      else
        match F.close? after with
        | none => none
        | some close => callableStep F blocks k segments name after close

/-- What the token `t` at `k` starts. Without an answer the pass ends. -/
def step (F : Fragment) (blocks : List Enclosing) (k : Nat) (t : Token) : Option Step :=
  if t.isPunct "\x7d" then some (leaveBlock blocks k t.stop)
  else if blocks.head? = some .skipped then
    some ⟨if t.isPunct "\x7b" then .skipped :: blocks else blocks, none, k + 1⟩
  else if t.isWord "namespace" then namespaceStep F blocks k
  else if t.isWord "extern" && (F.tok? (k + 1)).any (·.kind == .string) && F.isPunct (k + 2) "\x7b" then
    some ⟨.fileScope :: blocks, none, k + 3⟩
  else if t.isWord "template" && F.isPunct (k + 1) "<" then some ⟨blocks, none, F.skipAngles (k + 1)⟩
  else if t.isWord "enum" then enumStep F blocks k
  else if t.isWordOf ["class", "struct", "union"] then some (recordStep F blocks k t)
  else if t.isPunct "\x7b" then
    let init := if (currentClass blocks).isNone then F.braceInit? k else none
    some ⟨blocks, init.map .global, ((F.close? k).getD k) + 1⟩
  else if t.isIdent || t.isPunct "~" then nameStep F blocks k
  else some ⟨blocks, none, k + 1⟩

/-- The items from `k` on. A step moves on by a token at least. -/
def scan (F : Fragment) (blocks : List Enclosing) (k : Nat) : List OutlineItem :=
  match _h : F.tok? k with
  | none => []
  | some t =>
    match step F blocks k t with
    | none => []
    | some s => s.found.toList ++ scan F s.blocks (max s.next (k + 1))
termination_by F.size - k
decreasing_by
  have := Fragment.lt_size_of_tok? _h
  omega

def ofSource (source : Text) : Outline :=
  ofItems (scan (Fragment.ofText source) [] 0)

end Outline

end Declass
