import Declass.Basic

/-!
# Lines of a declaration dump

A dump is a syntax tree, printed one node per line: a tree drawing, the node's kind, addresses, range, location, words, a quoted
type and more words. `DumpLine.read?` splits a line into these parts.
-/

namespace Declass

structure DumpLine where
  depth : Nat
  kind : Text
  address : Option Text := none
  /-- The address of the record of a member that is written outside. -/
  parent : Option Text := none
  files : List Text := []
  head : List Text := []
  type : Option Text := none
  trailing : List Text := []
deriving DecidableEq

namespace DumpLine

def isDrawing (c : Char) : Bool :=
  c == ' ' || c == '|' || c == '-' || c == '`'

def splitWord (t : Text) : Text × Text :=
  let t := Text.trimStart t
  (t.takeWhile (!Text.isBlank ·), t.dropWhile (!Text.isBlank ·))

theorem length_trimStart_le (t : Text) : (Text.trimStart t).length ≤ t.length :=
  (List.dropWhile_suffix _).length_le

theorem length_splitWord_le (t : Text) : (splitWord t).2.length ≤ t.length :=
  Nat.le_trans (List.dropWhile_suffix _).length_le (length_trimStart_le t)

/-- A text that is not blank gets shorter by its first word. -/
theorem length_splitWord_lt {t : Text} {c : Char} {rest : Text} (h : Text.trimStart t = c :: rest) :
    (splitWord t).2.length < t.length := by
  have hc : Text.isBlank c = false := by
    have := List.head?_dropWhile_not Text.isBlank t
    rw [Text.trimStart] at h
    simpa [h] using this
  have h1 : (splitWord t).2 = rest.dropWhile (!Text.isBlank ·) := by
    simp [splitWord, h, hc]
  have h2 : (rest.dropWhile (!Text.isBlank ·)).length ≤ rest.length := (List.dropWhile_suffix _).length_le
  have h3 := length_trimStart_le t
  rw [h, List.length_cons] at h3
  rw [h1]
  omega

/-- What is inside and after the angle brackets; `inner` so far, reversed. -/
def splitAngle? (depth : Nat) (inner : Text) : Text → Option (Text × Text)
  | [] => none
  | c :: rest =>
    if c = '<' then splitAngle? (depth + 1) (c :: inner) rest
    else if c = '>' then
      if depth = 1 then some (inner.reverse.tail, rest) else splitAngle? (depth - 1) (c :: inner) rest
    else splitAngle? depth (c :: inner) rest

def fileOf? (location : Text) : Option Text := do
  let (front, column) ← Text.cutLast? ":" (Text.trim location)
  let (file, line) ← Text.cutLast? ":" front
  guard (Text.isNumeral column && Text.isNumeral line && !file.isEmpty && file ≠ "line" && file ≠ "col")
  return file

def isLocation (word : Text) : Bool :=
  Text.startsWith word "line:" || Text.startsWith word "col:" || (fileOf? word).isSome

/-- The node's address and its parent's, and what follows them. -/
def addresses (address parent : Option Text) (t : Text) : Option Text × Option Text × Text :=
  match _h : Text.trimStart t with
  | [] => (address, parent, [])
  | c :: more =>
    if Text.startsWith (c :: more) "0x" then
      addresses (address.or (some (splitWord t).1)) parent (splitWord t).2
    else if Text.startsWith (c :: more) "parent " then
      let after := more.drop 6
      addresses address (some (splitWord after).1) (splitWord after).2
    else if Text.startsWith (c :: more) "prev " then addresses address parent (splitWord (more.drop 4)).2
    else (address, parent, c :: more)
termination_by t.length
decreasing_by
  · exact length_splitWord_lt _h
  · have h1 := length_trimStart_le t
    have h2 := length_splitWord_le (more.drop 6)
    rw [_h, List.length_cons] at h1
    rw [List.length_drop] at h2
    omega
  · have h1 := length_trimStart_le t
    have h2 := length_splitWord_le (more.drop 4)
    rw [_h, List.length_cons] at h1
    rw [List.length_drop] at h2
    omega

/-- The files of the source range and of the location, and what follows. -/
def places (t : Text) : List Text × Text :=
  if t.head? = some '<' then
    match splitAngle? 0 [] t with
    | none => ([], t)
    | some (range, rest) =>
      let files := (Text.splitOn ", " range).filterMap fileOf?
      let rest := Text.trimStart rest
      if rest.head? = some '<' then (files, ((splitAngle? 0 [] rest).map Prod.snd).getD rest)
      else
        let (word, more) := splitWord rest
        if isLocation word then (files ++ (fileOf? word).toList, more) else (files, rest)
  else ([], t)

/-- The words before the quoted type, the type, and the words after it. -/
def typed (t : Text) : Text × Option Text × Text :=
  match Text.cut? "'" t with
  | none => (t, none, [])
  | some (head, after) =>
    match Text.cut? "'" after with
    | none => (t, none, [])
    | some (type, rest) =>
      let sugar := (Text.after? ":'" rest).bind (Text.cut? "'")
      (head, some type, (sugar.map Prod.snd).getD rest)

/-- The parts of a line, unless the line is a tree drawing only. -/
def read? (line : Text) : Option DumpLine :=
  match line.dropWhile isDrawing with
  | [] => none
  | node =>
    let (kind, rest) := splitWord node
    let (address, parent, rest) := addresses none none rest
    let (files, rest) := places rest
    let (head, type, trailing) := typed (Text.trim rest)
    some
      { depth := (line.takeWhile isDrawing).length / 2
        kind, address, parent, files, head := Text.words head, type, trailing := Text.words trailing }

/-- The line without terminal colours. -/
def withoutColours : Text → Text
  | [] => []
  | '\x1b' :: rest => escape rest
  | c :: rest => c :: withoutColours rest
where
  escape : Text → Text
    | '[' :: rest => sequence rest
    | '\x1b' :: rest => escape rest
    | c :: rest => c :: withoutColours rest
    | [] => []
  sequence : Text → Text
    | [] => []
    | c :: rest => if c.isAlpha then withoutColours rest else sequence rest

variable (line : DumpLine)

def hasFlag (flag : Text) : Bool :=
  line.head.contains flag || line.trailing.contains flag

/-- Words that can stand before a declaration's name. -/
def flagWords : List Text :=
  ["used", "referenced", "implicit", "invalid", "hidden", "imported", "constexpr", "inline", "mutable"]

/-- The declared name: the last word before the type. -/
def name? : Option Text :=
  line.head.getLast?.filter (!flagWords.contains ·)

def record? : Option (Text × Option Text) :=
  match line.head.dropWhile fun (w : Text) => !(w == "class" || w == "struct" || w == "union") with
  | [] => none
  | keyword :: rest => some (keyword, rest.head?.filter fun (w : Text) => w ≠ "definition")

end DumpLine

end Declass
