import Declass.CommandLine.Option
import Declass.Project.Session

/-!
# Arguments

Reading the words of a command line. A value stands in the next word, after `=` or right behind a short name, and after a lone
`--` all words are plain. The first word that is wrong decides; help before it is given.
-/

namespace Declass.CommandLine

/-- Why the words of a command line ask for no run. -/
inductive Stop where
  | rootHelp
  | helpHelp
  | help (c : Command) (long : Bool)
  | version
  | misuse
deriving DecidableEq

/-- The words read so far: plain words, and options with values. -/
structure Words where
  plain : List Text := []
  given : List (Key × Text) := []
deriving DecidableEq

namespace Words

def has (w : Words) (k : Key) : Bool :=
  w.given.any fun g => g.1 = k

def values (w : Words) (k : Key) : List Text :=
  (w.given.filter fun g => g.1 = k).map Prod.snd

def value? (w : Words) (k : Key) : Option Text :=
  (w.values k).head?

end Words

/-- A command, or the place before it, as a reader of its words. -/
structure Level where
  options : List OptionSpec
  /-- How many plain words the level takes, if there is a bound. -/
  room : Option Nat
  help : Bool → Stop

namespace Level

def ofCommand (c : Command) : Level :=
  { options := c.options []
    room := if c = .batch then none else some 1
    help := fun long => .help c long }

def root : Level :=
  { options := rootOptions, room := some 0, help := fun _ => .rootHelp }

variable (l : Level)

/-- The value can be that of the option. -/
def accepts (o : OptionSpec) (v : Text) : Bool :=
  match o.key with
  | .output => !v.isEmpty
  | .config => !v.isEmpty
  | .timeout => (Text.readWord? v).isSome
  | .frontend => o.choices.any fun c => c.1 = v
  | _ => true

/-- Stores the value of an option. -/
def give (o : OptionSpec) (v : Text) (w : Words) : Except Stop Words :=
  if (w.has o.key && !o.repeats) || !accepts o v then .error .misuse
  else .ok { w with given := w.given ++ [(o.key, v)] }

/-- Stores a flag, or stops for help or the version. -/
def raise (o : OptionSpec) (long : Bool) (w : Words) : Except Stop Words :=
  match o.key with
  | .help => .error (l.help long)
  | .version => .error .version
  | _ => give o [] w

/-- Stores a word that is no option. -/
def addPlain (v : Text) (w : Words) : Except Stop Words :=
  if v.isEmpty || l.room.any (· ≤ w.plain.length) then .error .misuse
  else .ok { w with plain := w.plain ++ [v] }

/-- What a word with a dash leaves open: the value of its last option, if any. -/
abbrev Pending := Words × Option OptionSpec

/-- Reads what follows `--` in a word. -/
def readLong (body : Text) (w : Words) : Except Stop Pending :=
  let name := body.takeWhile (· ≠ '=')
  match l.options.find? fun o => o.long = name, body.dropWhile (· ≠ '=') with
  | none, _ => .error .misuse
  | some o, _ :: v => if o.takesValue then (give o v w).map (·, none) else .error .misuse
  | some o, [] => if o.takesValue then .ok (w, some o) else (l.raise o true w).map (·, none)

/-- Reads what follows `-` in a word. -/
def readShort : Text → Words → Except Stop Pending
  | [], w => .ok (w, none)
  | c :: rest, w =>
    match l.options.find? fun o => o.short = some c with
    | none => .error .misuse
    | some o =>
      if o.takesValue then
        if rest.isEmpty then .ok (w, some o) else (give o ((Text.after? "=" rest).getD rest) w).map (·, none)
      else
        match l.raise o false w with
        | .ok w => readShort rest w
        | .error stop => .error stop

def isDashed (word : Text) : Bool :=
  word.head? = some '-' && word.length > 1

/-- Reads a word, which may be a value still due. -/
def readWord (word : Text) (w : Words) (pending : Option OptionSpec) : Except Stop Pending :=
  match pending with
  | some o => if isDashed word then .error .misuse else (give o word w).map (·, none)
  | none =>
    match word with
    | '-' :: '-' :: body => l.readLong body w
    | '-' :: c :: rest => l.readShort (c :: rest) w
    | _ => (l.addPlain word w).map (·, none)

/-- Reads all words. After `--` none is an option. -/
def readWords (pending : Option OptionSpec) (w : Words) : List Text → Except Stop Words
  | [] => if pending.isSome then .error .misuse else .ok w
  | word :: words =>
    if word = "--" then
      if pending.isSome then .error .misuse else words.foldlM (fun w v => l.addPlain v w) w
    else
      match l.readWord word w pending with
      | .error stop => .error stop
      | .ok (w, pending) => readWords pending w words

end Level

/-! ## Requests -/

structure Settings where
  config : Option Path := none
  overrides : Overrides := {}
  frontend : Frontend := .compiler
  json : Bool := false
deriving DecidableEq

/-- What a run is asked to do. -/
inductive Request where
  | transpile (input : Path) (output : Option Path)
  | batch (inputs : List Path) (output : Path)
  | dump (input : Path)
deriving DecidableEq

namespace Words

def settings (w : Words) : Settings :=
  { config := (w.value? .config).map Path.mk
    overrides :=
      { device := w.value? .device
        includes := w.values .includeDir
        defines := w.values .define
        program := w.value? .compiler
        timeoutSeconds := (w.value? .timeout).bind Text.readWord?
        noStubs := w.has .noStubs }
    frontend := if w.value? .frontend = some "dump".toList then .saved else .compiler
    json := w.has .json }

def request? (c : Command) (w : Words) : Option Request :=
  let output := (w.value? .output).map Path.mk
  match c, w.plain.map Path.mk with
  | _, [] => none
  | .transpile, input :: _ => some (.transpile input output)
  | .batch, inputs => some (.batch inputs (output.getD "."))
  | .dump, input :: _ => some (.dump input)

end Words

/-- What a help command with further words asks for. -/
def helpRequest : List Text → Stop
  | [] => .rootHelp
  | [word] =>
    if word = "help" then .helpHelp
    else
      match Command.ofWord? word with
      | some c => .help c true
      | none => .misuse
  | _ => .misuse

def readCommand (c : Command) (words : List Text) : Except Stop (Request × Settings) := do
  let w ← (Level.ofCommand c).readWords none {} words
  match w.request? c with
  | some request => .ok (request, w.settings)
  | none => .error .misuse

/-- The words of a command line, from the options before the command on. -/
def readFrom (w : Words) : List Text → Except Stop (Request × Settings)
  | [] => .error .misuse
  | word :: words =>
    if word = "help" then .error (helpRequest words)
    else
      match Command.ofWord? word with
      | some c => readCommand c words
      | none =>
        if word = "--" then .error .misuse
        else
          match Level.root.readWord word w none with
          | .error stop => .error stop
          | .ok (w, _) => readFrom w words

/-- What the words ask for, and by which settings. -/
def parse (words : List Text) : Except Stop (Request × Settings) :=
  readFrom {} words

end Declass.CommandLine
