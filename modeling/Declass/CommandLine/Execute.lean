import Declass.CommandLine.Arguments
import Declass.CommandLine.Help
import Declass.CommandLine.Json

/-!
# The program

What the program does with a command line: the run it makes, what it prints, and the status it ends with. A bad command
line ends with 2, a run that failed with 1.
-/

namespace Declass.CommandLine

structure Outcome where
  status : Nat := 0
  output : Text := []
  notes : Text := []
  disk : Disk
  commands : List CompilerCommand := []
deriving DecidableEq

def linesOf (ts : List Text) : Text :=
  ts.flatMap fun (t : Text) => t ++ "\n"

def failed (d : Disk) (commands : List CompilerCommand) (message : Text) : Outcome :=
  { status := 1, notes := linesOf ["Error: " ++ message], disk := d, commands }

/-- The directory of the first input, where settings are looked for. -/
def inputDir (input : Path) : Path :=
  match input.parent? with
  | some dir => if dir.text.isEmpty then "." else dir
  | none => "."

def session (d : Disk) (s : Settings) (input : Path) : Except Text Session := do
  let dir := inputDir input
  let path := s.config.or (Config.find? d dir)
  let config ←
    match path with
    | none => .ok {}
    | some p =>
      match Config.load d p with
      | .ok c => .ok c
      | .error e => .error (p.text ++ ": " ++ e.message)
  match (config.override s.overrides).validate with
  | .ok config => .ok { config, base := (path.bind Path.parent?).getD dir, frontend := s.frontend }
  | .error e => .error ("invalid options: " ++ e.message)

def summaryLines (s : Summary) : List Text :=
  s.classes.map (fun c =>
      "class " ++ c.name ++ " (" ++ Text.ofNat c.fields.length ++ " fields, " ++ Text.ofNat c.methods.length ++
        " methods)") ++
    s.overloads.map (fun o => "overload " ++ o.name ++ " -> " ++ Text.join ", " o.mangled) ++
    (if s.hasMain then [("main" : Text)] else [])

def warningLines (warnings : List Text) : Text :=
  linesOf (warnings.map fun (w : Text) => "warning: " ++ w)

/-- The outcome of a run with one input, as JSON or as lines. -/
def unitOutcome (s : Settings) (r : UnitReport) (lines : List Text) (d : Disk) (commands : List CompilerCommand) :
    Outcome :=
  if s.json then { output := linesOf [r.json.render], disk := d, commands }
  else { output := linesOf lines, notes := warningLines r.warnings, disk := d, commands }

def batchOutcome (s : Settings) (count : Nat) (r : BatchReport) (d : Disk) (commands : List CompilerCommand) : Outcome :=
  let failures := r.failures ++ r.writeErrors
  let status := if r.succeeded then 0 else 1
  let verdict : Text :=
    if r.succeeded then []
    else "Error: " ++ Text.ofNat failures.length ++ " of " ++ Text.ofNat count ++ " files failed\n"
  if s.json then { status, output := linesOf [r.json.render], notes := verdict, disk := d, commands }
  else
    { status
      output := linesOf (r.outputs.map fun p => "wrote " ++ p.text)
      notes := warningLines r.warnings ++ linesOf (failures.map fun f => f.path.text ++ ": " ++ f.message) ++ verdict
      disk := d
      commands }

def perform (d : Disk) (compile : CompilerCommand → CompilerRun) (s : Settings) : Request → Outcome
  | .transpile input output =>
    match session d s input with
    | .error e => failed d [] e
    | .ok session =>
      let run := session.run d compile
      let commands := session.commands (run.consulted d input)
      match run.transpile d input output with
      | (d, .error e) => failed d commands e.message
      | (d, .ok r) =>
        unitOutcome s r (r.outputs.map fun p => input.text ++ " -> " ++ p.text) d commands
  | .batch inputs output =>
    match session d s (inputs.head?.getD "") with
    | .error e => failed d [] e
    | .ok session =>
      let run := session.run d compile
      let commands := session.commands (Run.batchConsulted d inputs)
      match run.batch d inputs output with
      | (d, .error e) => failed d commands e.message
      | (d, .ok r) => batchOutcome s inputs.length r d commands
  | .dump input =>
    match session d s input with
    | .error e => failed d [] e
    | .ok session =>
      let run := session.run d compile
      let commands := session.commands (run.consulted d input)
      match run.inspect d input with
      | .error e => failed d commands e.message
      | .ok (_, r) => unitOutcome s r (summaryLines r.summary) d commands

def stopped (d : Disk) : Stop → Outcome
  | .rootHelp => { output := rootHelp, disk := d }
  | .helpHelp => { output := helpHelp, disk := d }
  | .help c true => { output := c.longHelp, disk := d }
  | .help c false => { output := c.shortHelp, disk := d }
  | .version => { output := "xc8pp 0.1.0\n", disk := d }
  | .misuse => { status := 2, notes := rootHelp, disk := d }

/-- What a command line comes to on a disk; `compile` runs compiler commands. -/
def execute (d : Disk) (compile : CompilerCommand → CompilerRun) (words : List Text) : Outcome :=
  match parse words with
  | .error stop => stopped d stop
  | .ok (request, settings) => perform d compile settings request

end Declass.CommandLine
