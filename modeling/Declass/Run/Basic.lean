import Declass.Analysis.Compiler
import Declass.Disk.Write
import Declass.Output.Batch
import Declass.Program.Bodies
import Declass.Program.Build
import Declass.Run.Load
import Declass.Run.Report

/-!
# Runs

A run gathers the declarations of its files into one program, finds the bodies in the sources and writes the generated files. With
one input any failure ends the run; a batch notes failures and goes on.
-/

namespace Declass

inductive RunError where
  | noInputs
  | unreadable (path : Path) (e : DiskError)
  | unwritable (path : Path)
  | analysis (e : AnalysisError)
  | collision (e : NameCollision)
deriving DecidableEq

namespace RunError

def message : RunError → Text
  | .noInputs => "no input files"
  | .unreadable path _ => "failed to read " ++ path.text
  | .unwritable path => "failed to write " ++ path.text
  | .analysis e => e.message
  | .collision e => e.message

end RunError

structure Run where
  source : DumpSource
  options : OutputOptions

namespace Run

variable (r : Run) (d : Disk)

/-! ## The program -/

def resolve (declarations : List (List Declaration)) (corpus : Corpus) : Except RunError Program :=
  match (Program.absorbAll {} declarations.flatten).finish with
  | .error e => .error (.collision e)
  | .ok p => .ok (p.fill corpus.outlines)

def warnings (p : Program) : List Text :=
  p.missingBodies.map fun (name : Text) => "no body found for `" ++ name ++ "`, emitted a default return"

def programOf (input : Path) : Except RunError Program := do
  let files := d.related [input]
  if let (path, e) :: _ := d.unreadable files then .error (.unreadable path e)
  let corpus := d.load files
  let declarations ← files.mapM fun f =>
    match r.source.declarations corpus.paths f with
    | .ok ds => .ok ds
    | .error e => .error (.analysis e)
  resolve declarations corpus

/-- The files that a run with one input asks for: up to a failure. -/
def consulted (input : Path) : List Path :=
  let files := d.related [input]
  if (d.unreadable files).isEmpty then
    let (good, rest) := files.span fun f => (r.source f).isOk
    good ++ rest.take 1
  else []

/-! ## Writing -/

/-- Writes a file into a directory, which is made if missing. -/
def store (dir : Path) (f : GeneratedFile) : Disk × Except RunError Path :=
  let path := dir.join ⟨f.name⟩
  match d.makeDirectories dir with
  | (d, some _) => (d, .error (.unwritable path))
  | (d, none) =>
    match d.write path (Text.toUtf8 f.contents) with
    | .ok d => (d, .ok path)
    | .error _ => (d, .error (.unwritable path))

/-- Writes files until one cannot be written. -/
def storeAll (d : Disk) (dir : Path) : List GeneratedFile → Disk × Except RunError (List Path)
  | [] => (d, .ok [])
  | f :: fs =>
    match store d dir f with
    | (d, .error e) => (d, .error e)
    | (d, .ok path) =>
      let (d, rest) := storeAll d dir fs
      (d, rest.map (path :: ·))

/-- Writes each file that can be written, and gives what became of each. -/
def storeEach (d : Disk) (dir : Path) : List GeneratedFile → Disk × List (Except Failure Path)
  | [] => (d, [])
  | f :: fs =>
    let (d, result) := store d dir f
    let (d, results) := storeEach d dir fs
    let entry :=
      match result with
      | .ok path => .ok path
      | .error e => .error { path := dir.join ⟨f.name⟩, message := e.message }
    (d, entry :: results)

/-! ## One input -/

def report (input : Path) (outputs : List Path) (p : Program) : UnitReport :=
  { input, outputs, summary := Summary.ofProgram p, warnings := warnings p }

def inspect (input : Path) : Except RunError (Program × UnitReport) :=
  (r.programOf d input).map fun p => (p, report input [] p)

/-- The directory and the stem of the output: `x.c` names both, other outputs the directory alone. -/
def target (input : Path) (output : Option Path) : Path × Text :=
  let dir (p : Path) : Path := p.parent?.getD ""
  let stem (p : Path) : Text := p.stem?.getD "out"
  match output with
  | none => (dir input, stem input)
  | some p => if p.extension? = some ['c'] then (dir p, stem p) else (p, stem input)

/-- Turns one input and its siblings into a header and a source file. -/
def transpile (input : Path) (output : Option Path) : Disk × Except RunError UnitReport :=
  match r.programOf d input with
  | .error e => (d, .error e)
  | .ok p =>
    let (dir, stem) := target input output
    let source := input.fileName?.getD input.text
    let (d, outputs) := storeAll d dir (p.generateUnit r.options stem source)
    (d, outputs.map fun outputs => report input outputs p)

/-! ## Many inputs -/

def readable (corpus : Corpus) (files : List Path) : List Path :=
  files.filter fun f => (corpus.get? f).isSome

def batchConsulted (inputs : List Path) : List Path :=
  let files := d.related inputs
  readable (d.loadFiles files).corpus files

/-- What the source tells of a file: declarations, or why none. -/
def analyses (origins files : List Path) : List (Path × Except AnalysisError (List Declaration)) :=
  files.map fun f => (f, r.source.declarations origins f)

def successes (results : List (Path × Except AnalysisError (List Declaration))) : List (Path × List Declaration) :=
  results.filterMap fun (f, result) => result.toOption.map fun ds => (f, ds)

def analysisFailures (results : List (Path × Except AnalysisError (List Declaration))) : List Failure :=
  results.filterMap fun (f, result) =>
    match result with
    | .ok _ => none
    | .error e => some { path := f, message := e.message }

def readFailures (files : List (Path × DiskError)) : List Failure :=
  files.map fun (path, e) => { path, message := "failed to read " ++ path.text ++ ": " ++ e.message }

/-- Turns many inputs into a shared header and units. Nothing is written if nothing was analysed. -/
def batch (inputs : List Path) (dir : Path) : Disk × Except RunError BatchReport :=
  if inputs.isEmpty then (d, .error .noInputs)
  else
    let files := d.related inputs
    let corpus := d.load files
    let results := r.analyses corpus.paths (readable corpus files)
    let found := successes results
    match resolve (found.map Prod.snd) corpus with
    | .error e => (d, .error e)
    | .ok p =>
      let analyzed := found.map Prod.fst
      let (d', written) :=
        if analyzed.isEmpty then (d, []) else storeEach d dir (p.generateBatch r.options analyzed)
      (d', .ok
        { analyzed
          outputs := written.filterMap fun w => w.toOption
          failures := readFailures (d.unreadable files) ++ analysisFailures results
          writeErrors := written.filterMap fun w => match w with | .ok _ => none | .error f => some f
          summary := Summary.ofProgram p
          warnings := warnings p })

end Run

end Declass
