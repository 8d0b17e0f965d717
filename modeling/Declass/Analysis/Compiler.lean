import Declass.Disk.Basic
import Declass.Dump.Reader

/-!
# Sources of declarations

A source gives for each file the dump of its declarations or the reason why there is none. Dumps come from a compiler, which is
known by its outcome, from files saved beside the sources, or from a list.
-/

namespace Declass

/-! ## Failed analyses -/

inductive AnalysisError where
  | notStarted (program : Text)
  | failed (path : Path) (status : Nat) (summary : Text)
  | timedOut (path : Path) (seconds : Nat)
  | cancelled (path : Path)
  | unreadable (path : Path)
deriving DecidableEq

namespace AnalysisError

def message : AnalysisError → Text
  | .notStarted program => "failed to start front end `" ++ program ++ "`"
  | .failed path status summary =>
    "analysis of " ++ path.text ++ " failed (exit status: " ++ Text.ofNat status ++ "): " ++ summary
  | .timedOut path seconds => "analysis of " ++ path.text ++ " timed out after " ++ Text.ofNat seconds ++ "s"
  | .cancelled path => "analysis of " ++ path.text ++ " was cancelled"
  | .unreadable path => "failed to read declarations for " ++ path.text

def path? : AnalysisError → Option Path
  | .notStarted _ => none
  | .failed path _ _ => some path
  | .timedOut path _ => some path
  | .cancelled path => some path
  | .unreadable path => some path

/-- The line for a compiler's diagnostics: the first about an error, else the first. -/
def summary (diagnostics : Text) : Text :=
  let lines := Text.lines diagnostics
  let line := (lines.find? fun l => Text.contains l "error").or lines.head?
  Text.trim (line.getD "no diagnostics")

end AnalysisError

/-! ## The compiler -/

structure CompilerOptions where
  program : Text := "clang"
  standard : Text := "c++17"
  includes : List Path := []
  defines : List Text := []
  extraArgs : List Text := []
  timeoutSeconds : Nat := 60
deriving DecidableEq

structure CompilerCommand where
  program : Text
  args : List Text
deriving DecidableEq

namespace CompilerCommand

/-- No part of the command holds a zero character. -/
def isStartable (c : CompilerCommand) : Bool :=
  (c.program :: c.args).all fun (part : Text) => !part.elem (Char.ofNat 0)

end CompilerCommand

inductive CompilerRun where
  | notStarted
  | exited (status : Nat) (output diagnostics : List UInt8)
  | timedOut
  /-- The program was stopped or not started: the run was called off. -/
  | cancelled
deriving DecidableEq

namespace CompilerOptions

/-- The arguments that ask for a dump of the declarations only. -/
def dumpArgs : List Text :=
  ["-Xclang", "-ast-dump", "-fsyntax-only", "-fno-color-diagnostics", "-x", "c++"]

def includeArgs (dir : Path) : List Text :=
  ["-I", dir.text]

def command (o : CompilerOptions) (path : Path) : CompilerCommand :=
  { program := o.program
    args :=
      dumpArgs ++ ["-std=" ++ o.standard] ++ o.includes.flatMap includeArgs ++
        o.defines.map (fun (d : Text) => "-D" ++ d) ++ o.extraArgs ++ [path.text] }

def outcome (o : CompilerOptions) (path : Path) : CompilerRun → Except AnalysisError Text
  | .notStarted => .error (.notStarted o.program)
  | .cancelled => .error (.cancelled path)
  | .timedOut => .error (.timedOut path o.timeoutSeconds)
  | .exited status output diagnostics =>
    if status = 0 then .ok (Text.ofUtf8Lossy output)
    else .error (.failed path status (AnalysisError.summary (Text.ofUtf8Lossy diagnostics)))

end CompilerOptions

/-! ## The sources -/

/-- For each file the dump of its declarations, or why there is none. -/
abbrev DumpSource := Path → Except AnalysisError Text

namespace DumpSource

/-- Dumps in hand, by file name. The last one for a name counts. -/
def ofList (dumps : List (Text × Text)) : DumpSource := fun path =>
  let name := path.fileName?.getD []
  match dumps.reverse.find? fun d => d.1 = name with
  | some d => .ok d.2
  | none => .error (.failed path 1 (name ++ ": no canned dump"))

def savedPath (extension : Text) (path : Path) : Path :=
  ⟨path.text ++ "." ++ extension⟩

def saved (d : Disk) (extension : Text) : DumpSource := fun path =>
  match d.readText (savedPath extension path) with
  | .ok dump => .ok dump
  | .error _ => .error (.unreadable (savedPath extension path))

/-- Dumps of a compiler, where `run` tells what becomes of a command. -/
def compiler (o : CompilerOptions) (run : CompilerCommand → CompilerRun) : DumpSource := fun path =>
  let command := o.command path
  let outcome := run command
  o.outcome path (if command.isStartable || outcome = .cancelled then outcome else .notStarted)

/-- The declarations of a file that come from the given files, if any. -/
def declarations (source : DumpSource) (origins : List Path) (path : Path) : Except AnalysisError (List Declaration) :=
  (source path).map (Dump.declarations (if origins.isEmpty then none else some origins))

end DumpSource

end Declass
