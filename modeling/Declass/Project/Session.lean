import Declass.Device.Stubs
import Declass.Project.Config
import Declass.Run.Basic

/-!
# Sessions

The run that the settings of a project ask for.
-/

namespace Declass

inductive Frontend where
  | compiler
  | saved
deriving DecidableEq

/-- A project as it is run: settings, their directory, and its source. -/
structure Session where
  config : Config
  base : Path
  frontend : Frontend
deriving DecidableEq

namespace Session

variable (s : Session)

/-- The stubs of the session: the stand-in header, when the compiler needs it. -/
def stubs : Stubs :=
  if s.frontend = .compiler && s.config.compiler.stubs then
    ({} : Stubs).apply (.ensure s.config.target.device s.config.target.xtalFreq)
  else {}

def compilerOptions : CompilerOptions :=
  s.config.compilerOptions s.base (s.stubs.dir.map TempArea.path)

/-- The run of the session, where `compile` tells what becomes of a command. -/
def run (d : Disk) (compile : CompilerCommand → CompilerRun) : Run :=
  { source :=
      match s.frontend with
      | .compiler => DumpSource.compiler s.compilerOptions compile
      | .saved => DumpSource.saved d "ast"
    options := s.config.outputOptions }

/-- The commands that the dumps of the files are asked with. -/
def commands (files : List Path) : List CompilerCommand :=
  match s.frontend with
  | .compiler => files.map s.compilerOptions.command
  | .saved => []

end Session

end Declass
