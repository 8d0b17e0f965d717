import Declass.Analysis.Compiler
import Declass.Disk.Basic
import Declass.Output.Document
import Declass.Toml.Document

/-!
# Project settings

The settings of a project: four sections, each with its defaults, read from the file `xc8pp.toml` and overridden from the
command line. A key that no section knows is skipped; a value of the wrong type spoils the file.
-/

namespace Declass

/-- The device that is written for. -/
structure TargetConfig where
  device : Text := "PIC16F876A"
  xtalFreq : Nat := 4000000
  includes : List Text := []
  /-- Macros, as a name or as a name and a value around `=`. -/
  defines : List Text := []
deriving DecidableEq

/-- How the compiler is called. -/
structure CompilerConfig where
  program : Text := "clang"
  standard : Text := "c++17"
  timeoutSeconds : Nat := 60
  /-- A stand-in device header is put on the include path. -/
  stubs : Bool := true
  extraArgs : List Text := []
deriving DecidableEq

/-- What is written into the output. -/
structure OutputConfig where
  sharedHeader : Text := "shared_definitions.h"
  deviceHeader : Bool := true
deriving DecidableEq

/-- The settings of a project. -/
structure Config where
  name : Option Text := none
  target : TargetConfig := {}
  compiler : CompilerConfig := {}
  output : OutputConfig := {}
deriving DecidableEq

/-- Settings from the command line. -/
structure Overrides where
  device : Option Text := none
  includes : List Text := []
  defines : List Text := []
  program : Option Text := none
  timeoutSeconds : Option Nat := none
  noStubs : Bool := false
deriving DecidableEq

/-- What can be wrong with a file of settings. -/
inductive ConfigError where
  | unreadable (e : DiskError)
  /-- The file is no TOML, or a value has the wrong type. -/
  | malformed
  | noDevice
  | noTime
  | sharedHeaderPath (name : Text)
deriving DecidableEq

namespace ConfigError

def message : ConfigError → Text
  | .unreadable e => "Failed to read config file: " ++ e.message
  | .malformed => "Failed to parse TOML config"
  | .noDevice => "Config validation error: target.device must not be empty"
  | .noTime => "Config validation error: frontend.timeout_secs must be greater than zero"
  | .sharedHeaderPath name =>
    "Config validation error: output.shared_header must be a bare file name, got `" ++ name ++ "`"

end ConfigError

namespace Config

/-! ## Reading -/

/-- A setting's value, or its default when it is not set. -/
def setting {α : Type} (v : Option Toml.Value) (read : Toml.Value → Option α) (default : α) : Option α :=
  match v with
  | none => some default
  | some v => read v

def text? : Toml.Value → Option Text
  | .string t => some t
  | _ => none

def nat? : Toml.Value → Option Nat
  | .integer (.ofNat n) => some n
  | _ => none

def bool? : Toml.Value → Option Bool
  | .boolean b => some b
  | _ => none

def texts? : Toml.Value → Option (List Text)
  | .array vs => vs.mapM text?
  | _ => none

/-- The settings of a section, by name or by place. -/
def section? : Option Toml.Value → Option (Nat → Text → Option Toml.Value)
  | none => some fun _ _ => none
  | some (.table _ es) => some fun _ name => Toml.Entries.get? es name
  | some (.array vs) => some fun i _ => vs[i]?
  | some (.tables earlier last) => some fun i _ => ((earlier ++ [last]).map (Toml.Value.table .header))[i]?
  | some (.moment _) => some fun _ _ => none
  | some _ => none

def nameOf? (v : Option Toml.Value) : Option (Option Text) := do
  let s ← section? v
  setting (s 0 "name") (fun v => (text? v).map some) none

def targetOf? (v : Option Toml.Value) : Option TargetConfig := do
  let s ← section? v
  let default : TargetConfig := {}
  let device ← setting (s 0 "device") text? default.device
  let xtalFreq ← setting (s 1 "xtal_freq") nat? default.xtalFreq
  let includes ← setting (s 2 "includes") texts? default.includes
  let defines ← setting (s 3 "defines") texts? default.defines
  return { device, xtalFreq, includes, defines }

def compilerOf? (v : Option Toml.Value) : Option CompilerConfig := do
  let s ← section? v
  let default : CompilerConfig := {}
  let program ← setting (s 0 "clang") text? default.program
  let standard ← setting (s 1 "std") text? default.standard
  let timeoutSeconds ← setting (s 2 "timeout_secs") nat? default.timeoutSeconds
  let stubs ← setting (s 3 "stubs") bool? default.stubs
  let extraArgs ← setting (s 4 "extra_args") texts? default.extraArgs
  return { program, standard, timeoutSeconds, stubs, extraArgs }

def outputOf? (v : Option Toml.Value) : Option OutputConfig := do
  let s ← section? v
  let default : OutputConfig := {}
  let sharedHeader ← setting (s 0 "shared_header") text? default.sharedHeader
  let deviceHeader ← setting (s 1 "device_header") bool? default.deviceHeader
  return { sharedHeader, deviceHeader }

/-- The settings in a text. -/
def ofText? (t : Text) : Option Config := do
  let es ← Toml.read? t
  let name ← nameOf? (es.get? "project")
  let target ← targetOf? (es.get? "target")
  let compiler ← compilerOf? (es.get? "frontend")
  let output ← outputOf? (es.get? "output")
  return { name, target, compiler, output }

/-! ## Checking and overriding -/

/-- The first setting that cannot be used. -/
def defect? (c : Config) : Option ConfigError :=
  if Text.allBlank c.target.device then some .noDevice
  else if c.compiler.timeoutSeconds = 0 then some .noTime
  else if c.output.sharedHeader.any fun ch => ch = '/' || ch = '\\' then
    some (.sharedHeaderPath c.output.sharedHeader)
  else none

def validate (c : Config) : Except ConfigError Config :=
  match c.defect? with
  | some e => .error e
  | none => .ok c

/-- The settings in a file, if they can be used. -/
def load (d : Disk) (path : Path) : Except ConfigError Config :=
  match d.readText path with
  | .error e => .error (.unreadable e)
  | .ok t =>
    match ofText? t with
    | none => .error .malformed
    | some c => c.validate

/-- The settings under those of the command line. Lists are appended. -/
def override (c : Config) (o : Overrides) : Config :=
  { c with
    target := { c.target with
      device := o.device.getD c.target.device
      includes := c.target.includes ++ o.includes
      defines := c.target.defines ++ o.defines }
    compiler := { c.compiler with
      program := o.program.getD c.compiler.program
      timeoutSeconds := o.timeoutSeconds.getD c.compiler.timeoutSeconds
      stubs := c.compiler.stubs && !o.noStubs } }

/-! ## Use -/

def fileName : Path := "xc8pp.toml"

/-- The settings file of a directory, the nearest in it or above. -/
def find? (d : Disk) (dir : Path) : Option Path :=
  (dir.ancestors.map fun a => a.join fileName).find? d.isFile

def definesMacro (c : Config) (name : Text) : Bool :=
  c.target.defines.any fun (d : Text) => d.takeWhile (· ≠ '=') = name

def outputOptions (c : Config) : OutputOptions :=
  { deviceHeader := c.output.deviceHeader, sharedHeader := c.output.sharedHeader, xtalFreq := c.target.xtalFreq }

/-- The settings of the compiler's command line, with directories seen from `base`. -/
def compilerOptions (c : Config) (base : Path) (stubDir : Option Path) : CompilerOptions :=
  let frequency : List Text :=
    if c.definesMacro "_XTAL_FREQ" then [] else ["_XTAL_FREQ=" ++ Text.ofNat c.target.xtalFreq]
  { program := c.compiler.program
    standard := c.compiler.standard
    includes := c.target.includes.map (fun dir => base.join ⟨dir⟩) ++ stubDir.toList
    defines := c.target.defines ++ frequency
    extraArgs := c.compiler.extraArgs
    timeoutSeconds := c.compiler.timeoutSeconds }

end Config

end Declass
