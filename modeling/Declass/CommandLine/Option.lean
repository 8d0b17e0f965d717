import Declass.Basic

/-!
# Options

The commands of the program and the options that each of them takes. The same table serves the reader of the command
line and the help texts.
-/

namespace Declass.CommandLine

inductive Command where
  | transpile
  | batch
  | dump
deriving DecidableEq

inductive Key where
  | verbose
  | help
  | version
  | output
  | config
  | device
  | includeDir
  | define
  | compiler
  | timeout
  | noStubs
  | frontend
  | json
deriving DecidableEq

/-- An option. Without the name of a value it is a flag. -/
structure OptionSpec where
  key : Key
  short : Option Char := none
  long : Text
  valueName : Option Text := none
  about : Text
  default : Option Text := none
  /-- The values of the option, with descriptions; none for a free value. -/
  choices : List (Text × Text) := []
  repeats : Bool := false
deriving DecidableEq

namespace OptionSpec

def takesValue (o : OptionSpec) : Bool :=
  o.valueName.isSome

/-- What options of one rank are listed by: letter, else long name. -/
def sortName (o : OptionSpec) : Text :=
  match o.short with
  | some c => [c.toLower, if c.isLower then '0' else '1']
  | none => o.long

def nameBefore (a b : OptionSpec) : Bool :=
  List.lex a.sortName b.sortName fun x y => x.toNat < y.toNat

/-- The options by their ranks; those of one rank by their names. -/
def byRank (options : List (OptionSpec × Nat)) : List OptionSpec :=
  let before (a b : OptionSpec × Nat) : Bool := a.2 < b.2 || (a.2 = b.2 && !nameBefore b.1 a.1)
  (options.mergeSort before).map Prod.fst

end OptionSpec

namespace Command

def word : Command → Text
  | .transpile => "transpile"
  | .batch => "batch"
  | .dump => "dump"

def all : List Command := [.transpile, .batch, .dump]

def ofWord? (w : Text) : Option Command :=
  all.find? fun c => c.word = w

def about : Command → Text
  | .transpile => "Translate one source file (and its header) into a .c/.h pair"
  | .batch => "Translate several files into a shared header and one unit per file"
  | .dump => "Print the classes, overloads and main function found in a file"

def argument : Command → Text × Text
  | .transpile => ("<INPUT>", "Source file to translate")
  | .batch => ("<INPUTS>...", "Source files to translate")
  | .dump => ("<INPUT>", "Source file to inspect")

end Command

def verboseOption : OptionSpec :=
  { key := .verbose, short := some 'v', long := "verbose", about := "Log debug output" }

def helpOption (about : Text) : OptionSpec :=
  { key := .help, short := some 'h', long := "help", about }

def rootOptions : List OptionSpec :=
  [verboseOption, helpOption "Print help",
    { key := .version, short := some 'V', long := "version", about := "Print version" }]

def sharedOptions : List OptionSpec :=
  [{ key := .config, long := "config", valueName := some "CONFIG"
     about := "Project file (default: xc8pp.toml next to the first input or above it)" },
    { key := .device, long := "device", valueName := some "DEVICE", about := "Target device, e.g. PIC16F876A" },
    { key := .includeDir, short := some 'I', long := "include", valueName := some "INCLUDES"
      about := "Include directory", repeats := true },
    { key := .define, short := some 'D', long := "define", valueName := some "DEFINES"
      about := "Preprocessor define, NAME or NAME=VALUE", repeats := true },
    { key := .compiler, long := "clang", valueName := some "CLANG"
      about := "Compiler used to produce declaration dumps" },
    { key := .timeout, long := "timeout", valueName := some "TIMEOUT"
      about := "Seconds before a front-end call is abandoned" },
    { key := .noStubs, long := "no-stubs", about := "Do not synthesize stub device headers" },
    { key := .frontend, long := "frontend", valueName := some "FRONTEND", about := "Where declarations come from"
      default := some "clang"
      choices :=
        [("clang", "Run clang in AST dump mode"), ("dump", "Read `<file>.ast` dumps saved next to the sources")] },
    { key := .json, long := "json", about := "Print the run report as JSON" }]

namespace Command

def outputOption : Command → List OptionSpec
  | .transpile =>
    [{ key := .output, short := some 'o', long := "output", valueName := some "OUTPUT"
       about := "Output .c file or directory" }]
  | .batch =>
    [{ key := .output, short := some 'o', long := "output", valueName := some "OUTPUT", about := "Output directory"
       default := some "." }]
  | .dump => []

/-- The options after the command as the help lists them. The one for more output keeps the rank it has before the command. -/
def options (c : Command) (helpAbout : Text) : List OptionSpec :=
  OptionSpec.byRank ((verboseOption, 0) :: (c.outputOption ++ sharedOptions).zipIdx) ++ [helpOption helpAbout]

end Command

end Declass.CommandLine
