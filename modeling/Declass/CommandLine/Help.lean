import Declass.CommandLine.Option

/-!
# Help texts

The help of the program and of each command. The short form of a command's help has one line for each option; the long
form describes each option in a paragraph.
-/

namespace Declass.CommandLine

def padded (width : Nat) (t : Text) : Text :=
  t ++ List.replicate (width - t.length) ' '

/-- Lines of two columns, the first as wide as its widest entry. -/
def columns (rows : List (Text × Text)) : Text :=
  let width := (rows.map fun r => r.1.length).foldl max 0
  rows.flatMap fun (left, right) => "  " ++ padded width left ++ "  " ++ right ++ "\n"

namespace OptionSpec

def synopsis (o : OptionSpec) : Text :=
  let short : Text := match o.short with | some c => ['-', c, ',', ' '] | none => "    "
  let value : Text := match o.valueName with | some v => " <" ++ v ++ ">" | none => []
  short ++ "--" ++ o.long ++ value

def defaultNote (o : OptionSpec) : List Text :=
  o.default.toList.map fun (v : Text) => "[default: " ++ v ++ "]"

def choiceNote (o : OptionSpec) : List Text :=
  if o.choices.isEmpty then [] else ["[possible values: " ++ Text.join ", " (o.choices.map Prod.fst) ++ "]"]

def shortRow (o : OptionSpec) : Text × Text :=
  (o.synopsis, Text.join " " ([o.about] ++ o.defaultNote ++ o.choiceNote))

def margin : Text := "          "

def choiceList (o : OptionSpec) : Text :=
  let width := (o.choices.map fun c => c.1.length).foldl max 0
  let row (c : Text × Text) : Text := margin ++ "- " ++ padded (width + 2) (c.1 ++ ":") ++ c.2 ++ "\n"
  if o.choices.isEmpty then [] else "\n" ++ margin ++ "Possible values:\n" ++ o.choices.flatMap row

/-- The option's paragraph in the long help, with values and default. -/
def paragraph (o : OptionSpec) : Text :=
  let note (n : Text) : Text := margin ++ "\n" ++ margin ++ n ++ "\n"
  "  " ++ o.synopsis ++ "\n" ++ margin ++ o.about ++ "\n" ++ o.choiceList ++ o.defaultNote.flatMap note

end OptionSpec

def rootHelp : Text :=
  let commands : List (Text × Text) := Command.all.map (fun c => (c.word, c.about)) ++
    [(("help" : Text), ("Print this message or the help of the given subcommand(s)" : Text))]
  "Translate a C++ subset to C for the XC8 compiler\n\nUsage: xc8pp [OPTIONS] <COMMAND>\n\nCommands:\n" ++
    columns commands ++ "\nOptions:\n" ++ columns (rootOptions.map OptionSpec.shortRow)

def helpHelp : Text :=
  "Print this message or the help of the given subcommand(s)\n\nUsage: xc8pp help [COMMAND]...\n\nArguments:\n" ++
    columns [("[COMMAND]...", "Print help for the subcommand(s)")]

namespace Command

def helpHead (c : Command) : Text :=
  c.about ++ "\n\nUsage: xc8pp " ++ c.word ++ " [OPTIONS] " ++ c.argument.1 ++ "\n\nArguments:\n"

def shortHelp (c : Command) : Text :=
  c.helpHead ++ columns [c.argument] ++ "\nOptions:\n" ++
    columns ((c.options "Print help (see more with '--help')").map OptionSpec.shortRow)

def longHelp (c : Command) : Text :=
  c.helpHead ++ "  " ++ c.argument.1 ++ "\n" ++ OptionSpec.margin ++ c.argument.2 ++ "\n\nOptions:\n" ++
    Text.join "\n" ((c.options "Print help (see a summary with '-h')").map OptionSpec.paragraph)

end Command

end Declass.CommandLine
