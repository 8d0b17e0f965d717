import Declass.Basic

/-!
# Declarations of the toolchain

Names of the standard library, of the compiler and of the device headers, which a dump reports next to the program's own
declarations and which are not part of the program.
-/

namespace Declass.Noise

def libraryRecords : List Text :=
  ["type_info", "exception", "bad_alloc", "bad_cast", "bad_typeid", "logic_error", "runtime_error", "string", "vector",
    "list", "map", "set", "iostream", "ostream", "istream", "basic_string", "allocator"]

def registerBits : List Text :=
  ["RBIF", "INTF", "T0IF", "RBIE", "INTE", "T0IE", "PEIE", "GIE", "PS0", "PS1", "PS2", "PSA", "T0SE", "T0CS", "INTEDG",
    "RBPU", "RD", "WR", "WREN", "WRERR", "CARRY", "DC", "ZERO", "PD", "TO", "RP0", "RP1", "IRP"]

/-- Words that can stand where a field's name is expected. -/
def fieldNoise : List Text :=
  ["val", "referenced", "implicit"]

def registerNames : List Text :=
  ["PORTA", "PORTB", "PORTC", "TMR", "INTCON", "OPTION_REG", "EE", "STATUS"]

def isIgnoredClass (name : Text) : Bool :=
  name.head? == some '_' || name.elem '<' || libraryRecords.contains name

/-- A field that is a bit of a register: `RA0` to `RC7`, or a control bit. -/
def isRegisterField (name : Text) : Bool :=
  fieldNoise.contains name || registerBits.contains name ||
    match name with
    | ['R', letter, bit] => (letter == 'A' || letter == 'B' || letter == 'C') && '0' ≤ bit && bit ≤ '7'
    | _ => false

/-- Types that only register variables have. -/
def registerTypes : List Text :=
  ["unsigned char", "struct", "const"]

/-- A variable that is a register, by its name or by its type. -/
def isSystemVariable (name type : Text) : Bool :=
  registerNames.any (Text.startsWith name ·) || Text.endsWith name "bits" || Text.endsWith name "BITS" ||
    registerTypes.contains type || Text.contains type "unnamed" ||
    Text.contains type "const" || type.elem '&'

def isSystemNamespace (name : Text) : Bool :=
  name == "std" || Text.startsWith name "__"

def isReservedFunction (name : Text) : Bool :=
  Text.startsWith name "__" || Text.startsWith name "operator"

end Declass.Noise
