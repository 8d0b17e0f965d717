import Declass.Output.Document

/-!
# Device headers

A compiler on the desk does not know the registers of the device or the delay functions of its compiler. The stand-in
`xc.h` declares them, for the reading of declarations only.
-/

namespace Declass.Device

def byteRegisters : List Text :=
  ["PORTA", "PORTB", "PORTC", "TRISA", "TRISB", "TRISC", "TMR0", "INTCON", "OPTION_REG", "EEDATA", "EEADR", "EECON1",
    "EECON2", "ADCON1", "STATUS"]

/-- Registers whose bits have names, from the lowest bit on. -/
def bitRegisters : List (Text × List Text) :=
  [("PORTAbits", ["RA0", "RA1", "RA2", "RA3", "RA4", "RA5", "RA6", "RA7"]),
    ("PORTBbits", ["RB0", "RB1", "RB2", "RB3", "RB4", "RB5", "RB6", "RB7"]),
    ("PORTCbits", ["RC0", "RC1", "RC2", "RC3", "RC4", "RC5", "RC6", "RC7"]),
    ("TRISAbits", ["TRISA0", "TRISA1", "TRISA2", "TRISA3", "TRISA4", "TRISA5", "TRISA6", "TRISA7"]),
    ("TRISBbits", ["TRISB0", "TRISB1", "TRISB2", "TRISB3", "TRISB4", "TRISB5", "TRISB6", "TRISB7"]),
    ("TRISCbits", ["TRISC0", "TRISC1", "TRISC2", "TRISC3", "TRISC4", "TRISC5", "TRISC6", "TRISC7"]),
    ("INTCONbits", ["RBIF", "INTF", "T0IF", "RBIE", "INTE", "T0IE", "PEIE", "GIE"]),
    ("OPTION_REGbits", ["PS0", "PS1", "PS2", "PSA", "T0SE", "T0CS", "INTEDG", "RBPU"]),
    ("EECON1bits", ["RD", "WR", "WREN", "WRERR"]),
    ("STATUSbits", ["CARRY", "DC", "ZERO", "PD", "TO", "RP0", "RP1", "IRP"])]

/-- The name of a device without the name of its family before it. -/
def bareName : Text → Text
  | 'P' :: 'I' :: 'C' :: rest => bareName rest
  | name => name

def bitRegister (name : Text) (bits : List Text) : Item :=
  .block "extern volatile struct \x7b" (bits.map fun bit => "unsigned " ++ bit ++ ":1;") ("\x7d " ++ name ++ ";")

/-- The stand-in header of a device whose oscillator has the frequency `xtalFreq`. -/
def header (device : Text) (xtalFreq : Nat) : Document :=
  [.line "/* Generated by xc8pp for declaration analysis only. */", .line "#ifndef _XC_H_", .line "#define _XC_H_",
    .blank, .line ("#define _" ++ Text.toUpper (bareName device) ++ " 1")] ++
    Document.xtalDefault { xtalFreq } ++
    [.blank, .line "#define __delay_ms(x) ((void)(x))", .line "#define __delay_us(x) ((void)(x))",
      .line "#define __interrupt(...)", .line "#define __CONFIG(x)", .line "#define _BV(bit) (1 << (bit))", .blank] ++
    byteRegisters.map (fun r => .line ("extern volatile unsigned char " ++ r ++ ";")) ++ [.blank] ++
    bitRegisters.flatMap (fun (name, bits) => [bitRegister name bits, .blank]) ++ [.line "#endif"]

def headerText (device : Text) (xtalFreq : Nat) : Text :=
  (header device xtalFreq).render

end Declass.Device
