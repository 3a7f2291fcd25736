import RippleCarry.Text
/-!
# Numerals

The values given on a command line. A numeral is an optional minus, an optional radix mark (`0x`
for 16, `0b` for 2, none for 10), an optional plus and one or more digits, with blanks around the
whole; it stands for a 64-bit word, a negative one in two's complement. Digits are read from the
left, and the first fault decides: a character that is no digit, or a digit that takes the value
past 64 bits.
-/

namespace RippleCarry

namespace Numeral

/-- Why a text is not a numeral. -/
inductive Fault where
  | empty
  | invalidDigit
  | tooLarge
deriving DecidableEq, Repr

def Fault.reason : Fault → String
  | empty => "cannot parse integer from empty string"
  | invalidDigit => "invalid digit found in string"
  | tooLarge => "number too large to fit in target type"

/-- Reads digits behind those that make up the value so far. -/
def readFrom (radix : Nat) : Nat → List Char → Except Fault Nat
  | value, [] => .ok value
  | value, c :: rest =>
    match Text.digit? radix c with
    | none => .error .invalidDigit
    | some d =>
      let value := value * radix + d
      if value < UInt64.size then readFrom radix value rest else .error .tooLarge

/-- Reads an optional plus and one or more digits. A plus alone is not a missing number but a
wrong digit. -/
def readUnsigned (radix : Nat) : List Char → Except Fault Nat
  | [] => .error .empty
  | ['+'] => .error .invalidDigit
  | '+' :: digits => readFrom radix 0 digits
  | digits => readFrom radix 0 digits

/-- Reads the radix mark and what follows it. -/
def readMagnitude : List Char → Except Fault Nat
  | '0' :: 'x' :: rest => readUnsigned 16 rest
  | '0' :: 'b' :: rest => readUnsigned 2 rest
  | rest => readUnsigned 10 rest

/-- The word that a text without surrounding blanks stands for. -/
def read : List Char → Except Fault UInt64
  | '-' :: rest => (readMagnitude rest).map fun m => -m.toUInt64
  | rest => (readMagnitude rest).map Nat.toUInt64

/-- What is wrong with a list of numerals. -/
inductive Error where
  | invalid (text : List Char) (fault : Fault)
  | tooMany
deriving DecidableEq, Repr

def Error.message : Error → String
  | invalid text fault =>
    "invalid operand value " ++ String.ofList (Text.quote text) ++ ": " ++ fault.reason
  | tooMany => "--eval takes at most two comma-separated values"

/-- The word that a text stands for. -/
def parse (text : List Char) : Except Error UInt64 :=
  let text := Text.trim text
  (read text).mapError (.invalid text)

/-- The parts of a text between its commas. -/
def splitCommas : List Char → List (List Char)
  | [] => [[]]
  | ',' :: rest => [] :: splitCommas rest
  | c :: rest =>
    match splitCommas rest with
    | [] => [[c]]
    | part :: parts => (c :: part) :: parts

/-- One numeral, or two with a comma between them. A missing second one is 0, and a fault in the
first two counts before there being more of them. -/
def parsePair (text : List Char) : Except Error (UInt64 × UInt64) :=
  match splitCommas text with
  | [] => (parse []).map (·, 0)
  | [first] => (parse first).map (·, 0)
  | first :: second :: rest => do
    let x ← parse first
    let y ← parse second
    if rest.isEmpty then return (x, y) else throw .tooMany

end Numeral
end RippleCarry
