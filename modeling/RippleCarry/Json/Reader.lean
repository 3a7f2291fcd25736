import RippleCarry.Json
import RippleCarry.Text
/-!
# Reading JSON

`Json.parse?` reads a text that is one value with blanks around it, by the grammar to the letter:
no leading zeros, no trailing commas, no control characters in strings. Each reader takes something
off the front of the text and hands back the rest. No value nests deeper than its text is long, so
`readValue` counts down from that length.
-/

namespace RippleCarry.Json

def isBlank (c : Char) : Bool := c == ' ' || c == '\t' || c == '\n' || c == '\r'

def skipBlanks (text : List Char) : List Char := text.dropWhile isBlank

/-! ## Strings -/

/-- One element of a string literal: a character, or half of a surrogate pair. -/
inductive Element where
  | char (c : Char)
  | half (code : Nat)
deriving DecidableEq, Repr

def Element.ofUnit (code : Nat) : Element :=
  if 0xD800 ≤ code ∧ code ≤ 0xDFFF then .half code else .char (Char.ofNat code)

/-- The character of a one-letter escape. -/
def unescape? : Char → Option Char
  | '"' => some '"'
  | '\\' => some '\\'
  | '/' => some '/'
  | 'b' => some '\x08'
  | 'f' => some '\x0c'
  | 'n' => some '\n'
  | 'r' => some '\r'
  | 't' => some '\t'
  | _ => none

/-- The elements up to the closing quote. -/
def readElements : List Char → Option (List Element × List Char)
  | [] => none
  | '"' :: rest => some ([], rest)
  | '\\' :: 'u' :: a :: b :: c :: d :: rest => do
    let high := (← Text.hexDigit? a) * 16 + (← Text.hexDigit? b)
    let low := (← Text.hexDigit? c) * 16 + (← Text.hexDigit? d)
    let (elements, rest) ← readElements rest
    return (.ofUnit (high * 256 + low) :: elements, rest)
  | '\\' :: e :: rest => do
    let c ← unescape? e
    let (elements, rest) ← readElements rest
    return (.char c :: elements, rest)
  | c :: rest =>
    if c.toNat < 0x20 ∨ c = '\\' then none
    else do
      let (elements, rest) ← readElements rest
      return (.char c :: elements, rest)

/-- The characters that the elements stand for: a high half and a low half make one. -/
def assemble : List Element → Option (List Char)
  | [] => some []
  | .char c :: rest => (assemble rest).map (c :: ·)
  | .half high :: .half low :: rest =>
    if high < 0xDC00 ∧ 0xDC00 ≤ low then
      (assemble rest).map
        (Char.ofNat (0x10000 + (high - 0xD800) * 0x400 + (low - 0xDC00)) :: ·)
    else none
  | .half _ :: _ => none

/-- A string literal after its opening quote. -/
def readString (text : List Char) : Option (Option String × List Char) := do
  let (elements, rest) ← readElements text
  return ((assemble elements).map String.ofList, rest)

/-! ## Numbers -/

/-- One or more digits. -/
def readDigits (text : List Char) : Option (List Char × List Char) :=
  match text.takeWhile (Text.isDigit 10) with
  | [] => none
  | digits => some (digits, text.dropWhile (Text.isDigit 10))

/-- Digits without a leading zero. -/
def readWhole (text : List Char) : Option (List Char × List Char) := do
  match ← readDigits text with
  | ('0' :: _ :: _, _) => none
  | read => some read

def readFraction : List Char → Option (List Char × List Char)
  | '.' :: rest => do
    let (digits, rest) ← readDigits rest
    return ('.' :: digits, rest)
  | text => some ([], text)

def readSign : List Char → List Char × List Char
  | '+' :: rest => (['+'], rest)
  | '-' :: rest => (['-'], rest)
  | text => ([], text)

def readExponent : List Char → Option (List Char × List Char)
  | [] => some ([], [])
  | e :: rest =>
    if e = 'e' ∨ e = 'E' then do
      let (sign, rest) := readSign rest
      let (digits, rest) ← readDigits rest
      return (e :: sign ++ digits, rest)
    else some ([], e :: rest)

def readNumber (text : List Char) : Option (Number × List Char) := do
  let (minus, rest) := match text with
    | '-' :: rest => (['-'], rest)
    | text => ([], text)
  let (whole, rest) ← readWhole rest
  let (fraction, rest) ← readFraction rest
  let (exponent, rest) ← readExponent rest
  match minus, fraction, exponent with
  | [], [], [] => return (.nat (Text.natOfDigits 10 whole), rest)
  | _, _, _ => return (.other (minus ++ whole ++ fraction ++ exponent), rest)

/-! ## Values -/

/-- The key of a member and the colon behind it. -/
def readKey (text : List Char) : Option (Option String × List Char) := do
  match skipBlanks text with
  | '"' :: rest =>
    let (key, rest) ← readString rest
    match skipBlanks rest with
    | ':' :: rest => return (key, rest)
    | _ => none
  | _ => none

/-- A reader of one value. -/
abbrev ValueReader := List Char → Option (Json × List Char)

/-- The items of an array after the first, and the closing bracket. -/
def readItems (value : ValueReader) : Nat → List Char → Option (List Json × List Char)
  | 0, _ => none
  | fuel + 1, text =>
    match skipBlanks text with
    | ']' :: rest => some ([], rest)
    | ',' :: rest => do
      let (item, rest) ← value rest
      let (items, rest) ← readItems value fuel rest
      return (item :: items, rest)
    | _ => none

/-- The members of an object after the first, and the closing brace. -/
def readMembers (value : ValueReader) :
    Nat → List Char → Option (List (Option String × Json) × List Char)
  | 0, _ => none
  | fuel + 1, text =>
    match skipBlanks text with
    | '\x7d' :: rest => some ([], rest)
    | ',' :: rest => do
      let (key, rest) ← readKey rest
      let (item, rest) ← value rest
      let (members, rest) ← readMembers value fuel rest
      return ((key, item) :: members, rest)
    | _ => none

/-- An array after its opening bracket. -/
def readArray (value : ValueReader) (text : List Char) : Option (Json × List Char) :=
  match skipBlanks text with
  | ']' :: rest => some (.array [], rest)
  | text => do
    let (first, rest) ← value text
    let (items, rest) ← readItems value (rest.length + 1) rest
    return (.array (first :: items), rest)

/-- An object after its opening brace. -/
def readObject (value : ValueReader) (text : List Char) : Option (Json × List Char) :=
  match skipBlanks text with
  | '\x7d' :: rest => some (.object [], rest)
  | text => do
    let (key, rest) ← readKey text
    let (first, rest) ← value rest
    let (members, rest) ← readMembers value (rest.length + 1) rest
    return (.object ((key, first) :: members), rest)

/-- A value in which arrays and objects nest at most `depth` deep. -/
def readValue (depth : Nat) (text : List Char) : Option (Json × List Char) :=
  match skipBlanks text with
  | '"' :: rest => do
    let (content, rest) ← readString rest
    return (.string content, rest)
  | '[' :: rest =>
    match depth with
    | 0 => none
    | depth + 1 => readArray (readValue depth) rest
  | '\x7b' :: rest =>
    match depth with
    | 0 => none
    | depth + 1 => readObject (readValue depth) rest
  | 'n' :: 'u' :: 'l' :: 'l' :: rest => some (.null, rest)
  | 't' :: 'r' :: 'u' :: 'e' :: rest => some (.bool true, rest)
  | 'f' :: 'a' :: 'l' :: 's' :: 'e' :: rest => some (.bool false, rest)
  | rest => do
    let (n, rest) ← readNumber rest
    return (.number n, rest)

/-- The value of a text. -/
def parse? (text : String) : Option Json := do
  let chars := text.toList
  let (value, rest) ← readValue chars.length chars
  match skipBlanks rest with
  | [] => return value
  | _ => none

end RippleCarry.Json
