import RippleCarry.Text
/-!
# TOML: numbers and dates

Integers have 64 bits with a sign. Floats are decimal literals, dates are days of the calendar with
or without a time and an offset, and times may stand alone.
-/

namespace RippleCarry.Toml

/-- Digits behind a first one, each of which may have an underscore before it. -/
def readMoreDigits (radix : Nat) : List Char → Option (List Char × List Char)
  | [] => some ([], [])
  | '_' :: c :: rest =>
    if Text.isDigit radix c then do
      let (digits, rest) ← readMoreDigits radix rest
      return (c :: digits, rest)
    else none
  | c :: rest =>
    if Text.isDigit radix c then do
      let (digits, rest) ← readMoreDigits radix rest
      return (c :: digits, rest)
    else if c = '_' then none
    else some ([], c :: rest)

def readDigits (radix : Nat) : List Char → Option (List Char × List Char)
  | [] => none
  | c :: rest =>
    if Text.isDigit radix c then do
      let (digits, rest) ← readMoreDigits radix rest
      return (c :: digits, rest)
    else none

/-- A sign, if there is one: whether it is a minus. -/
def readSign : List Char → Bool × List Char
  | '-' :: rest => (true, rest)
  | '+' :: rest => (false, rest)
  | text => (false, text)

/-! ## Integers -/

/-- Decimal digits; nothing follows a leading zero. -/
def readWhole : List Char → Option (List Char × List Char)
  | '0' :: rest => some (['0'], rest)
  | text => readDigits 10 text

def readDecimal (text : List Char) : Option (Int × List Char) := do
  let (minus, rest) := readSign text
  let (digits, rest) ← readWhole rest
  let magnitude : Int := Text.natOfDigits 10 digits
  let n := if minus then -magnitude else magnitude
  if Int64.minValue.toInt ≤ n ∧ n ≤ Int64.maxValue.toInt then some (n, rest) else none

def readRadix (radix : Nat) (text : List Char) : Option (Int × List Char) := do
  let (digits, rest) ← readDigits radix text
  let n : Int := Text.natOfDigits radix digits
  if n ≤ Int64.maxValue.toInt then some (n, rest) else none

def readInteger : List Char → Option (Int × List Char)
  | '0' :: 'x' :: rest => readRadix 16 rest
  | '0' :: 'o' :: rest => readRadix 8 rest
  | '0' :: 'b' :: rest => readRadix 2 rest
  | text => readDecimal text

/-! ## Floats -/

/-- Whether `significand * 10 ^ exponent` rounds to infinity as a double: the largest finite double
is `2 ^ 1024 - 2 ^ 971`, and the bound lies half a unit above it. Far from the bound the number of
digits decides. -/
def exceedsDouble (significand : Nat) (exponent : Int) : Bool :=
  if significand = 0 then false
  else
    let size : Int := (Nat.toDigits 10 significand).length + exponent
    if size < 309 then false
    else if 310 < size then true
    else
      let bound : Nat := 1 <<< 1024 - 1 <<< 970
      if 0 ≤ exponent then decide (bound ≤ significand * Nat.pow 10 exponent.toNat)
      else decide (bound * Nat.pow 10 (-exponent).toNat ≤ significand)

def readFraction : List Char → Option (List Char × List Char)
  | '.' :: rest => readDigits 10 rest
  | _ => none

def readExponent : List Char → Option (Int × List Char)
  | [] => none
  | c :: rest =>
    if c = 'e' ∨ c = 'E' then do
      let (minus, rest) := readSign rest
      let (digits, rest) ← readDigits 10 rest
      let magnitude : Int := Text.natOfDigits 10 digits
      return (if minus then -magnitude else magnitude, rest)
    else none

/-- What makes a literal a float: an exponent, or a fraction that an exponent may follow. -/
def readScale (text : List Char) : Option ((List Char × Int) × List Char) :=
  match readExponent text with
  | some (exponent, rest) => some (([], exponent), rest)
  | none => do
    let (fraction, rest) ← readFraction text
    if rest.head? = some 'e' ∨ rest.head? = some 'E' then
      let (exponent, rest) ← readExponent rest
      return ((fraction, exponent), rest)
    else return ((fraction, 0), rest)

/-- The rest after a decimal float. One that rounds to positive infinity is refused. -/
def readDecimalFloat (text : List Char) : Option (List Char) := do
  let (minus, rest) := readSign text
  let (whole, rest) ← readWhole rest
  let ((fraction, exponent), rest) ← readScale rest
  let infinite :=
    exceedsDouble (Text.natOfDigits 10 (whole ++ fraction)) (exponent - fraction.length)
  if infinite && !minus then none else some rest

/-- The rest after a float. -/
def readFloat (text : List Char) : Option (List Char) :=
  match readDecimalFloat text with
  | some rest => some rest
  | none =>
    match (readSign text).2 with
    | 'i' :: 'n' :: 'f' :: rest => some rest
    | 'n' :: 'a' :: 'n' :: rest => some rest
    | _ => none

/-! ## Dates -/

/-- A number of exactly `count` digits within bounds. -/
def readField (count low high : Nat) (text : List Char) : Option (Nat × List Char) :=
  let digits := text.take count
  let n := Text.natOfDigits 10 digits
  if digits.length = count ∧ digits.all (Text.isDigit 10) ∧ low ≤ n ∧ n ≤ high then
    some (n, text.drop count)
  else none

def readMark (mark : Char) : List Char → Option (List Char)
  | [] => none
  | c :: rest => if c = mark then some rest else none

def isLeapYear (year : Nat) : Bool := year % 4 == 0 && (year % 100 != 0 || year % 400 == 0)

def daysInMonth (year month : Nat) : Nat :=
  if month = 2 then (if isLeapYear year then 29 else 28)
  else if month = 4 ∨ month = 6 ∨ month = 9 ∨ month = 11 then 30
  else 31

def readDay (text : List Char) : Option (List Char) := do
  let (year, rest) ← readField 4 0 9999 text
  let (month, rest) ← readField 2 1 12 (← readMark '-' rest)
  let (_, rest) ← readField 2 1 (daysInMonth year month) (← readMark '-' rest)
  return rest

/-- A time of day. A minute may have a second 60. -/
def readTime (text : List Char) : Option (List Char) := do
  let (_, rest) ← readField 2 0 23 text
  let (_, rest) ← readField 2 0 59 (← readMark ':' rest)
  let (_, rest) ← readField 2 0 60 (← readMark ':' rest)
  match rest with
  | '.' :: fraction =>
    if (fraction.takeWhile (Text.isDigit 10)).isEmpty then return rest
    else return fraction.dropWhile (Text.isDigit 10)
  | _ => return rest

/-- An offset from universal time. -/
def readOffset : List Char → Option (List Char)
  | [] => none
  | c :: rest =>
    if c = 'Z' ∨ c = 'z' then some rest
    else if c = '+' ∨ c = '-' then do
      let (_, rest) ← readField 2 0 23 rest
      let (_, rest) ← readField 2 0 59 (← readMark ':' rest)
      return rest
    else none

/-- The time and offset behind a day. -/
def readTimeOfDay : List Char → Option (List Char)
  | [] => none
  | c :: rest =>
    if c = 'T' ∨ c = 't' ∨ c = ' ' then do
      let rest ← readTime rest
      return (readOffset rest).getD rest
    else none

/-- The rest after a date, a date with a time, or a time. -/
def readDatetime (text : List Char) : Option (List Char) :=
  match readDay text with
  | some rest => some ((readTimeOfDay rest).getD rest)
  | none => readTime text

end RippleCarry.Toml
