import RippleCarry.Text.Printable
/-!
# Text

Blanks, digits and quotes: what the readers of numerals, JSON and TOML and the error messages share.
-/

namespace RippleCarry.Text

/-! ## Blanks -/

/-- The characters that Unicode gives the property `White_Space`. -/
def isBlank (c : Char) : Bool :=
  let n := c.toNat
  (0x9 ≤ n && n ≤ 0xD) || n == 0x20 || n == 0x85 || n == 0xA0 || n == 0x1680 ||
    (0x2000 ≤ n && n ≤ 0x200A) || n == 0x2028 || n == 0x2029 || n == 0x202F || n == 0x205F ||
    n == 0x3000

/-- The text without the blanks at either end. -/
def trim (text : List Char) : List Char :=
  ((text.dropWhile isBlank).reverse.dropWhile isBlank).reverse

/-! ## Digits -/

/-- The value of a hexadecimal digit, a letter in either case. -/
def hexDigit? (c : Char) : Option Nat :=
  if '0' ≤ c ∧ c ≤ '9' then some (c.toNat - '0'.toNat)
  else if 'a' ≤ c ∧ c ≤ 'f' then some (c.toNat - 'a'.toNat + 10)
  else if 'A' ≤ c ∧ c ≤ 'F' then some (c.toNat - 'A'.toNat + 10)
  else none

/-- The value of a digit in a radix of at most 16. -/
def digit? (radix : Nat) (c : Char) : Option Nat := (hexDigit? c).filter (· < radix)

def isDigit (radix : Nat) (c : Char) : Bool := (digit? radix c).isSome

/-- The number with the given digits, the most significant first. -/
def natOfDigits (radix : Nat) (digits : List Char) : Nat :=
  digits.foldl (fun n c => n * radix + (digit? radix c).getD 0) 0

theorem natOfDigits_append_singleton (radix : Nat) (digits : List Char) (c : Char) :
    natOfDigits radix (digits ++ [c]) =
      natOfDigits radix digits * radix + (digit? radix c).getD 0 := by
  simp [natOfDigits]

/-! ## Quotes

Text in an error message stands in quotes, with escapes for the quote, the backslash and every
character that would not show by itself.
-/

/-- A character inside the quotes. -/
def escapeChar (c : Char) : List Char :=
  match c with
  | '\x00' => ['\\', '0']
  | '\t' => ['\\', 't']
  | '\n' => ['\\', 'n']
  | '\r' => ['\\', 'r']
  | '"' => ['\\', '"']
  | '\\' => ['\\', '\\']
  | c =>
    if showsByItself c then [c]
    else '\\' :: 'u' :: '\x7b' :: Nat.toDigits 16 c.toNat ++ ['\x7d']

def quote (text : List Char) : List Char := '"' :: text.flatMap escapeChar ++ ['"']

end RippleCarry.Text
