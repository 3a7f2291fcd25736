import RippleCarry.Text
/-!
# TOML: blanks, strings and keys

The readers take something off the front of a text and hand back the rest, or `none` if it is not
there. Lines end in a line feed, with or without a carriage return before it; no other control
character stands anywhere but for the tab.
-/

namespace RippleCarry.Toml

def isBlank (c : Char) : Bool := c == ' ' || c == '\t'

def skipBlanks (text : List Char) : List Char := text.dropWhile isBlank

/-- A character of comments and strings. -/
def isTextChar (c : Char) : Bool := c == '\t' || (0x20 ≤ c.toNat && c.toNat != 0x7F)

/-- A comment, if there is one. -/
def skipComment : List Char → List Char
  | '#' :: rest => rest.dropWhile isTextChar
  | text => text

def readNewline : List Char → Option (List Char)
  | '\n' :: rest => some rest
  | '\r' :: '\n' :: rest => some rest
  | _ => none

/-- The end of a line or of the text. -/
def readLineEnd : List Char → Option (List Char)
  | [] => some []
  | text => readNewline text

/-- What may follow on a line: blanks and a comment. -/
def readTrailing (text : List Char) : Option (List Char) :=
  readLineEnd (skipComment (skipBlanks text))

/-- Skips blanks and line ends. -/
def skipLines : List Char → List Char
  | ' ' :: rest => skipLines rest
  | '\t' :: rest => skipLines rest
  | '\n' :: rest => skipLines rest
  | '\r' :: '\n' :: rest => skipLines rest
  | text => text

/-- Skips blanks, line ends and comments; the flag says that the text starts inside a comment. -/
def skipTrivia : Bool → List Char → List Char
  | false, ' ' :: rest => skipTrivia false rest
  | false, '\t' :: rest => skipTrivia false rest
  | false, '#' :: rest => skipTrivia true rest
  | _, '\n' :: rest => skipTrivia false rest
  | _, '\r' :: '\n' :: rest => skipTrivia false rest
  | true, c :: rest => if isTextChar c then skipTrivia true rest else c :: rest
  | _, text => text

/-! ## Strings -/

/-- The character with a code of exactly `count` hexadecimal digits. -/
def readCode (count : Nat) (text : List Char) : Option (Char × List Char) := do
  let digits ← (text.take count).mapM Text.hexDigit?
  let code := digits.foldl (fun n d => n * 16 + d) 0
  if digits.length = count ∧ code.isValidChar then some (Char.ofNat code, text.drop count) else none

/-- An escape after its backslash. -/
def readEscape : List Char → Option (Char × List Char)
  | 'b' :: rest => some ('\x08', rest)
  | 'f' :: rest => some ('\x0c', rest)
  | 'n' :: rest => some ('\n', rest)
  | 'r' :: rest => some ('\r', rest)
  | 't' :: rest => some ('\t', rest)
  | '"' :: rest => some ('"', rest)
  | '\\' :: rest => some ('\\', rest)
  | 'u' :: rest => readCode 4 rest
  | 'U' :: rest => readCode 8 rest
  | _ => none

/-- How a string is delimited: its quote, and whether backslashes escape. -/
structure Quoting where
  mark : Char
  escapes : Bool

def Quoting.basic : Quoting := ⟨'"', true⟩

def Quoting.literal : Quoting := ⟨'\'', false⟩

/-- The rest of a string on one line. -/
def readLine (q : Quoting) : Nat → List Char → Option (List Char × List Char)
  | 0, _ => none
  | _, [] => none
  | fuel + 1, c :: rest =>
    if c = q.mark then some ([], rest)
    else if q.escapes ∧ c = '\\' then do
      let (c, rest) ← readEscape rest
      let (content, rest) ← readLine q fuel rest
      return (c :: content, rest)
    else if isTextChar c then do
      let (content, rest) ← readLine q fuel rest
      return (c :: content, rest)
    else none

/-- The rest of a string on several lines. It ends at three quotes, and up to two more before them
belong to it. A backslash at the end of a line joins it to the next text. -/
def readLines (q : Quoting) : Nat → List Char → Option (List Char × List Char)
  | 0, _ => none
  | _, [] => none
  | fuel + 1, c :: rest =>
    let marks := ((c :: rest).takeWhile (· == q.mark)).length
    if 3 ≤ marks then
      some (List.replicate (min marks 5 - 3) q.mark, (c :: rest).drop (min marks 5))
    else if q.escapes ∧ c = '\\' then
      match readNewline (skipBlanks rest) with
      | some next => readLines q fuel (skipLines next)
      | none => do
        let (c, rest) ← readEscape rest
        let (content, rest) ← readLines q fuel rest
        return (c :: content, rest)
    else
      match readNewline (c :: rest) with
      | some next => do
        let (content, rest) ← readLines q fuel next
        return ('\n' :: content, rest)
      | none =>
        if isTextChar c then do
          let (content, rest) ← readLines q fuel rest
          return (c :: content, rest)
        else none

/-- A string after its first quote. A line end right behind three quotes is not part of it. -/
def readString (q : Quoting) (text : List Char) : Option (String × List Char) := do
  let (content, rest) ←
    match text.dropWhile (· == q.mark), (text.takeWhile (· == q.mark)).length with
    | _, 0 => readLine q (text.length + 1) text
    | rest, 1 => some ([], rest)
    | _, _ =>
      let body := text.drop 2
      let body := (readNewline body).getD body
      readLines q (body.length + 1) body
  return (String.ofList content, rest)

/-! ## Keys -/

def isKeyChar (c : Char) : Bool :=
  ('a' ≤ c && c ≤ 'z') || ('A' ≤ c && c ≤ 'Z') || ('0' ≤ c && c ≤ '9') || c == '-' || c == '_'

/-- One part of a key: bare, or a string on one line. -/
def readKeyPart : List Char → Option (String × List Char)
  | [] => none
  | c :: rest =>
    if c = '"' then do
      let (content, rest) ← readLine .basic (rest.length + 1) rest
      return (String.ofList content, rest)
    else if c = '\'' then do
      let (content, rest) ← readLine .literal (rest.length + 1) rest
      return (String.ofList content, rest)
    else
      match (c :: rest).takeWhile isKeyChar with
      | [] => none
      | part => some (String.ofList part, (c :: rest).dropWhile isKeyChar)

/-- A key with at least one part more than the fuel left is refused. -/
def readKeyParts : Nat → List Char → Option (List String × List Char)
  | 0, _ => none
  | fuel + 1, text => do
    let (part, rest) ← readKeyPart (skipBlanks text)
    match skipBlanks rest with
    | '.' :: rest => do
      let (parts, rest) ← readKeyParts fuel rest
      return (part :: parts, rest)
    | rest => return ([part], rest)

/-- The most parts a key may have, and the deepest that arrays and inline tables may nest. -/
def maxNesting : Nat := 79

/-- A dotted key with blanks around its parts: the tables to pass, and the last part. -/
def readKey (text : List Char) : Option ((List String × String) × List Char) := do
  let (parts, rest) ← readKeyParts maxNesting text
  let last ← parts.getLast?
  return ((parts.dropLast, last), rest)

end RippleCarry.Toml
