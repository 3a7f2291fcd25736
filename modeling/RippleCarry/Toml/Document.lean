import RippleCarry.Toml
import RippleCarry.Toml.Lexical
import RippleCarry.Toml.Number
/-!
# TOML: values and documents

`parse?` reads a whole document. Arrays and inline tables nest to a fixed depth, which is what the
recursion of `readValue` counts down; lists of items, keys and lines are bounded by the length of
the text.
-/

namespace RippleCarry.Toml

/-! ## Values -/

/-- A reader of one value. -/
abbrev ValueReader := List Char → Option (Value × List Char)

/-- The items of an array and its closing bracket. A comma may follow the last item. -/
def readItems (value : ValueReader) : Nat → List Char → Option (List Value × List Char)
  | 0, _ => none
  | fuel + 1, text =>
    match skipTrivia false text with
    | ']' :: rest => some ([], rest)
    | text => do
      let (item, rest) ← value text
      match skipTrivia false rest with
      | ']' :: rest => return ([item], rest)
      | ',' :: rest => do
        let (items, rest) ← readItems value fuel rest
        return (item :: items, rest)
      | _ => none

/-- A key, its equals sign and its value. -/
def readPair (value : ValueReader) (text : List Char) :
    Option ((List String × String) × Value × List Char) := do
  let (key, rest) ← readKey text
  let (v, rest) ← value (skipBlanks (← readMark '=' rest))
  return (key, v, rest)

/-- The pairs of an inline table, added to those before them, and the closing brace. -/
def readPairs (value : ValueReader) : Nat → Entries → List Char → Option (Entries × List Char)
  | 0, _, _ => none
  | fuel + 1, entries, text => do
    let ((path, key), v, rest) ← readPair value text
    let entries ← entries.insert key v path
    match skipBlanks rest with
    | '\x7d' :: rest => return (entries, rest)
    | ',' :: rest => readPairs value fuel entries rest
    | _ => none

/-- The part of a text before its rest. -/
def consumed (text rest : List Char) : String :=
  String.ofList (text.take (text.length - rest.length))

/-- A number or a date, told apart by what can be read: a date first, then a float. -/
def readNumber (text : List Char) : Option (Value × List Char) :=
  match readDatetime text with
  | some rest => some (.datetime (consumed text rest), rest)
  | none =>
    match readFloat text with
    | some rest => some (.float (consumed text rest), rest)
    | none => do
      let (n, rest) ← readInteger text
      return (.integer n, rest)

/-- A value in which arrays and inline tables nest at most `depth` deep. -/
def readValue (depth : Nat) (text : List Char) : Option (Value × List Char) :=
  match text with
  | [] => none
  | '"' :: rest => do
    let (content, rest) ← readString .basic rest
    return (.string content, rest)
  | '\'' :: rest => do
    let (content, rest) ← readString .literal rest
    return (.string content, rest)
  | '[' :: rest =>
    match depth with
    | 0 => none
    | depth + 1 => do
      let (items, rest) ← readItems (readValue depth) (rest.length + 1) rest
      return (.array items, rest)
  | '\x7b' :: rest =>
    match depth with
    | 0 => none
    | depth + 1 =>
      match skipBlanks rest with
      | '\x7d' :: rest => some (.table .inline [], rest)
      | rest => do
        let (entries, rest) ← readPairs (readValue depth) (rest.length + 1) [] rest
        return (.table .inline entries, rest)
  | 't' :: 'r' :: 'u' :: 'e' :: rest => some (.boolean true, rest)
  | 'f' :: 'a' :: 'l' :: 's' :: 'e' :: rest => some (.boolean false, rest)
  | text => readNumber text

/-! ## Documents -/

/-- What has been read of a document: its tables, and the path of the one that pairs go to. -/
structure Progress where
  root : Entries
  current : List String

/-- The key of a header and its closing brackets, with the end of the line. -/
def readHeader (close : List Char → Option (List Char)) (text : List Char) :
    Option ((List String × String) × List Char) := do
  let (key, rest) ← readKey text
  return (key, ← readTrailing (← close rest))

/-- The end of a table header. -/
def closeTable : List Char → Option (List Char) := readMark ']'

/-- The end of the header of an array element. -/
def closeElement (text : List Char) : Option (List Char) := readMark ']' text >>= readMark ']'

/-- One line that is not blank. -/
def readExpression (p : Progress) (text : List Char) : Option (Progress × List Char) :=
  match text with
  | '[' :: '[' :: rest => do
    let ((path, key), rest) ← readHeader closeElement rest
    return (⟨← p.root.openElement path key, path ++ [key]⟩, rest)
  | '[' :: rest => do
    let ((path, key), rest) ← readHeader closeTable rest
    return (⟨← p.root.openTable path key, path ++ [key]⟩, rest)
  | text => do
    let ((path, key), v, rest) ← readPair (readValue maxNesting) text
    let rest ← readTrailing rest
    return (⟨← p.root.within (Entries.insert key v path) p.current, p.current⟩, rest)

/-- The lines of a document. -/
def readExpressions : Nat → Progress → List Char → Option Entries
  | 0, _, _ => none
  | fuel + 1, p, text =>
    match skipBlanks text with
    | [] => some p.root
    | '#' :: rest => do readExpressions fuel p (← readTrailing ('#' :: rest))
    | c :: rest =>
      match readNewline (c :: rest) with
      | some rest => readExpressions fuel p rest
      | none => do
        let (p, rest) ← readExpression p (c :: rest)
        readExpressions fuel p rest

/-- The root table of a document. A byte order mark at the start is not part of it. -/
def parse? (text : String) : Option Entries :=
  let chars := match text.toList with
    | '\uFEFF' :: rest => rest
    | chars => chars
  readExpressions (chars.length + 1) ⟨[], []⟩ chars

end RippleCarry.Toml
