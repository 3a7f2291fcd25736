/-!
# JSON values and their text

A value is written with a `Layout`: `compact` has no blanks, `pretty` puts each item on a line of
its own, two blanks further in per level. A layout only chooses the blanks, so the two texts of a
value hold the same tokens.
-/

namespace RippleCarry

namespace Json

/-- A number literal. Plain digits are a number; a literal with a sign, a fraction or an exponent
is kept as it is written. -/
inductive Number where
  | nat (n : Nat)
  | other (literal : List Char)
deriving DecidableEq, Repr

end Json

/-- A JSON value. The members of an object keep their order and their repetitions. The content of
a string is `none` when its escapes name half of a surrogate pair: that is within the grammar, but
no text. -/
inductive Json where
  | null
  | bool (b : Bool)
  | number (n : Json.Number)
  | string (content : Option String)
  | array (items : List Json)
  | object (members : List (Option String × Json))
deriving Repr

namespace Json

def ofNat (n : Nat) : Json := .number (.nat n)

def ofList {α : Type} (item : α → Json) (l : List α) : Json := .array (l.map item)

/-- An object with the given members. -/
def record (members : List (String × Json)) : Json :=
  .object (members.map fun (key, value) => (some key, value))

/-- Where the blanks of a text go. -/
structure Layout where
  /-- What separates brackets and items at a depth. -/
  gap : Nat → List Char
  /-- What follows the colon after a key. -/
  afterColon : List Char

def Layout.compact : Layout := ⟨fun _ => [], []⟩

def Layout.pretty : Layout := ⟨fun depth => '\n' :: List.replicate (2 * depth) ' ', [' ']⟩

/-- A character inside a string literal. -/
def escapeChar (c : Char) : List Char :=
  match c with
  | '"' => ['\\', '"']
  | '\\' => ['\\', '\\']
  | '\x08' => ['\\', 'b']
  | '\x0c' => ['\\', 'f']
  | '\n' => ['\\', 'n']
  | '\r' => ['\\', 'r']
  | '\t' => ['\\', 't']
  | c =>
    if c.toNat < 0x20 then
      ['\\', 'u', '0', '0', Nat.digitChar (c.toNat / 16), Nat.digitChar (c.toNat % 16)]
    else [c]

/-- A string literal. One without a text is written as half of a surrogate pair. -/
def quote : Option String → List Char
  | some s => '"' :: s.toList.flatMap escapeChar ++ ['"']
  | none => '"' :: '\\' :: "ud800".toList ++ ['"']

def Number.render : Number → List Char
  | nat n => Nat.toDigits 10 n
  | other literal => literal

mutual

/-- The text of a value that stands at a depth. -/
def render (l : Layout) (depth : Nat) : Json → List Char
  | null => "null".toList
  | bool true => "true".toList
  | bool false => "false".toList
  | number n => n.render
  | string content => quote content
  | array [] => ['[', ']']
  | array (first :: rest) =>
    '[' :: l.gap (depth + 1) ++ render l (depth + 1) first ++ renderItems l (depth + 1) rest ++
      l.gap depth ++ [']']
  | object [] => ['\x7b', '\x7d']
  | object ((key, value) :: rest) =>
    '\x7b' :: l.gap (depth + 1) ++ quote key ++ ':' :: l.afterColon ++
      render l (depth + 1) value ++ renderMembers l (depth + 1) rest ++ l.gap depth ++ ['\x7d']

/-- The items of an array after the first, each behind its comma. -/
def renderItems (l : Layout) (depth : Nat) : List Json → List Char
  | [] => []
  | item :: rest => ',' :: l.gap depth ++ render l depth item ++ renderItems l depth rest

/-- The members of an object after the first, each behind its comma. -/
def renderMembers (l : Layout) (depth : Nat) : List (Option String × Json) → List Char
  | [] => []
  | (key, value) :: rest =>
    ',' :: l.gap depth ++ quote key ++ ':' :: l.afterColon ++ render l depth value ++
      renderMembers l depth rest

end

/-- The text without blanks. -/
def compact (j : Json) : String := String.ofList (j.render .compact 0)

/-- The text on several lines. -/
def pretty (j : Json) : String := String.ofList (j.render .pretty 0)

end Json
end RippleCarry
