/-!
# TOML values

A document is a table. How a table came about decides how it may still grow, so each one carries
its `Origin`: a value in braces is closed, a table with a header of its own takes no dotted keys
from elsewhere, and a table that only arose on the way to another may still get its header.

`Entries.insert` and `Entries.within` are the two ways into a table, along the dots of a key and
along a header. Both refuse to reopen what is closed.
-/

namespace RippleCarry.Toml

inductive Origin where
  /-- Written in braces. -/
  | inline
  /-- Opened by a header. -/
  | header
  /-- Passed by a header on the way to a table inside it. -/
  | parent
  /-- Passed by a dotted key. -/
  | dotted
deriving DecidableEq, Repr

/-- A value. Floats and dates are kept as written. -/
inductive Value where
  | string (content : String)
  | integer (n : Int)
  | float (literal : String)
  | boolean (b : Bool)
  | datetime (literal : String)
  | array (items : List Value)
  | table (origin : Origin) (entries : List (String × Value))
  /-- An array of tables, one per header. -/
  | tables (elements : List (List (String × Value)))
deriving Repr

/-- The content of a table, in the order in which it was written. Keys are distinct. -/
abbrev Entries := List (String × Value)

namespace Entries

def get? : Entries → String → Option Value
  | [], _ => none
  | (k, v) :: rest, key => if k = key then some v else get? rest key

/-- Replaces the value at a key, or adds one at the end; `none` if `f` refuses. -/
def update (f : Option Value → Option Value) (key : String) : Entries → Option Entries
  | [] => (f none).map fun v => [(key, v)]
  | (k, v) :: rest =>
    if k = key then (f (some v)).map fun v => (k, v) :: rest
    else (update f key rest).map ((k, v) :: ·)

/-- Applies `f` to the last element. -/
def updateLast (f : Entries → Option Entries) : List Entries → Option (List Entries)
  | [] => none
  | [last] => (f last).map fun last => [last]
  | first :: rest => (updateLast f rest).map (first :: ·)

/-- Adds a value under a dotted key: the tables to pass, and the last part. Tables that are missing
are made, and only tables made by dotted keys take the value itself. -/
def insert (key : String) (value : Value) : (path : List String) → Entries → Option Entries
  | [], entries => entries.update (fun
    | none => some value
    | some _ => none) key
  | part :: path, entries => entries.update (fun
    | none => (insert key value path []).map (.table .dotted)
    | some (.table .dotted inner) => (insert key value path inner).map (.table .dotted)
    | some (.table .parent inner) =>
      if path.isEmpty then none else (insert key value path inner).map (.table .parent)
    | some (.tables elements) =>
      if path.isEmpty then none
      else (updateLast (insert key value path) elements).map .tables
    | some _ => none) part

/-- Applies `f` to the table that a header's path leads to. Tables that are missing are made, and
an array of tables stands for its last element. -/
def within (f : Entries → Option Entries) : (path : List String) → Entries → Option Entries
  | [], entries => f entries
  | part :: path, entries => entries.update (fun
    | none => (within f path []).map (.table .parent)
    | some (.table .inline _) => none
    | some (.table origin inner) => (within f path inner).map (.table origin)
    | some (.tables elements) => (updateLast (within f path) elements).map .tables
    | some _ => none) part

/-- A header `[path.key]`. -/
def openTable (path : List String) (key : String) (entries : Entries) : Option Entries :=
  entries.within (fun inner => inner.update (fun
    | none => some (.table .header [])
    | some (.table .parent content) => some (.table .header content)
    | some _ => none) key) path

/-- A header `[[path.key]]`. -/
def openElement (path : List String) (key : String) (entries : Entries) : Option Entries :=
  entries.within (fun inner => inner.update (fun
    | none => some (.tables [[]])
    | some (.tables elements) => some (.tables (elements ++ [[]]))
    | some _ => none) key) path

end Entries
end RippleCarry.Toml
