import RippleCarry.Toml.Document
import RippleCarry.Verilog.Nets
/-!
# Configuration

A configuration file is a TOML document with the defaults for a run: the names of the library
cells, the module name and the output format. All of them may be missing, and other keys are
skipped.
-/

namespace RippleCarry

/-- What a run prints. -/
inductive Format where
  | verilog
  | json
  | stats
deriving DecidableEq, Repr

def Format.name : Format → String
  | verilog => "verilog"
  | json => "json"
  | stats => "stats"

def Format.ofName? : String → Option Format
  | "verilog" => some verilog
  | "json" => some json
  | "stats" => some stats
  | _ => none

structure Config where
  cells : Option CellLibrary
  moduleName : Option String
  outputFormat : Option Format
deriving DecidableEq, Repr

namespace Config

/-- The configuration that chooses nothing. -/
def empty : Config := ⟨none, none, none⟩

def library (c : Config) : CellLibrary := c.cells.getD {}

/-- A string, or the default where there is no value. -/
def stringOr (default : String) : Option Toml.Value → Option String
  | none => some default
  | some (.string s) => some s
  | some _ => none

def string? : Toml.Value → Option String
  | .string s => some s
  | _ => none

/-- Cell names, of which each may be missing. -/
def libraryOf (halfAdder or2 not : Option Toml.Value) : Option CellLibrary := do
  let standard : CellLibrary := {}
  return ⟨← stringOr standard.halfAdder halfAdder, ← stringOr standard.or2 or2,
    ← stringOr standard.not not⟩

/-- Cell names by key, or by position in an array. A date has none of the keys. -/
def library? : Toml.Value → Option CellLibrary
  | .table _ entries =>
    let name := Toml.Entries.get? entries
    libraryOf (name "half_adder") (name "or2") (name "not")
  | .array items => libraryOf items[0]? items[1]? items[2]?
  | .datetime _ => libraryOf none none none
  | _ => none

/-- Whether a value holds nothing. -/
def isEmpty : Toml.Value → Bool
  | .array items => items.isEmpty
  | .table _ entries => entries.isEmpty
  | .tables elements => elements.isEmpty
  | _ => false

/-- A format by name, or as the only key of a table with nothing under it. -/
def format? : Toml.Value → Option Format
  | .string name => Format.ofName? name
  | .table _ [(name, body)] => if isEmpty body then Format.ofName? name else none
  | _ => none

/-- A value that may be missing. -/
def optional {α : Type} (read : Toml.Value → Option α) : Option Toml.Value → Option (Option α)
  | none => some none
  | some v => (read v).map some

def ofEntries? (entries : Toml.Entries) : Option Config := do
  return ⟨← optional library? (entries.get? "cells"),
    ← optional string? (entries.get? "module_name"),
    ← optional format? (entries.get? "output_format")⟩

/-- The configuration in a text. -/
def parse? (text : String) : Option Config := Toml.parse? text >>= ofEntries?

end Config
end RippleCarry
