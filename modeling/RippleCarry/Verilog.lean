/-!
# Structural Verilog

The part of Verilog that a netlist needs: a module with one-bit pins, wires, assigns and cell
instances connected by pin name. A `Verilog.Module` is a value; `render` writes it out, one item
to a line.
-/

namespace RippleCarry.Verilog

inductive Direction where
  | input
  | output
deriving DecidableEq, Repr

structure Pin where
  direction : Direction
  net : String
deriving DecidableEq, Repr

inductive Item where
  | wire (net : String)
  /-- Ties a net to a constant. -/
  | tie (net : String) (value : Bool)
  /-- Drives a net from another. -/
  | assign (net source : String)
  /-- An instance of a library cell, with the net on each of its pins. -/
  | cell (type label : String) (connections : List (String × String))
deriving DecidableEq, Repr

structure Module where
  name : String
  pins : List Pin
  items : List Item
deriving DecidableEq, Repr

def Pin.render (p : Pin) : String :=
  match p.direction with
  | .input => "  input wire " ++ p.net
  | .output => "  output wire " ++ p.net

/-- A connection by pin name, `.A(n3)`. -/
def renderConnection (c : String × String) : String := "." ++ c.1 ++ "(" ++ c.2 ++ ")"

def Item.render : Item → String
  | wire net => "  wire " ++ net ++ ";\n"
  | tie net value => "  assign " ++ net ++ " = 1'b" ++ (if value then "1" else "0") ++ ";\n"
  | assign net source => "  assign " ++ net ++ " = " ++ source ++ ";\n"
  | cell type label connections =>
    "  " ++ type ++ " " ++ label ++ " (" ++
      String.intercalate ", " (connections.map renderConnection) ++ ");\n"

def Module.render (m : Module) : String :=
  "module " ++ m.name ++ "(\n" ++ String.intercalate ",\n" (m.pins.map Pin.render) ++ "\n);\n" ++
    String.join (m.items.map Item.render) ++ "endmodule\n"

end RippleCarry.Verilog
