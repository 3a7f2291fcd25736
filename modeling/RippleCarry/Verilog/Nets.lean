import RippleCarry.Netlist
import RippleCarry.Operation
import RippleCarry.SignalMap
import RippleCarry.Verilog
/-!
# Nets

A netlist is written as a module with an input pin per operand bit and an output pin per result
bit. A net is called `n<id>` after its signal, except that an operand bit goes by the first pin
that carries it; a signal that a gate drives is `n<id>` from that gate on. The constants are
ordinary wires tied to their values, and an operand bit on a constant keeps the constant's name.
-/

namespace RippleCarry

/-- What the kinds of gate are called in the target library. -/
structure CellLibrary where
  halfAdder : String := "HA"
  or2 : String := "OR2"
  not : String := "INV"
deriving DecidableEq, Repr

def CellLibrary.nameOf (l : CellLibrary) : GateKind → String
  | .halfAdder => l.halfAdder
  | .or2 => l.or2
  | .not => l.not

namespace Verilog

/-- The nets that signals go by, where it is not `n<id>`. -/
abbrev Nets := SignalMap String

def Nets.of (nets : Nets) (s : Signal) : String := (nets.get? s).getD s.name

/-- Numbered pin names: `a_0`, `a_1`, … -/
def pinName (stem : String) (index : Nat) : String := stem ++ "_" ++ toString index

/-- The input pins of a bus, with the signal of each. -/
def busPins (stem : String) (bus : Bus) : List (String × Signal) :=
  bus.bits.zipIdx.map fun (s, i) => (pinName stem i, s)

/-- Every input pin with its signal: the first operand's, then the second's or the literal's. -/
def inputPins (op : Operation) : List (String × Signal) :=
  busPins "a" op.first ++
    match op with
    | .add _ b | .subtract _ b => busPins "b" b
    | .increment _ (some literal) => busPins "lit" literal
    | .increment _ none => []

/-- The constants by their own names, and every other input signal by its first pin. -/
def inputNets (constants : Constants) (pins : List (String × Signal)) : Nets :=
  let tied := (SignalMap.empty.insert constants.zero constants.zero.name).insert constants.one
    constants.one.name
  pins.foldl (fun nets (pin, s) => nets.insertIfNew s pin) tied

/-- From this gate on its outputs go by their own names. -/
def Nets.drive (nets : Nets) (g : Gate) : Nets :=
  nets.insertAll (g.outputs.map fun s => (s, s.name))

/-- The items of one gate: a wire per output, and the instance. -/
def gateItems (library : CellLibrary) (nets : Nets) (index : Nat) (g : Gate) : List Item :=
  g.outputs.map (fun s => .wire s.name) ++
    [.cell (library.nameOf g.kind) ("u" ++ toString index)
      (g.pins.map fun (pin, s) => (pin, nets.of s))]

/-- The items of the gates, the first of which has the given index, and the nets after them. -/
def gatesItems (library : CellLibrary) : Nets → Nat → List Gate → List Item × Nets
  | nets, _, [] => ([], nets)
  | nets, index, g :: rest =>
    let nets := nets.drive g
    let (items, final) := gatesItems library nets (index + 1) rest
    (gateItems library nets index g ++ items, final)

/-- The wires of the constants. -/
def constantItems (constants : Constants) : List Item :=
  [.wire constants.zero.name, .tie constants.zero.name false,
    .wire constants.one.name, .tie constants.one.name true]

def resultItems (nets : Nets) (resultBits : List Signal) : List Item :=
  resultBits.zipIdx.map fun (s, i) => .assign (pinName "y" i) (nets.of s)

end Verilog

/-- The netlist of a descriptor as a module. -/
def Netlist.toVerilog (n : Netlist) (library : CellLibrary) (name : String) (d : Descriptor)
    (constants : Constants) : Verilog.Module :=
  let inputs := Verilog.inputPins d.op
  let (items, nets) := Verilog.gatesItems library (Verilog.inputNets constants inputs) 0 n.gates
  { name := name
    pins := inputs.map (fun (pin, _) => ⟨.input, pin⟩) ++
      n.resultBits.zipIdx.map fun (_, i) => ⟨.output, Verilog.pinName "y" i⟩
    items := Verilog.constantItems constants ++ items ++ Verilog.resultItems nets n.resultBits }

end RippleCarry
