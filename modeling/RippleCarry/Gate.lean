import RippleCarry.Signal
/-!
# Gates

Circuits are made of three kinds of gate: a half adder, a two-input OR and an inverter. A kind has
named pins and a truth table; a `Gate` is one placed gate, with a signal on each pin.
-/

namespace RippleCarry

inductive GateKind where
  | halfAdder
  | or2
  | not
deriving DecidableEq, Repr

namespace GateKind

/-- The name shown to people. -/
def label : GateKind → String
  | halfAdder => "half_adder"
  | or2 => "or2"
  | not => "not"

/-- The name used in data. -/
def tag : GateKind → String
  | halfAdder => "HalfAdder"
  | or2 => "Or2"
  | not => "Not"

def inputPins : GateKind → List String
  | halfAdder => ["A", "B"]
  | or2 => ["A", "B"]
  | not => ["A"]

def outputPins : GateKind → List String
  | halfAdder => ["SUM", "COUT"]
  | or2 => ["X"]
  | not => ["Y"]

/-- The truth table, in pin order. A row with the wrong number of inputs drives nothing. -/
def truth : GateKind → List Bool → List Bool
  | halfAdder, [a, b] => [a ^^ b, a && b]
  | or2, [a, b] => [a || b]
  | not, [a] => [!a]
  | _, _ => []

/-- A kind was given a row with the wrong number of inputs. -/
structure ArityError where
  kind : GateKind
deriving DecidableEq, Repr

def ArityError.message (e : ArityError) : String :=
  e.kind.tag ++ " takes " ++ toString e.kind.inputPins.length ++ " inputs"

/-- The outputs for a row of inputs, refusing a row of the wrong length. -/
def eval (kind : GateKind) (inputs : List Bool) : Except ArityError (List Bool) :=
  if inputs.length = kind.inputPins.length then .ok (kind.truth inputs) else .error ⟨kind⟩

end GateKind

/-- A placed gate, with the signal on each pin. -/
inductive Gate where
  | halfAdder (a b sum carry : Signal)
  | or2 (a b out : Signal)
  | not (a out : Signal)
deriving DecidableEq, Repr

namespace Gate

def kind : Gate → GateKind
  | halfAdder .. => .halfAdder
  | or2 .. => .or2
  | not .. => .not

/-- The signals read, in pin order. -/
def inputs : Gate → List Signal
  | halfAdder a b _ _ => [a, b]
  | or2 a b _ => [a, b]
  | not a _ => [a]

/-- The signals driven, in pin order. -/
def outputs : Gate → List Signal
  | halfAdder _ _ sum carry => [sum, carry]
  | or2 _ _ out => [out]
  | not _ out => [out]

/-- Every pin with its signal, inputs first. -/
def pins (g : Gate) : List (String × Signal) :=
  g.kind.inputPins.zip g.inputs ++ g.kind.outputPins.zip g.outputs

theorem length_inputs (g : Gate) : g.inputs.length = g.kind.inputPins.length := by
  cases g <;> rfl

end Gate
end RippleCarry
