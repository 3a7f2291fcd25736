import RippleCarry.Bits
import RippleCarry.Netlist
import RippleCarry.Operation
import RippleCarry.SignalMap
/-!
# Simulation

A valuation binds signals to values. A netlist is evaluated in one pass: each gate reads its
inputs and binds its outputs, over an earlier binding if there is one, and the result bits are
read at the end. `Netlist.compute` runs the netlist of a descriptor on integers.
-/

namespace RippleCarry

abbrev Valuation := SignalMap Bool

inductive SimulationError where
  /-- A gate reads a signal that has no value yet. -/
  | unboundInput (index : Nat) (signal : Signal)
  | unboundResult (signal : Signal)
  /-- More bits than fit in a 64-bit integer. -/
  | tooWide (width : Nat)
deriving DecidableEq, Repr

def SimulationError.message : SimulationError → String
  | unboundInput index signal =>
    "instance #" ++ toString index ++ " reads " ++ signal.name ++ " before it has a value"
  | unboundResult signal => "result bit " ++ signal.name ++ " has no value"
  | tooWide width => "width " ++ toString width ++ " exceeds the 64-bit simulation limit"

/-! ## Evaluation -/

namespace Valuation

/-- Binds nothing. -/
def empty : Valuation := SignalMap.empty

/-- The values of the signals in order, or the first one without a value. -/
def read (v : Valuation) : List Signal → Except Signal (List Bool)
  | [] => .ok []
  | s :: rest =>
    match v.get? s with
    | none => .error s
    | some b => (v.read rest).map (b :: ·)

end Valuation

/-- The valuation after a gate, or its first input without a value. -/
def Gate.drive (g : Gate) (v : Valuation) : Except Signal Valuation :=
  (v.read g.inputs).map fun inputs => v.insertAll (g.outputs.zip (g.kind.truth inputs))

/-- The valuation after the gates, the first of which has the given index. -/
def driveAll : Nat → List Gate → Valuation → Except SimulationError Valuation
  | _, [], v => .ok v
  | index, g :: rest, v =>
    match g.drive v with
    | .ok v => driveAll (index + 1) rest v
    | .error s => .error (.unboundInput index s)

/-- The values of the result bits. -/
def Netlist.eval (n : Netlist) (v : Valuation) : Except SimulationError (List Bool) := do
  let final ← driveAll 0 n.gates v
  (final.read n.resultBits).mapError .unboundResult

/-! ## Integers -/

/-- The most bits that an integer is read from or written to. -/
def maxWidth : Nat := 64

def requireFits (width : Nat) : Except SimulationError Unit :=
  if maxWidth < width then .error (.tooWide width) else .ok ()

/-- The integer with the given bits. -/
def packBits (bits : List Bool) : Except SimulationError UInt64 := do
  requireFits bits.length
  return (bitsToNat bits).toUInt64

namespace Valuation

/-- Binds the constant nets: 0, and then 1 over it if they are the same net. -/
def bindConstants (v : Valuation) (c : Constants) : Valuation :=
  (v.insert c.zero false).insert c.one true

/-- Binds the signals of a bus to the bits of a number. Of a signal that stands at several
positions the last one counts. -/
def bindNumber (v : Valuation) (bus : Bus) (number : UInt64) :
    Except SimulationError Valuation := do
  requireFits bus.width
  return v.insertAll (bus.bits.zip (natBits bus.width number.toNat))

/-- Binds the signals of a bus position by position, as far as both lists go. -/
def bindBits (v : Valuation) (bus : Bus) (bits : List Bool) : Valuation :=
  v.insertAll (bus.bits.zip bits)

end Valuation

/-- Runs the netlist of a descriptor on integers. A literal is given the value 1, and the second
integer then plays no part. -/
def Netlist.compute (n : Netlist) (constants : Constants) (d : Descriptor) (x y : UInt64) :
    Except SimulationError UInt64 := do
  let v ← (Valuation.empty.bindConstants constants).bindNumber d.op.first x
  let v ← match d.op with
    | .add _ b | .subtract _ b => v.bindNumber b y
    | .increment _ (some literal) => v.bindNumber literal 1
    | .increment _ none => pure v
  packBits (← n.eval v)

end RippleCarry
