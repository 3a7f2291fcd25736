import RippleCarry.Netlist
import RippleCarry.Operation
import RippleCarry.SignalSet
/-!
# Defects

A netlist is sound for a set of primary signals when every gate reads only primaries and outputs
of earlier gates, every signal is driven once and no primary is driven, and every result bit is a
primary or driven. `Netlist.defects` lists the places where that fails, gate by gate with inputs
before outputs, and then the result bits.
-/

namespace RippleCarry

inductive Defect where
  /-- A gate reads a signal that nothing before it drives. -/
  | unknownInput (index : Nat) (signal : Signal)
  /-- A gate drives a primary or a signal that is driven already. -/
  | drivenTwice (index : Nat) (signal : Signal)
  | unknownResult (signal : Signal)
deriving DecidableEq, Repr

namespace Defect

/-- The signals among `wanted` that are not known. -/
def missing (known : SignalSet) (wanted : List Signal) : List Signal := wanted.filter (· ∉ known)

/-- The signals among `driven` that are known, or driven before in the list. -/
def redriven : (known : SignalSet) → (driven : List Signal) → List Signal
  | _, [] => []
  | known, s :: rest =>
    if s ∈ known then s :: redriven known rest else redriven (known.insert s) rest

/-- The defects on gates, the first of which has the given index. -/
def ofGates : Nat → SignalSet → List Gate → List Defect
  | _, _, [] => []
  | index, known, g :: rest =>
    (missing known g.inputs).map (unknownInput index) ++
      (redriven known g.outputs).map (drivenTwice index) ++
      ofGates (index + 1) (known.insertAll g.outputs) rest

end Defect

/-- The constants and the bits of the input buses. -/
def primaries (constants : Constants) (inputs : List Bus) : List Signal :=
  constants.zero :: constants.one :: inputs.flatMap Bus.bits

/-- Everything wrong with a netlist, in order; nothing when it is sound. -/
def Netlist.defects (n : Netlist) (constants : Constants) (inputs : List Bus) : List Defect :=
  let known := SignalSet.ofList (primaries constants inputs)
  Defect.ofGates 0 known n.gates ++
    (Defect.missing (known.insertAll n.driven) n.resultBits).map .unknownResult

/-- The defects for the operands of a descriptor. -/
def Netlist.defectsFor (n : Netlist) (constants : Constants) (d : Descriptor) : List Defect :=
  n.defects constants d.op.operands

end RippleCarry
