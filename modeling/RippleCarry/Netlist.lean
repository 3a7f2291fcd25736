import RippleCarry.Gate
/-!
# Netlists

A netlist is a list of gates, in the order in which they are evaluated, and the signals that carry
its result, least significant bit first.
-/

namespace RippleCarry

structure Netlist where
  gates : List Gate
  resultBits : List Signal
deriving DecidableEq, Repr

/-- Every signal driven by a list of gates, in gate and pin order. -/
def drivenBy (gates : List Gate) : List Signal := gates.flatMap Gate.outputs

/-- Several netlists side by side, with the result of each. -/
structure MergedNetlist where
  gates : List Gate
  outputs : List (List Signal)
deriving DecidableEq, Repr

namespace Netlist

/-- Every signal that the netlist drives. -/
def driven (n : Netlist) : List Signal := drivenBy n.gates

/-- The number of gates of a kind. -/
def count (n : Netlist) (kind : GateKind) : Nat := n.gates.countP (·.kind = kind)

def merge (netlists : List Netlist) : MergedNetlist where
  gates := netlists.flatMap Netlist.gates
  outputs := netlists.map Netlist.resultBits

end Netlist

/-- The merged gates as one netlist, its result bits those of the parts in order. -/
def MergedNetlist.toNetlist (m : MergedNetlist) : Netlist where
  gates := m.gates
  resultBits := m.outputs.flatten

end RippleCarry
