import RippleCarry.Netlist
import RippleCarry.SignalMap
/-!
# Depth and size

The depth of a gate is one more than the greatest depth among its inputs, where a signal that no
earlier gate drives has depth 0; each output has the depth of the last gate that drives it.
-/

namespace RippleCarry

abbrev Depths := SignalMap Nat

/-- The depth of a signal, 0 if nothing drives it. -/
def Depths.of (m : Depths) (s : Signal) : Nat := (m.get? s).getD 0

/-- The greatest depth among the signals, 0 if there are none. -/
def Depths.deepest (m : Depths) (signals : List Signal) : Nat :=
  signals.foldr (fun s d => max (m.of s) d) 0

def Gate.deepen (m : Depths) (g : Gate) : Depths :=
  let depth := 1 + m.deepest g.inputs
  m.insertAll (g.outputs.map (·, depth))

/-- The depth of every driven signal. -/
def Netlist.depths (n : Netlist) : Depths := n.gates.foldl Gate.deepen .empty

/-- Size and depth of a netlist. -/
structure Summary where
  gates : Nat
  halfAdders : Nat
  or2s : Nat
  nots : Nat
  resultWidth : Nat
  deepestPath : Nat
deriving DecidableEq, Repr

def Netlist.summary (n : Netlist) : Summary where
  gates := n.gates.length
  halfAdders := n.count .halfAdder
  or2s := n.count .or2
  nots := n.count .not
  resultWidth := n.resultBits.length
  deepestPath := n.depths.deepest n.resultBits

end RippleCarry
