import RippleCarry.Emit
import RippleCarry.Netlist
import RippleCarry.Operation
/-!
# Ripples

An operation becomes gates in two steps. `Operation.ripple` reads the operand bits that it needs,
which is all that can fail; `Ripple.emit` then places one stage of gates per position and passes
the carry on. So an operation that fails has placed no gate and used no id.
-/

namespace RippleCarry

/-- The signals that a row of adder stages works on, position 0 first. -/
inductive Ripple where
  /-- Adds the two signals of each position. -/
  | add (positions : List (Signal × Signal))
  /-- Subtracts the second signal of each position: adds its inverse, with a first carry of 1. -/
  | subtract (one : Signal) (positions : List (Signal × Signal))
  /-- Adds the seed at position 0. -/
  | increment (seed : Signal) (positions : List Signal)
deriving DecidableEq, Repr

namespace Ripple

/-- Adds the two signals of a position to the carry. -/
def addStage (position : Signal × Signal) (carry : Signal) : Emit Emit.SumCarry :=
  Emit.fullAdder position.1 position.2 carry

/-- Adds the first signal of a position and the inverse of the second to the carry. -/
def subtractStage (position : Signal × Signal) (carry : Signal) : Emit Emit.SumCarry := do
  let inverse ← Emit.inverter position.2
  Emit.fullAdder position.1 inverse carry

/-- Adds a signal to the carry. -/
def incrementStage (position carry : Signal) : Emit Emit.SumCarry :=
  Emit.halfAdder position carry

/-- One stage per position, each on the carry of the one before it. -/
def chain {α : Type} (stage : α → Signal → Emit Emit.SumCarry) (carry : Signal) :
    List α → Emit (List Emit.SumCarry)
  | [] => return []
  | position :: rest => do
    let out ← stage position carry
    (out :: ·) <$> chain stage out.carry rest

/-- Places the gates of every stage and hands back their outputs. An addition has no carry into
position 0, where a half adder is enough. -/
def stages : Ripple → Emit (List Emit.SumCarry)
  | add [] => return []
  | add ((a, b) :: rest) => do
    let out ← Emit.halfAdder a b
    (out :: ·) <$> chain addStage out.carry rest
  | subtract one positions => chain subtractStage one positions
  | increment seed positions => chain incrementStage seed positions

/-- Places the gates of every stage and hands back the sum bits. The last carry is left open. -/
def emit (r : Ripple) : Emit (List Signal) :=
  (·.map Emit.SumCarry.sum) <$> r.stages

/-! ## The ripple of an operation -/

/-- A result without bits is refused before an operand is looked at. -/
def requireWidth (width : Nat) : Except SynthesisError Unit :=
  if width = 0 then .error .emptyResult else .ok ()

def ofAdd (constants : Constants) (a b : Bus) (width : Nat) : Except SynthesisError Ripple := do
  requireWidth width
  let as ← a.extend constants width
  let bs ← b.extend constants width
  return .add (as.zip bs)

def ofSubtract (constants : Constants) (a b : Bus) (width : Nat) :
    Except SynthesisError Ripple := do
  requireWidth width
  let as ← a.extend constants width
  let bs ← b.extend constants width
  return .subtract constants.one (as.zip bs)

def ofIncrement (constants : Constants) (a : Bus) (seed : Signal) (width : Nat) :
    Except SynthesisError Ripple := do
  requireWidth width
  let as ← a.extend constants width
  return .increment seed as

end Ripple

/-- The signal an increment adds: bit 0 of the literal, or the constant 1 without one. -/
def incrementSeed (constants : Constants) (literal : Option Bus) : Except SynthesisError Signal :=
  match literal with
  | none => .ok constants.one
  | some bus => bus.bit constants 0

def Operation.ripple (op : Operation) (constants : Constants) (width : Nat) :
    Except SynthesisError Ripple :=
  match op with
  | .add a b => Ripple.ofAdd constants a b width
  | .subtract a b => Ripple.ofSubtract constants a b width
  | .increment a literal => do
    Ripple.requireWidth width
    let seed ← incrementSeed constants literal
    Ripple.ofIncrement constants a seed width

end RippleCarry
