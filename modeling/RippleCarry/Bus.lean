import RippleCarry.Signal
/-!
# Buses

A bus is a list of signals, least significant bit first, read as a plain binary number or in two's
complement. Positions past its width are filled by extension: with the constant 0 net, or with its
own top bit when it is signed.
-/

namespace RippleCarry

structure Bus where
  bits : List Signal
  signed : Bool
deriving DecidableEq, Repr

/-- Why an operation has no netlist. -/
inductive SynthesisError where
  /-- A bit was asked of a bus without bits. -/
  | emptyBus (position : Nat)
  /-- The result was to have no bits. -/
  | emptyResult
deriving DecidableEq, Repr

def SynthesisError.message : SynthesisError → String
  | emptyBus position =>
    "width error: cannot extract bit " ++ toString position ++ " from a zero-width operand"
  | emptyResult => "width error: result width must be greater than zero"

namespace Bus

def width (bus : Bus) : Nat := bus.bits.length

/-- The signal at a position, extended past the width of the bus. -/
def bit (bus : Bus) (constants : Constants) (position : Nat) : Except SynthesisError Signal :=
  match bus.bits.getLast? with
  | none => .error (.emptyBus position)
  | some top =>
    match bus.bits[position]? with
    | some s => .ok s
    | none => .ok (if bus.signed then top else constants.zero)

/-- The signals at the first `width` positions. -/
def extend (bus : Bus) (constants : Constants) (width : Nat) :
    Except SynthesisError (List Signal) :=
  (List.range width).mapM (bus.bit constants)

end Bus
end RippleCarry
