import RippleCarry.Bus
/-!
# Operations

What is to be computed: the operation with its operands, and the number of result bits to keep.
-/

namespace RippleCarry

inductive OpKind where
  | add
  | subtract
  | increment
deriving DecidableEq, Repr

/-- An operation on operands. An increment adds bit 0 of its literal, or 1 without one. -/
inductive Operation where
  | add (a b : Bus)
  | subtract (a b : Bus)
  | increment (a : Bus) (literal : Option Bus)
deriving DecidableEq, Repr

namespace Operation

def kind : Operation → OpKind
  | add .. => .add
  | subtract .. => .subtract
  | increment .. => .increment

def first : Operation → Bus
  | add a _ => a
  | subtract a _ => a
  | increment a _ => a

/-- The second operand, or the literal if there is one. -/
def second : Operation → Option Bus
  | add _ b => some b
  | subtract _ b => some b
  | increment _ literal => literal

def operands (op : Operation) : List Bus := op.first :: op.second.toList

end Operation

structure Descriptor where
  op : Operation
  resultWidth : Nat
deriving DecidableEq, Repr

end RippleCarry
