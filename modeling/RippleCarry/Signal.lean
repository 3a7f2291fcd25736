/-!
# Signals

A signal is a one-bit net, named by a 64-bit id. Ids are machine words: the one after the largest
is `0` again, so a long enough run of an allocator comes back to ids that are in use.
-/

namespace RippleCarry

/-- A one-bit net. -/
structure Signal where
  id : UInt64
deriving DecidableEq, Repr

/-- The net's display name: `n` and the id in decimal. -/
def Signal.name (s : Signal) : String := "n" ++ toString s.id.toNat

/-- The two nets tied to logic 0 and logic 1. Nothing keeps them apart from each other or from
the nets of a circuit. -/
structure Constants where
  zero : Signal
  one : Signal
deriving DecidableEq, Repr

end RippleCarry
