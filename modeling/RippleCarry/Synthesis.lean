import RippleCarry.Ripple
/-!
# Synthesis

A `Draft` is a netlist under construction: an allocator, and the gates placed so far. An operation
on a draft adds its gates to it. A `Descriptor` gets a netlist of its own and shares only the
allocator, which is how a batch of descriptors gets disjoint ids.
-/

namespace RippleCarry

/-- A netlist under construction. -/
structure Draft where
  allocator : Allocator
  gates : List Gate
deriving DecidableEq, Repr

/-- Work on a draft that can fail. What was placed before a failure stays. -/
abbrev Build := ExceptT SynthesisError (StateM Draft)

namespace Draft

/-- A draft without gates. -/
def start (next : UInt64) : Draft := ⟨⟨next⟩, []⟩

/-- Runs a step of construction on the draft. -/
def run {α : Type} (step : Emit α) : StateM Draft α := fun d =>
  let r := step d.allocator
  (r.value, ⟨r.allocator, d.gates ++ r.gates⟩)

/-- Places a ripple, if there is one, and hands back its sum bits. -/
def place (ripple : Except SynthesisError Ripple) : Build (List Signal) :=
  match ripple with
  | .ok ripple => ExceptT.lift (run ripple.emit)
  | .error e => throw e

def add (constants : Constants) (a b : Bus) (width : Nat) : Build (List Signal) :=
  place (Ripple.ofAdd constants a b width)

def subtract (constants : Constants) (a b : Bus) (width : Nat) : Build (List Signal) :=
  place (Ripple.ofSubtract constants a b width)

def increment (constants : Constants) (a : Bus) (seed : Signal) (width : Nat) :
    Build (List Signal) :=
  place (Ripple.ofIncrement constants a seed width)

/-- Closes the draft with result bits; the next draft goes on with the same allocator. -/
def finish (d : Draft) (resultBits : List Signal) : Netlist × Draft :=
  (⟨d.gates, resultBits⟩, ⟨d.allocator, []⟩)

end Draft

/-- Work that takes ids from a shared allocator and can fail. Ids used before a failure stay
used. -/
abbrev Allocating := ExceptT SynthesisError (StateM Allocator)

/-- The netlist of a descriptor. -/
def Descriptor.synthesize (constants : Constants) (d : Descriptor) : Allocating Netlist :=
  match d.op.ripple constants d.resultWidth with
  | .error e => throw e
  | .ok ripple => do
    let r := ripple.emit (← get)
    set r.allocator
    return ⟨r.gates, r.value⟩

/-- The netlists of the descriptors in order, on one allocator, up to the first that fails. -/
def Descriptor.synthesizeAll (constants : Constants) : List Descriptor → Allocating (List Netlist)
  | [] => return []
  | d :: rest => do
    let netlist ← d.synthesize constants
    let netlists ← synthesizeAll constants rest
    return netlist :: netlists

end RippleCarry
