import RippleCarry.Defect
import RippleCarry.Simulation
import RippleCarry.Synthesis
import RippleCarry.Verilog.Nets
/-!
# The workbench

A workbench keeps one draft, the constants in use, and everything made so far: buses,
descriptors and netlists, each list numbered from 0. A command does one thing with them. A command
that fails adds nothing to the lists, and the work goes on.
-/

namespace RippleCarry

structure Workbench where
  draft : Draft
  constants : Constants
  buses : List Bus
  descriptors : List Descriptor
  netlists : List Netlist
deriving DecidableEq, Repr

inductive WorkbenchError where
  | synthesis (e : SynthesisError)
  | simulation (e : SimulationError)
  /-- There is no item with this number. -/
  | missing (index : Nat)
deriving DecidableEq, Repr

def WorkbenchError.message : WorkbenchError → String
  | synthesis e => e.message
  | simulation e => e.message
  | missing index => "nothing is numbered " ++ toString index

/-- A command. Buses, descriptors and netlists are given by number. -/
inductive Command where
  | fresh
  | freshList (count : Nat)
  /-- New constants, used from here on. -/
  | freshConstants
  | setConstants (constants : Constants)
  | addBus (bus : Bus)
  | freshBus (width : Nat) (signed : Bool)
  | halfAdder (a b : Signal)
  | or2 (a b : Signal)
  | inverter (a : Signal)
  | fullAdder (a b carryIn : Signal)
  | add (a b resultWidth : Nat)
  | subtract (a b resultWidth : Nat)
  | increment (a : Nat) (seed : Signal) (resultWidth : Nat)
  /-- Closes the draft and starts the next one. -/
  | finish (resultBits : List Signal)
  | describeAdd (a b resultWidth : Nat)
  | describeSubtract (a b resultWidth : Nat)
  | describeIncrement (a : Nat) (literal : Option Nat) (resultWidth : Nat)
  /-- Makes a netlist of its own, beside the draft. -/
  | synthesize (descriptor : Nat)
  | synthesizeAll (descriptors : List Nat)
  | merge (netlists : List Nat)
  | compute (descriptor netlist : Nat) (x y : UInt64)
  /-- Evaluates a netlist, with the constants bound over the valuation. -/
  | eval (netlist : Nat) (valuation : Valuation)
  | check (netlist : Nat) (inputs : List Nat)
  | checkFor (descriptor netlist : Nat)
  | netlist (netlist : Nat)
  | emit (descriptor netlist : Nat) (name : String) (library : CellLibrary)
  | same (netlist other : Nat)

/-- What a command answers. -/
inductive Reply where
  | done
  | signal (s : Signal)
  | signals (l : List Signal)
  | stage (s : Emit.SumCarry)
  | constants (c : Constants)
  | descriptor (d : Descriptor)
  | netlist (n : Netlist)
  | netlists (l : List Netlist)
  | merged (m : MergedNetlist)
  | integer (n : UInt64)
  | bits (l : List Bool)
  | defects (l : List Defect)
  | verilog (m : Verilog.Module)
  | truth (b : Bool)

namespace Workbench

abbrev Work := ExceptT WorkbenchError (StateM Workbench)

/-- A workbench with nothing on it, and the constants 0 and 1 in use. -/
def start (next : UInt64) : Workbench := ⟨.start next, ⟨⟨0⟩, ⟨1⟩⟩, [], [], []⟩

/-- The item with a number. -/
def item {α : Type} (l : List α) (index : Nat) : Work α :=
  match l[index]? with
  | some a => return a
  | none => throw (.missing index)

def bus (index : Nat) : Work Bus := do item (← get).buses index
def descriptor (index : Nat) : Work Descriptor := do item (← get).descriptors index
def netlist (index : Nat) : Work Netlist := do item (← get).netlists index

/-- Runs a step of construction on the draft. -/
def run {α : Type} (step : Emit α) : Work α := do
  let bench ← get
  let (value, draft) := Draft.run step bench.draft
  set { bench with draft }
  return value

/-- Does work on the draft. -/
def build {α : Type} (work : Build α) : Work α := do
  let bench ← get
  let (result, draft) := work.run bench.draft
  set { bench with draft }
  match result with
  | .ok value => return value
  | .error e => throw (.synthesis e)

/-- Takes ids from the draft's allocator, and leaves its gates alone. -/
def allocate {α : Type} (work : Allocating α) : Work α := do
  let bench ← get
  let (result, allocator) := work.run bench.draft.allocator
  set { bench with draft := { bench.draft with allocator } }
  match result with
  | .ok value => return value
  | .error e => throw (.synthesis e)

def simulating {α : Type} (result : Except SimulationError α) : Work α :=
  match result with
  | .ok value => return value
  | .error e => throw (.simulation e)

def keepBus (b : Bus) : Work Unit :=
  modify fun bench => { bench with buses := bench.buses ++ [b] }

def keepDescriptor (d : Descriptor) : Work Unit :=
  modify fun bench => { bench with descriptors := bench.descriptors ++ [d] }

def keepNetlists (l : List Netlist) : Work Unit :=
  modify fun bench => { bench with netlists := bench.netlists ++ l }

/-- Keeps a new bus and answers its bits. -/
def newBus (b : Bus) : Work Reply := do
  keepBus b
  return .signals b.bits

/-- Keeps a new descriptor and answers it. -/
def newDescriptor (op : Operation) (resultWidth : Nat) : Work Reply := do
  keepDescriptor ⟨op, resultWidth⟩
  return .descriptor ⟨op, resultWidth⟩

def step : Command → Work Reply
  | .fresh => do return .signal (← run Emit.fresh)
  | .freshList count => do return .signals (← run (Emit.freshList count))
  | .freshConstants => do
    let constants ← run Emit.constants
    modify fun bench => { bench with constants }
    return .constants constants
  | .setConstants constants => do
    modify fun bench => { bench with constants }
    return .done
  | .addBus b => newBus b
  | .freshBus width signed => do newBus (← run (Emit.bus width signed))
  | .halfAdder a b => do return .stage (← run (Emit.halfAdder a b))
  | .or2 a b => do return .signal (← run (Emit.or2 a b))
  | .inverter a => do return .signal (← run (Emit.inverter a))
  | .fullAdder a b carryIn => do return .stage (← run (Emit.fullAdder a b carryIn))
  | .add a b width => do
    let bits ← build (Draft.add (← get).constants (← bus a) (← bus b) width)
    return .signals bits
  | .subtract a b width => do
    let bits ← build (Draft.subtract (← get).constants (← bus a) (← bus b) width)
    return .signals bits
  | .increment a seed width => do
    let bits ← build (Draft.increment (← get).constants (← bus a) seed width)
    return .signals bits
  | .finish resultBits => do
    let bench ← get
    let (netlist, draft) := bench.draft.finish resultBits
    set { bench with draft }
    keepNetlists [netlist]
    return .netlist netlist
  | .describeAdd a b width => do newDescriptor (.add (← bus a) (← bus b)) width
  | .describeSubtract a b width => do newDescriptor (.subtract (← bus a) (← bus b)) width
  | .describeIncrement a none width => do newDescriptor (.increment (← bus a) none) width
  | .describeIncrement a (some literal) width => do
    newDescriptor (.increment (← bus a) (some (← bus literal))) width
  | .synthesize d => do
    let netlist ← allocate ((← descriptor d).synthesize (← get).constants)
    keepNetlists [netlist]
    return .netlist netlist
  | .synthesizeAll ds => do
    let netlists ← allocate (Descriptor.synthesizeAll (← get).constants (← ds.mapM descriptor))
    keepNetlists netlists
    return .netlists netlists
  | .merge ns => do
    let merged := Netlist.merge (← ns.mapM netlist)
    keepNetlists [merged.toNetlist]
    return .merged merged
  | .compute d n x y => do
    let d ← descriptor d
    let n ← netlist n
    return .integer (← simulating (n.compute (← get).constants d x y))
  | .eval n v => do
    return .bits (← simulating ((← netlist n).eval (v.bindConstants (← get).constants)))
  | .check n inputs => do
    return .defects ((← netlist n).defects (← get).constants (← inputs.mapM bus))
  | .checkFor d n => do
    return .defects ((← netlist n).defectsFor (← get).constants (← descriptor d))
  | .netlist n => do return .netlist (← netlist n)
  | .emit d n name library => do
    return .verilog
      ((← netlist n).toVerilog library name (← descriptor d) (← get).constants)
  | .same n other => do return .truth ((← netlist n) = (← netlist other))

/-- Carries out commands in turn: what each one answers, and the workbench after it. -/
def session (bench : Workbench) : List Command → List (Except WorkbenchError Reply × Workbench)
  | [] => []
  | c :: rest =>
    let done := (step c).run bench
    done :: session done.2 rest

end Workbench
end RippleCarry
