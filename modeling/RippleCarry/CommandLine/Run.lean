import RippleCarry.CommandLine.Options
import RippleCarry.Defect
import RippleCarry.Json.Model
import RippleCarry.Simulation
import RippleCarry.Synthesis
/-!
# A run of the command

A run builds the netlist of one operation on new signals, checks it, and prints either a computed
value or the netlist in one of the output formats. What the run reads from a file is given to it
as a function, so that the whole of it is a value: the exit code and the two output texts.
`run` is the whole command: the exit code is 0 for a result or the help, 1 for a run that fails and
2 for wrong arguments.
-/

namespace RippleCarry.CommandLine

/-- Why a file could not be read. -/
inductive ReadError where
  | notFound
  /-- The path goes on after a file. -/
  | notDirectory
  | isDirectory
  | nameTooLong
  | permissionDenied
  /-- The content is not UTF-8. -/
  | notText
  | other (reason : String)
deriving DecidableEq, Repr

def ReadError.reason : ReadError → String
  | notFound => "No such file or directory (os error 2)"
  | notDirectory => "Not a directory (os error 20)"
  | isDirectory => "Is a directory (os error 21)"
  | nameTooLong => "File name too long (os error 36)"
  | permissionDenied => "Permission denied (os error 13)"
  | notText => "stream did not contain valid UTF-8"
  | other reason => reason

/-- How files are read. -/
abbrev ReadFile := String → Except ReadError ByteArray

/-- Why a run fails. -/
inductive RunError where
  | unreadableConfig (path : String) (e : ReadError)
  | invalidConfig (path : String)
  | missingOperand
  | synthesis (e : SynthesisError)
  | defective (defects : List Defect)
  | numeral (e : Numeral.Error)
  | simulation (e : SimulationError)
deriving DecidableEq, Repr

def describeSignal (s : Signal) : String :=
  "signal: Signal \x7b id: " ++ toString s.id.toNat ++ " \x7d"

def describeDefect : Defect → String
  | .unknownInput index s =>
    "ForwardReference \x7b instance_index: " ++ toString index ++ ", " ++ describeSignal s ++
      " \x7d"
  | .drivenTwice index s =>
    "MultipleDrivers \x7b instance_index: " ++ toString index ++ ", " ++ describeSignal s ++
      " \x7d"
  | .unknownResult s => "UndrivenResult \x7b " ++ describeSignal s ++ " \x7d"

def RunError.message : RunError → String
  | unreadableConfig path e => "reading config file " ++ path ++ ": " ++ e.reason
  | invalidConfig path => "parsing config file " ++ path ++ ": TOML parse error"
  | missingOperand => "--b-width is required for add and sub"
  | synthesis e => e.message
  | defective defects =>
    "lowered network failed integrity check: [" ++
      String.intercalate ", " (defects.map describeDefect) ++ "]"
  | numeral e => e.message
  | simulation e => e.message

def loadConfig (readFile : ReadFile) : Option String → Except RunError Config
  | none => .ok .empty
  | some path => do
    let bytes ← (readFile path).mapError (.unreadableConfig path)
    match String.fromUTF8? bytes with
    | none => throw (.unreadableConfig path .notText)
    | some text =>
      match Config.parse? text with
      | none => throw (.invalidConfig path)
      | some config => return config

/-- The operation on new buses, made in the order constants, first operand, second operand. -/
def Options.setup (o : Options) : Except RunError (Emit (Constants × Operation)) :=
  match o.op, o.bWidth with
  | .increment, _ => .ok do
    let constants ← Emit.constants
    let a ← Emit.bus o.aWidth o.aSigned
    return (constants, .increment a none)
  | .add, some bWidth => .ok do
    let constants ← Emit.constants
    let a ← Emit.bus o.aWidth o.aSigned
    let b ← Emit.bus bWidth o.bSigned
    return (constants, .add a b)
  | .subtract, some bWidth => .ok do
    let constants ← Emit.constants
    let a ← Emit.bus o.aWidth o.aSigned
    let b ← Emit.bus bWidth o.bSigned
    return (constants, .subtract a b)
  | _, none => .error .missingOperand

/-- What a run has worked out before it prints. -/
structure Design where
  constants : Constants
  descriptor : Descriptor
  netlist : Netlist

/-- The netlist of the operation, which must have no defect. -/
def Options.design (o : Options) : Except RunError Design := do
  let primary := (← o.setup) ⟨0⟩
  let (constants, op) := primary.value
  let descriptor : Descriptor := ⟨op, o.resultWidth⟩
  let netlist ← ((descriptor.synthesize constants).run primary.allocator).1.mapError .synthesis
  match netlist.defectsFor constants descriptor with
  | [] => return ⟨constants, descriptor, netlist⟩
  | defects => throw (.defective defects)

def Design.toJson (d : Design) : Json :=
  .record [("descriptor", d.descriptor.toJson), ("constants", d.constants.toJson),
    ("network", d.netlist.toJson)]

def opName : OpKind → String
  | .add => "add"
  | .subtract => "sub"
  | .increment => "inc"

/-- The netlist in an output format. -/
def Design.print (d : Design) (o : Options) (config : Config) : String :=
  match (o.format.orElse fun _ => config.outputFormat).getD .verilog with
  | .verilog =>
    let given := o.moduleName.orElse fun _ => config.moduleName
    let name := given.getD (opName o.op ++ toString o.resultWidth)
    (d.netlist.toVerilog config.library name d.descriptor d.constants).render
  | .json => d.toJson.pretty ++ "\n"
  | .stats => d.netlist.summary.toJson.pretty ++ "\n"

/-- The value that the netlist computes from the given numerals. -/
def Design.compute (d : Design) (text : String) : Except RunError String := do
  let (x, y) ← (Numeral.parsePair text.toList).mapError .numeral
  let value ← (d.netlist.compute d.constants d.descriptor x y).mapError .simulation
  return toString value.toNat ++ "\n"

/-- The output of a run. -/
def Options.output (o : Options) (readFile : ReadFile) : Except RunError String := do
  let config ← loadConfig readFile o.config
  let design ← o.design
  match o.eval with
  | some text => design.compute text
  | none => return design.print o config

structure Outcome where
  exitCode : UInt32
  stdout : String
  stderr : String
deriving DecidableEq, Repr

def Options.run (o : Options) (readFile : ReadFile) : Outcome :=
  match o.output readFile with
  | .ok text => ⟨0, text, ""⟩
  | .error e => ⟨1, "", "adder-lower: " ++ opName o.op ++ ": " ++ e.message ++ "\n"⟩

/-- The outcome of what arguments ask for, wrong ones included. -/
def Invocation.outcome (readFile : ReadFile) : Option Invocation → Outcome
  | none => ⟨2, "", "error: wrong arguments\n\n" ++ usage ++ "\nFor more information, try '--help'.\n"⟩
  | some .help => ⟨0, CommandLine.help, ""⟩
  | some (.run o) => o.run readFile

/-- The whole command. -/
def run (args : List String) (readFile : ReadFile) : Outcome :=
  Invocation.outcome readFile (Invocation.ofArgs? args)

end RippleCarry.CommandLine
