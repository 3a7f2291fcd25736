import RippleCarry.Config
import RippleCarry.Numeral
/-!
# Command line options

Every argument sets an option, as `--name=value` or as `--name value`. Each option is set at most
once, and its value must have the form the option asks for. Arguments are read from the left, and a
call for help ends the reading.
-/

namespace RippleCarry.CommandLine

structure Options where
  op : OpKind
  aWidth : Nat
  aSigned : Bool
  bWidth : Option Nat
  bSigned : Bool
  resultWidth : Nat
  /-- The path of a configuration file. -/
  config : Option String
  format : Option Format
  moduleName : Option String
  /-- Values to compute with, in place of printing the netlist. -/
  eval : Option String
deriving DecidableEq, Repr

/-! ## Values -/

def opKind? : String → Option OpKind
  | "add" => some .add
  | "sub" => some .subtract
  | "inc" => some .increment
  | _ => none

def width? (text : String) : Option Nat := (Numeral.readUnsigned 10 text.toList).toOption

def truth? : String → Option Bool
  | "true" => some true
  | "false" => some false
  | _ => none

/-- A path has at least one character. -/
def path? (text : String) : Option String := if text.isEmpty then none else some text

/-! ## The options there are -/

structure OptionInfo where
  name : String
  required : Bool
  accepts : String → Bool
  /-- What the help says of it. -/
  purpose : String

/-- An option that takes the values a reader reads. -/
def OptionInfo.of {α : Type} (name : String) (required : Bool) (read : String → Option α)
    (purpose : String) : OptionInfo :=
  ⟨name, required, fun text => (read text).isSome, purpose⟩

def optionTable : List OptionInfo := [
  .of "op" true opKind? "The operation to lower [possible values: add, sub, inc]",
  .of "a-width" true width? "Width of operand A in bits",
  .of "a-signed" false truth?
    ("Whether operand A is signed (sign extended past its width) " ++
      "[default: false] [possible values: true, false]"),
  .of "b-width" false width? "Width of operand B in bits (required for add and sub)",
  .of "b-signed" false truth?
    "Whether operand B is signed [default: false] [possible values: true, false]",
  .of "result-width" true width? "Width of the result in bits",
  .of "config" false path? "Path to a TOML config file",
  .of "format" false Format.ofName?
    ("What to print; defaults to the config's output_format, else verilog " ++
      "[possible values: verilog, json, stats]"),
  .of "module-name" false some "Verilog module name; defaults to the config's, else e.g. `add8`",
  .of "eval" false some
    ("Instead of emitting, simulate on `A,B` (decimal, 0x or 0b; negative values allowed) " ++
      "and print the result")]

/-- The option with the name of its value, such as `--a-width <A_WIDTH>`. -/
def OptionInfo.synopsis (info : OptionInfo) : String :=
  "--" ++ info.name ++ " <" ++ (info.name.toUpper.map fun c => if c = '-' then '_' else c) ++ ">"

def usage : String :=
  String.intercalate " "
    ("Usage: adder-lower [OPTIONS]" :: (optionTable.filter (·.required)).map (·.synopsis)) ++ "\n"

def help : String :=
  "Lowers a single add/sub/increment to a half-adder/OR2/INV network\n\n" ++ usage ++
    "\nOptions:\n" ++
    String.join (optionTable.map fun info =>
      "      " ++ info.synopsis ++ "\n          " ++ info.purpose ++ "\n") ++
    "  -h, --help\n          Print help\n"

/-! ## Reading arguments -/

/-- The name of an option and its value. -/
abbrev Setting := String × String

/-- The text behind two dashes, cut at the first equals sign. -/
def splitOption (arg : String) : Option (String × Option String) :=
  match arg.toList with
  | '-' :: '-' :: rest =>
    let name := String.ofList (rest.takeWhile (· != '='))
    match rest.dropWhile (· != '=') with
    | '=' :: value => some (name, some (String.ofList value))
    | _ => some (name, none)
  | _ => none

/-- An argument of its own is a value unless it starts with a dash; a dash alone is one. -/
def isValue (arg : String) : Bool :=
  match arg.toList with
  | '-' :: _ :: _ => false
  | _ => true

/-- The settings of a list of arguments. Two dashes alone may end it. -/
def settings? : List String → Option (List Setting)
  | [] => some []
  | ["--"] => some []
  | arg :: rest =>
    match splitOption arg, rest with
    | some (name, some value), rest => (settings? rest).map ((name, value) :: ·)
    | some (name, none), value :: rest =>
      if isValue value then (settings? rest).map ((name, value) :: ·) else none
    | _, _ => none

/-- Whether there is an option of this name that takes this value. -/
def isAccepted (s : Setting) : Bool := optionTable.any fun info => info.name == s.1 && info.accepts s.2

/-- Whether every setting is accepted, and no option is set twice. -/
def allAccepted : List Setting → Bool
  | [] => true
  | s :: rest => isAccepted s && !rest.any (·.1 == s.1) && allAccepted rest

/-- The settings of a list of arguments, if they are in order. -/
def accepted? (args : List String) : Option (List Setting) := (settings? args).filter allAccepted

/-- The value of an option, if it is set. -/
def value? {α : Type} (settings : List Setting) (name : String) (read : String → Option α) :
    Option α :=
  (settings.lookup name).bind read

/-- The options of settings that are in order, or `none` if a required one is missing. -/
def Options.ofSettings? (settings : List Setting) : Option Options :=
  match value? settings "op" opKind?, value? settings "a-width" width?,
    value? settings "result-width" width? with
  | some op, some aWidth, some resultWidth => some {
      op, aWidth, resultWidth
      aSigned := (value? settings "a-signed" truth?).getD false
      bWidth := value? settings "b-width" width?
      bSigned := (value? settings "b-signed" truth?).getD false
      config := value? settings "config" path?
      format := value? settings "format" Format.ofName?
      moduleName := value? settings "module-name" some
      eval := value? settings "eval" some }
  | _, _, _ => none

/-- The options that arguments set, or `none` if the arguments are wrong. -/
def Options.ofArgs? (args : List String) : Option Options :=
  (accepted? args).bind Options.ofSettings?

/-! ## Help -/

/-- What arguments ask for. -/
inductive Invocation where
  | help
  | run (options : Options)
deriving DecidableEq, Repr

/-- Whether an argument calls for help. Behind one dash, what follows the `h` is not read. -/
def asksForHelp (arg : String) : Bool :=
  match arg.toList with
  | '-' :: 'h' :: _ => true
  | _ => arg == "--help"

/-- Whether the reading of arguments goes on: there is neither a call for help nor the end. -/
def goesOn (arg : String) : Bool := !asksForHelp arg && arg != "--"

/-- What arguments ask for, or `none` if they are wrong. Only what stands before a call for help
has to be in order, and nothing is required there. -/
def Invocation.ofArgs? (args : List String) : Option Invocation :=
  match args.dropWhile goesOn with
  | [] | "--" :: _ => (Options.ofArgs? args).map .run
  | _ :: _ => (accepted? (args.takeWhile goesOn)).map fun _ => .help

end RippleCarry.CommandLine
