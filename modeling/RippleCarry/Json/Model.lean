import RippleCarry.Depth
import RippleCarry.Json.Reader
import RippleCarry.Operation
/-!
# Circuits as JSON

Every type of the model has a JSON form. A structure is an object with its fields; in reading, the
order of the fields is free, unknown ones are skipped, and an array of all the values in order
will do as well. A choice is an object with one member, named for the case.
-/

namespace RippleCarry

namespace Json

/-! ## Shapes -/

/-- A whole number of at most 64 bits. -/
def word? : Json → Option Nat
  | .number (.nat n) => if n < UInt64.size then some n else none
  | _ => none

def bool? : Json → Option Bool
  | .bool b => some b
  | _ => none

def list? {α : Type} (item : Json → Option α) : Json → Option (List α)
  | .array items => items.mapM item
  | _ => none

/-- The value of the only member with the given key: `some none` if there is no such member, and
`none` if there are several. -/
def lookup (members : List (Option String × Json)) (key : String) : Option (Option Json) :=
  match members.filter (fun m => m.1 == some key) with
  | [] => some none
  | [(_, value)] => some (some value)
  | _ => none

/-- The values of a structure's fields, from an object or from an array of all of them. -/
def fields? (names : List String) : Json → Option (List (Option Json))
  | .object members =>
    if members.all (fun m => m.1.isSome) then names.mapM (lookup members) else none
  | .array items => if items.length = names.length then some (items.map some) else none
  | _ => none

/-- The name of a case and its body, if it has one. -/
def case? : Json → Option (String × Option Json)
  | .string (some name) => some (name, none)
  | .object [(some name, body)] => some (name, some body)
  | _ => none

/-- The name of a case without a body. -/
def plainCase? (j : Json) : Option String := do
  match ← j.case? with
  | (name, none) => some name
  | (name, some .null) => some name
  | _ => none

end Json

/-! ## Signals and gates -/

def Signal.toJson (s : Signal) : Json := .record [("id", .ofNat s.id.toNat)]

def Signal.ofJson? (j : Json) : Option Signal := do
  match ← j.fields? ["id"] with
  | [some id] => return ⟨(← id.word?).toUInt64⟩
  | _ => none

def Constants.toJson (c : Constants) : Json :=
  .record [("zero", c.zero.toJson), ("one", c.one.toJson)]

def Constants.ofJson? (j : Json) : Option Constants := do
  match ← j.fields? ["zero", "one"] with
  | [some zero, some one] => return ⟨← Signal.ofJson? zero, ← Signal.ofJson? one⟩
  | _ => none

def GateKind.toJson (k : GateKind) : Json := .string (some k.tag)

def GateKind.ofJson? (j : Json) : Option GateKind := do
  match ← j.plainCase? with
  | "HalfAdder" => some .halfAdder
  | "Or2" => some .or2
  | "Not" => some .not
  | _ => none

def Gate.toJson : Gate → Json
  | .halfAdder a b sum carry => .record [("HalfAdder", .record [("a", a.toJson), ("b", b.toJson),
      ("sum", sum.toJson), ("cout", carry.toJson)])]
  | .or2 a b out =>
    .record [("Or2", .record [("a", a.toJson), ("b", b.toJson), ("x", out.toJson)])]
  | .not a out => .record [("Not", .record [("a", a.toJson), ("y", out.toJson)])]

def Gate.ofJson? (j : Json) : Option Gate := do
  match ← j.case? with
  | ("HalfAdder", some body) =>
    match ← body.fields? ["a", "b", "sum", "cout"] with
    | [some a, some b, some sum, some carry] =>
      return .halfAdder (← Signal.ofJson? a) (← Signal.ofJson? b) (← Signal.ofJson? sum)
        (← Signal.ofJson? carry)
    | _ => none
  | ("Or2", some body) =>
    match ← body.fields? ["a", "b", "x"] with
    | [some a, some b, some out] =>
      return .or2 (← Signal.ofJson? a) (← Signal.ofJson? b) (← Signal.ofJson? out)
    | _ => none
  | ("Not", some body) =>
    match ← body.fields? ["a", "y"] with
    | [some a, some out] => return .not (← Signal.ofJson? a) (← Signal.ofJson? out)
    | _ => none
  | _ => none

/-! ## Operations -/

def Bus.toJson (bus : Bus) : Json :=
  .record [("bits", .ofList Signal.toJson bus.bits), ("signed", .bool bus.signed)]

def Bus.ofJson? (j : Json) : Option Bus := do
  match ← j.fields? ["bits", "signed"] with
  | [some bits, some signed] => return ⟨← bits.list? Signal.ofJson?, ← signed.bool?⟩
  | _ => none

def OpKind.toJson : OpKind → Json
  | .add => .string (some "Add")
  | .subtract => .string (some "Subtract")
  | .increment => .string (some "Increment")

def OpKind.ofJson? (j : Json) : Option OpKind := do
  match ← j.plainCase? with
  | "Add" => some .add
  | "Subtract" => some .subtract
  | "Increment" => some .increment
  | _ => none

def literalToJson : Option Bus → Json
  | none => .null
  | some bus => bus.toJson

/-- A literal that is left out is the same as `null`. -/
def literalOfJson? : Option Json → Option (Option Bus)
  | none => some none
  | some .null => some none
  | some j => (Bus.ofJson? j).map some

def Operation.toJson : Operation → Json
  | .add a b => .record [("Add", .record [("a", a.toJson), ("b", b.toJson)])]
  | .subtract a b => .record [("Subtract", .record [("a", a.toJson), ("b", b.toJson)])]
  | .increment a literal =>
    .record [("Increment", .record [("a", a.toJson), ("literal", literalToJson literal)])]

def Operation.ofJson? (j : Json) : Option Operation := do
  match ← j.case? with
  | ("Add", some body) =>
    match ← body.fields? ["a", "b"] with
    | [some a, some b] => return .add (← Bus.ofJson? a) (← Bus.ofJson? b)
    | _ => none
  | ("Subtract", some body) =>
    match ← body.fields? ["a", "b"] with
    | [some a, some b] => return .subtract (← Bus.ofJson? a) (← Bus.ofJson? b)
    | _ => none
  | ("Increment", some body) =>
    match ← body.fields? ["a", "literal"] with
    | [some a, literal] => return .increment (← Bus.ofJson? a) (← literalOfJson? literal)
    | _ => none
  | _ => none

def Descriptor.toJson (d : Descriptor) : Json :=
  .record [("op", d.op.toJson), ("result_width", .ofNat d.resultWidth)]

def Descriptor.ofJson? (j : Json) : Option Descriptor := do
  match ← j.fields? ["op", "result_width"] with
  | [some op, some width] => return ⟨← Operation.ofJson? op, ← width.word?⟩
  | _ => none

/-! ## Netlists -/

def Netlist.toJson (n : Netlist) : Json :=
  .record [("instances", .ofList Gate.toJson n.gates),
    ("result_bits", .ofList Signal.toJson n.resultBits)]

def Netlist.ofJson? (j : Json) : Option Netlist := do
  match ← j.fields? ["instances", "result_bits"] with
  | [some gates, some bits] => return ⟨← gates.list? Gate.ofJson?, ← bits.list? Signal.ofJson?⟩
  | _ => none

def MergedNetlist.toJson (m : MergedNetlist) : Json :=
  .record [("instances", .ofList Gate.toJson m.gates),
    ("outputs", .ofList (.ofList Signal.toJson) m.outputs)]

def Summary.toJson (s : Summary) : Json :=
  .record [("instances", .ofNat s.gates), ("half_adders", .ofNat s.halfAdders),
    ("or2s", .ofNat s.or2s), ("nots", .ofNat s.nots), ("result_width", .ofNat s.resultWidth),
    ("deepest_path", .ofNat s.deepestPath)]

end RippleCarry
