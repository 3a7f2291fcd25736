import Mathlib.Data.List.Nodup
import RippleCarry.Proofs.VerilogMeaning
/-!
# The wiring of a module

What makes a module well formed can be said of its items alone: which nets an item declares, uses and
drives (`Module.WellFormed`). The items of a clean netlist are those of `namedItems`, with every signal
under one name and different signals under different ones (`toVerilog_items_named`, `netOf_injective`).
Its wires are then the names of the constants and of the driven signals, and the nets that are driven are
the same names in the same order (`declares_namedItems`, `drives_namedItems`).

`verilog_wellFormed`: the module of a clean netlist is well formed, whatever it and its cells are called.
-/

namespace RippleCarry

namespace Verilog

/-! ## Well-formed modules -/

/-- Whether a cell drives the net on a pin of this name. -/
def isOutputPin (pin : String) : Bool :=
  [GateKind.halfAdder, .or2, .not].any fun kind => pin ∈ kind.outputPins

namespace Item

/-- The nets on the pins of a cell and on the right of an assign. -/
def uses : Item → List String
  | wire _ => []
  | tie _ _ => []
  | assign _ source => [source]
  | cell _ _ connections => connections.map Prod.snd

/-- The nets that are tied to a constant or connected to an output pin of a cell. -/
def drives : Item → List String
  | wire _ => []
  | tie net _ => [net]
  | assign _ _ => []
  | cell _ _ connections => (connections.filter fun c => isOutputPin c.1).map Prod.snd

/-- The net on the left of an assign. -/
def assigns : Item → List String
  | assign net _ => [net]
  | _ => []

/-- The name of an instance. -/
def labels : Item → List String
  | cell _ label _ => [label]
  | _ => []

end Item

/-- Every item uses only nets that are there before it. -/
def DeclaredFirst (there : List String) : List Item → Prop
  | [] => True
  | i :: rest => i.uses ⊆ there ∧ DeclaredFirst (there ++ i.declares) rest

namespace Module

def inputs (m : Module) : List String := (m.pins.filter (·.direction = .input)).map Pin.net

def outputs (m : Module) : List String := (m.pins.filter (·.direction = .output)).map Pin.net

def wires (m : Module) : List String := m.items.flatMap Item.declares

/-- Nets and instances have names of their own, and every net one driver of the kind it should have. -/
structure WellFormed (m : Module) : Prop where
  /-- What is used is an input pin or a wire declared before. -/
  declaredFirst : DeclaredFirst m.inputs m.items
  declaredOnce : ∀ i ∈ m.items, ∀ net ∈ i.uses, m.nets.count net = 1
  nets : m.nets.Nodup
  labels : (m.items.flatMap Item.labels).Nodup
  /-- A wire is driven by its tie or by one output pin, and by nothing else. -/
  wires : ∀ net ∈ m.wires, (m.items.flatMap Item.drives).count net = 1 ∧ net ∉ m.items.flatMap Item.assigns
  outputs : ∀ net ∈ m.outputs, (m.items.flatMap Item.assigns).count net = 1 ∧ net ∉ m.items.flatMap Item.drives
  inputs : ∀ net ∈ m.inputs, net ∉ m.items.flatMap Item.drives ∧ net ∉ m.items.flatMap Item.assigns

end Module

/-! ## Declared before use -/

theorem declaredFirst_append {there : List String} {p q : List Item} :
    DeclaredFirst there (p ++ q) ↔
      DeclaredFirst there p ∧ DeclaredFirst (there ++ p.flatMap Item.declares) q := by
  induction p generalizing there with
  | nil => simp [DeclaredFirst]
  | cons i p ih => simp [DeclaredFirst, ih, and_assoc]

theorem declaredFirst_of_uses {there : List String} {items : List Item} (h : ∀ i ∈ items, i.uses ⊆ there) :
    DeclaredFirst there items := by
  induction items generalizing there with
  | nil => trivial
  | cons i items ih =>
    refine ⟨h i (by simp), ih fun j hj => ?_⟩
    exact List.Subset.trans (h j (by simp [hj])) (List.subset_append_left _ _)

theorem DeclaredFirst.uses_subset {there : List String} {items : List Item} (h : DeclaredFirst there items)
    {i : Item} (hi : i ∈ items) : i.uses ⊆ there ++ items.flatMap Item.declares := by
  obtain ⟨before, after, rfl⟩ := List.append_of_mem hi
  rw [List.flatMap_append, ← List.append_assoc]
  exact List.Subset.trans (declaredFirst_append.1 h).2.1 (List.subset_append_left _ _)

/-- A module is well formed when its drivers are its wires, in order, and its assigns are its output pins. -/
theorem Module.wellFormed_of_drivers {m : Module} (hpins : m.pins.map Pin.net = m.inputs ++ m.outputs)
    (hnets : m.nets.Nodup) (hfirst : DeclaredFirst m.inputs m.items)
    (hdrives : m.items.flatMap Item.drives = m.wires) (hassigns : m.items.flatMap Item.assigns = m.outputs)
    (hlabels : (m.items.flatMap Item.labels).Nodup) : m.WellFormed := by
  have hall : m.nets = m.inputs ++ m.outputs ++ m.wires := by
    rw [Module.nets, hpins]
    rfl
  have hparts := hnets
  rw [hall] at hparts
  obtain ⟨hports, hwires, hapart⟩ := List.nodup_append.1 hparts
  obtain ⟨-, houtputs, hsides⟩ := List.nodup_append.1 hports
  refine { declaredFirst := hfirst, declaredOnce := ?once, nets := hnets, labels := hlabels, wires := ?wires,
           outputs := ?outputs, inputs := ?inputs }
  case once =>
    intro i hi net hnet
    refine List.count_eq_one_of_mem hnets ?_
    rw [hall]
    rcases List.mem_append.1 (hfirst.uses_subset hi hnet) with hmem | hmem
    · exact List.mem_append_left _ (List.mem_append_left _ hmem)
    · exact List.mem_append_right _ hmem
  all_goals
    intro net hnet
    rw [hdrives, hassigns]
  case wires =>
    exact ⟨List.count_eq_one_of_mem hwires hnet, fun ho => hapart net (List.mem_append_right _ ho) net hnet rfl⟩
  case outputs =>
    exact ⟨List.count_eq_one_of_mem houtputs hnet, fun hw => hapart net (List.mem_append_right _ hnet) net hw rfl⟩
  case inputs =>
    exact ⟨fun hw => hapart net (List.mem_append_left _ hnet) net hw rfl, fun ho => hsides net hnet net ho rfl⟩

/-! ## Items under one naming -/

section Named

variable (library : CellLibrary) (net : Signal → String)

/-- The wires of the constants, with every signal under its name. -/
def namedConstants (constants : Constants) : List Item :=
  [.wire (net constants.zero), .tie (net constants.zero) false, .wire (net constants.one),
    .tie (net constants.one) true]

/-- The items of one gate. -/
def namedGate (p : Gate × Nat) : List Item :=
  p.1.outputs.map (fun s => .wire (net s)) ++
    [.cell (library.nameOf p.1.kind) ("u" ++ toString p.2) (p.1.pins.map fun (pin, s) => (pin, net s))]

def namedResults (resultBits : List Signal) : List Item :=
  resultBits.zipIdx.map fun (s, i) => .assign (pinName "y" i) (net s)

/-- The items of a netlist. -/
def namedItems (constants : Constants) (n : Netlist) : List Item :=
  namedConstants net constants ++ n.gates.zipIdx.flatMap (namedGate library net) ++ namedResults net n.resultBits

variable {library net}

theorem flatMap_namedItems {α : Type} {f : Item → List α} {k : Gate × Nat → List α}
    (hgate : ∀ p, (namedGate library net p).flatMap f = k p) (constants : Constants) (n : Netlist) :
    (namedItems library net constants n).flatMap f =
      (namedConstants net constants).flatMap f ++ n.gates.zipIdx.flatMap k ++
        (namedResults net n.resultBits).flatMap f := by
  rw [namedItems, List.flatMap_append, List.flatMap_append, List.flatMap_assoc]
  simp only [hgate]

theorem flatMap_namedResults {α : Type} {f : Item → List α} (hf : ∀ x y, f (.assign x y) = [])
    (resultBits : List Signal) : (namedResults net resultBits).flatMap f = [] := by
  rw [namedResults, List.flatMap_map, List.flatMap_eq_nil_iff]
  intro p _
  exact hf _ _

theorem flatMap_outputs (n : Netlist) :
    n.gates.zipIdx.flatMap (fun p => p.1.outputs.map net) = n.driven.map net := by
  rw [flatMap_fst_zipIdx fun g : Gate => g.outputs.map net, Netlist.driven, drivenBy, List.map_flatMap]

theorem declares_namedGate (p : Gate × Nat) :
    (namedGate library net p).flatMap Item.declares = p.1.outputs.map net := by
  obtain ⟨g, i⟩ := p
  cases g <;> rfl

/-- The output pins of a cell are connected to the wires in front of it. -/
theorem drives_namedGate (p : Gate × Nat) :
    (namedGate library net p).flatMap Item.drives = p.1.outputs.map net := by
  obtain ⟨g, i⟩ := p
  cases g <;> rfl

theorem assigns_namedGate (p : Gate × Nat) : (namedGate library net p).flatMap Item.assigns = [] := by
  obtain ⟨g, i⟩ := p
  cases g <;> rfl

theorem labels_namedGate (p : Gate × Nat) :
    (namedGate library net p).flatMap Item.labels = ["u" ++ toString p.2] := by
  obtain ⟨g, i⟩ := p
  cases g <;> rfl

theorem declares_namedItems (constants : Constants) (n : Netlist) :
    (namedItems library net constants n).flatMap Item.declares =
      (constants.zero :: constants.one :: n.driven).map net := by
  rw [flatMap_namedItems declares_namedGate, flatMap_outputs, flatMap_namedResults fun _ _ => rfl, List.append_nil]
  rfl

theorem drives_namedItems (constants : Constants) (n : Netlist) :
    (namedItems library net constants n).flatMap Item.drives =
      (constants.zero :: constants.one :: n.driven).map net := by
  rw [flatMap_namedItems drives_namedGate, flatMap_outputs, flatMap_namedResults fun _ _ => rfl, List.append_nil]
  rfl

theorem map_snd_zipIdx {α β : Type} (f : Nat → β) (l : List α) :
    l.zipIdx.map (fun p => f p.2) = (List.range l.length).map f := by
  rw [List.range_eq_range', ← List.zipIdx_map_snd 0 l, List.map_map]
  rfl

theorem flatMap_snd_zipIdx {α β : Type} (f : Nat → β) (l : List α) :
    l.zipIdx.flatMap (fun p => [f p.2]) = (List.range l.length).map f := by
  rw [← map_snd_zipIdx, List.map_eq_flatMap]

theorem assigns_namedItems (constants : Constants) (n : Netlist) :
    (namedItems library net constants n).flatMap Item.assigns =
      (List.range n.resultBits.length).map (pinName "y") := by
  rw [flatMap_namedItems assigns_namedGate, namedResults, List.flatMap_map, ← flatMap_snd_zipIdx]
  simp [namedConstants, Item.assigns]

theorem labels_namedItems (constants : Constants) (n : Netlist) :
    (namedItems library net constants n).flatMap Item.labels =
      (List.range n.gates.length).map fun i => "u" ++ toString i := by
  rw [flatMap_namedItems labels_namedGate, flatMap_namedResults fun _ _ => rfl, List.append_nil, ← flatMap_snd_zipIdx]
  rfl

theorem declaredFirst_namedGate {p : Gate × Nat} {there : List String} (hin : ∀ s ∈ p.1.inputs, net s ∈ there) :
    DeclaredFirst there (namedGate library net p) := by
  have hwires : (p.1.outputs.map fun s => Item.wire (net s)).flatMap Item.declares = p.1.outputs.map net := by
    rw [List.flatMap_map, List.map_eq_flatMap]
    rfl
  have hpins : p.1.pins.map Prod.snd = p.1.inputs ++ p.1.outputs := by
    cases p.1 <;> rfl
  rw [namedGate, declaredFirst_append, hwires]
  refine ⟨declaredFirst_of_uses ?_, ?_, trivial⟩
  · intro i hi
    obtain ⟨s, -, rfl⟩ := List.mem_map.1 hi
    exact List.nil_subset _
  · show (p.1.pins.map fun (pin, s) => (pin, net s)).map Prod.snd ⊆ there ++ p.1.outputs.map net
    have huses : (p.1.pins.map fun (pin, s) => (pin, net s)).map Prod.snd = (p.1.inputs ++ p.1.outputs).map net := by
      rw [← hpins, List.map_map, List.map_map]
      rfl
    rw [huses, List.map_append]
    intro x hx
    rcases List.mem_append.1 hx with hx | hx
    · obtain ⟨s, hs, rfl⟩ := List.mem_map.1 hx
      exact List.mem_append_left _ (hin s hs)
    · exact List.mem_append_right _ hx

theorem declaredFirst_gates {gates : List Gate} {known : List Signal} {there : List String} (index : Nat)
    (hr : Reads known gates) (hk : ∀ s ∈ known, net s ∈ there) :
    DeclaredFirst there ((gates.zipIdx index).flatMap (namedGate library net)) := by
  induction gates generalizing known there index with
  | nil => trivial
  | cons g rest ih =>
    rw [List.zipIdx_cons, List.flatMap_cons, declaredFirst_append, declares_namedGate]
    refine ⟨declaredFirst_namedGate fun s hs => hk s (hr.1 hs), ih (index + 1) hr.2 fun s hs => ?_⟩
    rcases List.mem_append.1 hs with hs | hs
    · exact List.mem_append_left _ (hk s hs)
    · exact List.mem_append_right _ (List.mem_map_of_mem hs)

/-- What the gates of a sound netlist read, and what its result bits are, is an input pin or a wire by
then. -/
theorem declaredFirst_namedItems {constants : Constants} {n : Netlist} {op : Operation} {there : List String}
    (hs : n.Sound (primaries constants op.operands)) (hinputs : ∀ s ∈ op.operands.flatMap Bus.bits,
      net s ∈ there ++ [net constants.zero, net constants.one]) :
    DeclaredFirst there (namedItems library net constants n) := by
  have hprimaries : ∀ s ∈ primaries constants op.operands,
      net s ∈ there ++ [net constants.zero, net constants.one] := by
    intro s hmem
    simp only [primaries, List.mem_cons] at hmem
    rcases hmem with rfl | rfl | hmem
    · simp
    · simp
    · exact hinputs s hmem
  have hgates : (n.gates.zipIdx.flatMap (namedGate library net)).flatMap Item.declares = n.driven.map net := by
    rw [List.flatMap_assoc, ← flatMap_outputs]
    simp only [declares_namedGate]
  rw [namedItems, declaredFirst_append, declaredFirst_append, List.flatMap_append, hgates]
  refine ⟨⟨declaredFirst_of_uses ?_, declaredFirst_gates 0 hs.reads hprimaries⟩, declaredFirst_of_uses ?_⟩
  · intro i hi
    simp only [namedConstants, List.mem_cons, List.not_mem_nil, or_false] at hi
    rcases hi with rfl | rfl | rfl | rfl <;> exact List.nil_subset _
  · intro i hi
    obtain ⟨⟨s, k⟩, hmem, rfl⟩ := List.mem_map.1 hi
    have hbit : s ∈ n.resultBits := List.mem_of_getElem? (List.mem_zipIdx_iff_getElem?.1 hmem)
    show [net s] ⊆ _
    rw [List.cons_subset]
    refine ⟨?_, List.nil_subset _⟩
    rw [← List.append_assoc]
    rcases List.mem_append.1 (hs.results hbit) with hp | hd
    · exact List.mem_append_left _ (hprimaries s hp)
    · exact List.mem_append_right _ (List.mem_map_of_mem hd)

end Named

/-! ## The module of a clean netlist -/

theorem netOf_cases (constants : Constants) (op : Operation) (s : Signal) :
    netOf constants op s = s.name ∨ (netOf constants op s, s) ∈ inputPins op := by
  by_cases hconstant : s = constants.zero ∨ s = constants.one
  · exact .inl (netOf_constant hconstant)
  · by_cases hinput : s ∈ op.operands.flatMap Bus.bits
    · exact .inr (netOf_input hconstant hinput)
    · exact .inl (netOf_other (by simpa [primaries, not_or.1 hconstant] using hinput))

/-- Different signals go by different names. -/
theorem netOf_injective (constants : Constants) (op : Operation) : Function.Injective (netOf constants op) := by
  intro s t h
  rcases netOf_cases constants op s with hs | hs
  · rcases netOf_cases constants op t with ht | ht
    · exact name_inj.1 (hs.symm.trans (h.trans ht))
    · exact absurd (h.symm.trans hs) (inputPin_ne ht (initial_name s) (by decide))
  · rcases netOf_cases constants op t with ht | ht
    · exact absurd (h.trans ht) (inputPin_ne hs (initial_name t) (by decide))
    · exact congrArg Prod.snd (List.inj_on_of_nodup_map (inputPins_nodup op) hs ht h)

section Clean

variable {n : Netlist} {library : CellLibrary} {name : String} {d : Descriptor} {constants : Constants}

theorem toVerilog_items_named (hs : n.Sound (primaries constants d.op.operands)) :
    (n.toVerilog library name d constants).items = namedItems library (netOf constants d.op) constants n := by
  have hconstants : constantItems constants = namedConstants (netOf constants d.op) constants := by
    rw [namedConstants, netOf_constant (.inl rfl), netOf_constant (.inr rfl)]
    rfl
  have hgates : n.gates.zipIdx.flatMap
      (fun p => gateItems library (inputNets constants (inputPins d.op)) p.2 p.1) =
        n.gates.zipIdx.flatMap (namedGate library (netOf constants d.op)) := by
    refine List.flatMap_congr fun p hp => ?_
    have hg : p.1 ∈ n.gates := List.mem_of_getElem? (List.mem_zipIdx_iff_getElem?.1 hp)
    have hwires : p.1.outputs.map (fun s => Item.wire s.name) =
        p.1.outputs.map fun s => Item.wire (netOf constants d.op s) := by
      refine List.map_congr_left fun s hout => ?_
      rw [netOf_other (hs.undriven s (mem_drivenBy hg hout))]
    rw [gateItems, namedGate, hwires]
    rfl
  rw [toVerilog_items hs, hconstants, hgates]
  rfl

theorem inputs_toVerilog : (n.toVerilog library name d constants).inputs = (inputPins d.op).map Prod.fst := by
  simp [Module.inputs, Netlist.toVerilog, List.filter_map, Function.comp_def]

theorem outputs_toVerilog :
    (n.toVerilog library name d constants).outputs = (List.range n.resultBits.length).map (pinName "y") := by
  rw [← map_snd_zipIdx]
  simp [Module.outputs, Netlist.toVerilog, List.filter_map, Function.comp_def]

theorem labels_nodup (count : Nat) : ((List.range count).map fun i => "u" ++ toString i).Nodup := by
  refine List.Pairwise.map _ ?_ List.nodup_range
  intro i j hij h
  rw [String.append_right_inj] at h
  exact hij (Nat.repr_inj.1 h)

theorem pins_toVerilog :
    (n.toVerilog library name d constants).pins.map Pin.net =
      (n.toVerilog library name d constants).inputs ++ (n.toVerilog library name d constants).outputs := by
  simp [Module.inputs, Module.outputs, Netlist.toVerilog, List.filter_map, Function.comp_def]

theorem wellFormed_toVerilog (hs : n.Sound (primaries constants d.op.operands))
    (hconstants : constants.zero ≠ constants.one) : (n.toVerilog library name d constants).WellFormed := by
  apply Module.wellFormed_of_drivers pins_toVerilog
  · rw [nets_toVerilog hs]
    exact netNames_nodup hs hconstants
  · rw [toVerilog_items_named hs, inputs_toVerilog]
    refine declaredFirst_namedItems hs fun s hmem => ?_
    by_cases hconstant : s = constants.zero ∨ s = constants.one
    · rcases hconstant with rfl | rfl <;> simp
    · exact List.mem_append_left _ (List.mem_map.2 ⟨_, netOf_input hconstant hmem, rfl⟩)
  · rw [Module.wires, toVerilog_items_named hs, drives_namedItems, declares_namedItems]
  · rw [toVerilog_items_named hs, assigns_namedItems, outputs_toVerilog]
  · rw [toVerilog_items_named hs, labels_namedItems]
    exact labels_nodup _

end Clean

end Verilog

/-- The Verilog of a clean netlist is a well-formed module. Every net on a pin of a cell or on the right of
an assign is declared exactly once, before that use, as an input pin or a wire. No two nets share a name and
no two instances do. Every wire is driven once, by its tie or by an output pin; every output pin of the
module by one assign; no input pin by anything. Each signal is written with one name throughout, and
different signals with different names. None of this depends on what the module and its cells are called;
with names that can be read, the module is what its text says. -/
theorem verilog_wellFormed (n : Netlist) (library : CellLibrary) (name : String) (d : Descriptor)
    (constants : Constants) (hclean : n.defectsFor constants d = []) (hconstants : constants.zero ≠ constants.one) :
    (n.toVerilog library name d constants).WellFormed ∧
    (n.toVerilog library name d constants).outputs = (List.range n.resultBits.length).map (Verilog.pinName "y") ∧
    (∃ net : Signal → String, Function.Injective net ∧
      (n.toVerilog library name d constants).items = Verilog.namedItems library net constants n) ∧
    (Verilog.isIdentifier name → (∀ kind, Verilog.isCellName (library.nameOf kind)) →
      Verilog.Module.parse? (n.toVerilog library name d constants).render =
        some (n.toVerilog library name d constants)) := by
  have hs := Netlist.defects_eq_nil_iff.1 hclean
  refine ⟨Verilog.wellFormed_toVerilog hs hconstants, Verilog.outputs_toVerilog,
    ⟨_, Verilog.netOf_injective constants d.op, Verilog.toVerilog_items_named hs⟩, ?_⟩
  intro hname hcells
  exact Verilog.Module.parse?_render (Verilog.legible_of_cells hs hname hcells)

/-- The first operand repeats a bit, the second shares one with it and has one tied to 0, and a result bit is
an operand bit. Two kinds of gate have the same cell. -/
theorem verilog_wellFormed_shared_bits :
    let constants : Constants := ⟨⟨0⟩, ⟨1⟩⟩
    let d : Descriptor := ⟨.add ⟨[⟨2⟩, ⟨3⟩, ⟨2⟩], false⟩ ⟨[⟨3⟩, ⟨0⟩], true⟩, 3⟩
    let n : Netlist := ⟨[.halfAdder ⟨2⟩ ⟨3⟩ ⟨7⟩ ⟨8⟩, .not ⟨8⟩ ⟨5⟩, .or2 ⟨0⟩ ⟨5⟩ ⟨6⟩], [⟨7⟩, ⟨6⟩, ⟨2⟩]⟩
    let library : CellLibrary := ⟨"ADD", "GATE", "GATE"⟩
    n.defectsFor constants d = [] ∧ constants.zero ≠ constants.one ∧
      ∃ m, Verilog.Module.parse? (n.toVerilog library "adder" d constants).render = some m ∧ m.WellFormed ∧
        m.outputs = ["y_0", "y_1", "y_2"] := by
  intro constants d n library
  have hclean : n.defectsFor constants d = [] := by decide
  have hconstants : constants.zero ≠ constants.one := by decide
  have hcells : ∀ kind, Verilog.isCellName (library.nameOf kind) := by
    intro kind
    cases kind <;> decide
  obtain ⟨hwell, houtputs, -, hread⟩ := verilog_wellFormed n library "adder" d constants hclean hconstants
  exact ⟨hclean, hconstants, _, hread (by decide) hcells, hwell, houtputs⟩

end RippleCarry
