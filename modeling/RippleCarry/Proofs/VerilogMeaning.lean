import Mathlib.Logic.ExistsUnique
import RippleCarry.Proofs.Solution
import RippleCarry.Proofs.VerilogNets
/-!
# What the Verilog of a netlist means

A module is a set of equations between its nets: an assign says that two nets carry one value, and
an instance says that the truth table of its cell holds between the nets on its pins. A solution
(`Module.IsSolution`) gives a value to every net of the module and to nothing else.

Each signal goes by one name, so a solution of the module is a solution of the netlist read through
the names (`Module.IsSolution.toNetlist`), and a solution of the netlist fills the table of nets
(`isSolution_netValues`). `verilog_exact`: the text of a clean netlist can be read, what is read has
exactly one solution, and the output pins carry the bits of evaluation.
-/

namespace RippleCarry

/-- The kind of gate that a cell stands for. -/
def CellLibrary.kindOf? (l : CellLibrary) (type : String) : Option GateKind :=
  [GateKind.halfAdder, .or2, .not].find? fun kind => l.nameOf kind = type

theorem CellLibrary.Plain.kindOf?_nameOf {l : CellLibrary} (h : l.Plain) (kind : GateKind) :
    l.kindOf? (l.nameOf kind) = some kind := by
  have hdistinct := h.distinct
  simp only [List.nodup_cons, List.mem_cons, List.not_mem_nil, or_false, not_or] at hdistinct
  obtain ⟨⟨hor, hnot⟩, hor2, -⟩ := hdistinct
  cases kind with
  | halfAdder => simp [kindOf?, nameOf]
  | or2 => simp [kindOf?, nameOf, hor]
  | not => simp [kindOf?, nameOf, hnot, hor2]

namespace Verilog

/-! ## The equations of a module -/

/-- Values for some of the nets. -/
abbrev NetValues := String → Option Bool

/-- The value on a pin of an instance, through the net connected to it. -/
def NetValues.onPin (ρ : NetValues) (connections : List (String × String)) (pin : String) :
    Option Bool :=
  (connections.lookup pin).bind ρ

/-- The equation of an item. An instance is identified by its cell's name, and its nets by the names
of the pins. -/
def Item.Holds (library : CellLibrary) (ρ : NetValues) : Item → Prop
  | wire _ => True
  | tie net value => ρ net = some value
  | assign net source => ∃ value, ρ source = some value ∧ ρ net = some value
  | cell type _ connections =>
    ∃ kind ins outs, library.kindOf? type = some kind ∧
      kind.inputPins.map (ρ.onPin connections) = ins.map some ∧
      kind.outputPins.map (ρ.onPin connections) = outs.map some ∧ kind.eval ins = .ok outs

/-- Every net of the module has a value and no other name has one, the input pins have those of the
operand bits, and the equations of all items hold. -/
structure Module.IsSolution (library : CellLibrary) (m : Module) (op : Operation) (v : Valuation)
    (ρ : NetValues) : Prop where
  domain : ∀ net, (ρ net).isSome ↔ net ∈ m.nets
  inputs : ∀ o ∈ op.namedOperands, ∀ (i : Nat) (s : Signal), o.2.bits[i]? = some s →
    ρ (pinName o.1 i) = v.get? s
  holds : ∀ i ∈ m.items, i.Holds library ρ

/-! ## The equations of a netlist's module -/

theorem map_onPin (ρ : NetValues) (net : Signal → String) (g : Gate) :
    g.kind.inputPins.map (ρ.onPin (g.pins.map fun (pin, s) => (pin, net s))) =
        g.inputs.map (fun s => ρ (net s)) ∧
      g.kind.outputPins.map (ρ.onPin (g.pins.map fun (pin, s) => (pin, net s))) =
        g.outputs.map (fun s => ρ (net s)) := by
  cases g <;> exact ⟨rfl, rfl⟩

section Equations

variable {n : Netlist} {library : CellLibrary} {name : String} {d : Descriptor} {constants : Constants}
  {op : Operation} {v : Valuation} {ρ : NetValues} {τ : PartialAssignment}

theorem cell_holds_iff (hlibrary : library.Plain) (net : Signal → String) (g : Gate) (label : String) :
    (Item.cell (library.nameOf g.kind) label (g.pins.map fun (pin, s) => (pin, net s))).Holds library ρ ↔
      g.HoldsIn fun s => ρ (net s) := by
  obtain ⟨hin, hout⟩ := map_onPin ρ net g
  rw [Item.Holds, Gate.HoldsIn, ← hin, ← hout, hlibrary.kindOf?_nameOf]
  constructor
  · rintro ⟨kind, ins, outs, hkind, h⟩
    cases hkind
    exact ⟨ins, outs, h⟩
  · rintro ⟨ins, outs, h⟩
    exact ⟨g.kind, ins, outs, rfl, h⟩

theorem items_hold_iff (hs : n.Sound (primaries constants d.op.operands)) (hlibrary : library.Plain) :
    (∀ i ∈ (n.toVerilog library name d constants).items, i.Holds library ρ) ↔
      (ρ constants.zero.name = some false ∧ ρ constants.one.name = some true) ∧
      (∀ g ∈ n.gates, g.HoldsIn fun s => ρ (netOf constants d.op s)) ∧
      ∀ (k : Nat) (s : Signal), n.resultBits[k]? = some s →
        ∃ b, ρ (netOf constants d.op s) = some b ∧ ρ (pinName "y" k) = some b := by
  rw [toVerilog_items hs, List.forall_mem_append, List.forall_mem_append, and_assoc]
  refine and_congr ?_ (and_congr ?_ ?_)
  · simp [constantItems, Item.Holds]
  · constructor
    · intro h g hg
      obtain ⟨k, hk⟩ := List.mem_iff_getElem?.1 hg
      have hcell := h _ (List.mem_flatMap.2 ⟨(g, k), List.mem_zipIdx_iff_getElem?.2 hk,
        List.mem_append_right _ (List.mem_singleton_self _)⟩)
      exact (cell_holds_iff hlibrary _ g _).1 hcell
    · intro h i hi
      obtain ⟨p, hp, hi⟩ := List.mem_flatMap.1 hi
      rw [gateItems, List.mem_append, List.mem_singleton, List.mem_map] at hi
      rcases hi with ⟨s, -, rfl⟩ | rfl
      · trivial
      · have hg := List.mem_of_getElem? (List.mem_zipIdx_iff_getElem?.1 hp)
        exact (cell_holds_iff hlibrary _ p.1 _).2 (h p.1 hg)
  · constructor
    · intro h k s hk
      exact h _ (List.mem_map.2 ⟨(s, k), List.mem_zipIdx_iff_getElem?.2 hk, rfl⟩)
    · intro h i hi
      obtain ⟨⟨s, k⟩, hmem, rfl⟩ := List.mem_map.1 hi
      exact h k s (List.mem_zipIdx_iff_getElem?.1 hmem)

/-! ## Which names are nets -/

theorem name_mem_netNames {s : Signal} :
    s.name ∈ netNames n op constants ↔ s ∈ constants.zero :: constants.one :: n.driven := by
  rw [netNames, List.mem_append, List.mem_append]
  constructor
  · rintro ((h | h) | h)
    · obtain ⟨p, hp, hname⟩ := List.mem_map.1 h
      exact absurd hname (inputPin_ne hp (initial_name s) (by decide))
    · obtain ⟨i, -, hname⟩ := List.mem_map.1 h
      exact absurd hname (ne_of_initial (initial_pinName rfl i) (initial_name s) (by decide))
    · obtain ⟨t, ht, hname⟩ := List.mem_map.1 h
      rwa [← name_inj.1 hname]
  · intro h
    exact .inr (List.mem_map_of_mem h)

theorem output_mem_netNames {k : Nat} :
    pinName "y" k ∈ netNames n op constants ↔ k < n.resultBits.length := by
  have hy : initial (pinName "y" k) = some 'y' := initial_pinName rfl k
  rw [netNames, List.mem_append, List.mem_append]
  constructor
  · rintro ((h | h) | h)
    · obtain ⟨p, hp, hname⟩ := List.mem_map.1 h
      exact absurd hname (inputPin_ne hp hy (by decide))
    · obtain ⟨i, hi, hname⟩ := List.mem_map.1 h
      rw [← pinName_inj.1 hname]
      exact List.mem_range.1 hi
    · obtain ⟨t, -, hname⟩ := List.mem_map.1 h
      exact absurd hname (ne_of_initial (initial_name t) hy (by decide))
  · intro h
    exact .inl (.inr (List.mem_map_of_mem (List.mem_range.2 h)))

theorem netOf_mem_netNames {s : Signal} :
    netOf constants op s ∈ netNames n op constants ↔ s ∈ primaries constants op.operands ++ n.driven := by
  by_cases hconstant : s = constants.zero ∨ s = constants.one
  · rw [netOf_constant hconstant, name_mem_netNames]
    rcases hconstant with rfl | rfl <;> simp [primaries]
  · by_cases hinput : s ∈ op.operands.flatMap Bus.bits
    · have hpin : netOf constants op s ∈ netNames n op constants :=
        List.mem_append_left _ (List.mem_append_left _
          (List.mem_map.2 ⟨_, netOf_input hconstant hinput, rfl⟩))
      refine iff_of_true hpin (List.mem_append_left _ ?_)
      simp [primaries, hinput]
    · have hother : s ∉ primaries constants op.operands := by
        simpa [primaries, not_or.1 hconstant] using hinput
      rw [netOf_other hother, name_mem_netNames, List.mem_append, or_iff_right hother]
      simp [not_or.1 hconstant]

/-! ## From the module to the netlist -/

theorem input_eq (h : (n.toVerilog library name d constants).IsSolution library d.op v ρ)
    {p : String × Signal} (hp : p ∈ inputPins d.op) : ρ p.1 = v.get? p.2 := by
  obtain ⟨pin, s⟩ := p
  obtain ⟨o, ho, i, hi, rfl⟩ := mem_inputPins.1 hp
  exact h.inputs o ho i s hi

theorem Module.IsSolution.toNetlist (hs : n.Sound (primaries constants d.op.operands)) (hlibrary : library.Plain)
    (hv : v.Ready constants (d.op.operands.flatMap Bus.bits))
    (h : (n.toVerilog library name d constants).IsSolution library d.op v ρ) :
    n.IsSolution (primaries constants d.op.operands) v (fun s => ρ (netOf constants d.op s)) := by
  obtain ⟨⟨hzero, hone⟩, hgates, -⟩ := (items_hold_iff hs hlibrary).1 h.holds
  refine ⟨fun s => ?_, ?_, hgates⟩
  · rw [h.domain, nets_toVerilog hs, netOf_mem_netNames]
  · intro s hmem
    by_cases hconstant : s = constants.zero ∨ s = constants.one
    · show ρ (netOf constants d.op s) = v.get? s
      rw [netOf_constant hconstant]
      rcases hconstant with rfl | rfl
      · rw [hzero, hv.zero]
      · rw [hone, hv.one]
    · simp only [primaries, List.mem_cons, ← or_assoc, hconstant, false_or] at hmem
      exact input_eq h (netOf_input hconstant hmem)

/-! ## From the netlist to the module -/

/-- The nets of the module with the values of their signals. -/
def netTable (n : Netlist) (op : Operation) (constants : Constants) (τ : PartialAssignment) :
    List (String × Option Bool) :=
  (inputPins op).map (fun p => (p.1, τ p.2)) ++
    n.resultBits.zipIdx.map (fun p => (pinName "y" p.2, τ p.1)) ++
    (constants.zero :: constants.one :: n.driven).map (fun s => (s.name, τ s))

def netValues (n : Netlist) (op : Operation) (constants : Constants) (τ : PartialAssignment) : NetValues :=
  fun net => ((netTable n op constants τ).lookup net).join

theorem lookup_of_nodup {α β : Type} [DecidableEq α] {l : List (α × β)} (hl : (l.map Prod.fst).Nodup)
    {a : α} {b : β} (hmem : (a, b) ∈ l) : l.lookup a = some b := by
  induction l with
  | nil => cases hmem
  | cons p l ih =>
    obtain ⟨k, c⟩ := p
    rw [List.map_cons, List.nodup_cons] at hl
    rcases List.mem_cons.1 hmem with heq | hrest
    · cases heq
      simp
    · have hne : a ≠ k := by
        rintro rfl
        exact hl.1 (List.mem_map.2 ⟨(a, b), hrest, rfl⟩)
      rw [List.lookup_cons, beq_false_of_ne hne]
      exact ih hl.2 hrest

theorem map_fst_netTable : (netTable n op constants τ).map Prod.fst = netNames n op constants := by
  rw [netNames, netTable, List.map_append, List.map_append, List.map_map, List.map_map, List.map_map,
    List.range_eq_range', ← List.zipIdx_map_snd, List.map_map]
  rfl

section Filled

variable (hs : n.Sound (primaries constants op.operands)) (hconstants : constants.zero ≠ constants.one)

include hs

-- Every net of the table carries a signal that a solution of the netlist gives a value to.
theorem netTable_signal {e : String × Option Bool} (he : e ∈ netTable n op constants τ) :
    ∃ s ∈ primaries constants op.operands ++ n.driven, e.2 = τ s := by
  rw [netTable, List.mem_append, List.mem_append] at he
  rcases he with (he | he) | he
  · obtain ⟨p, hp, rfl⟩ := List.mem_map.1 he
    have hinput := signal_mem_inputPins.1 (List.mem_map.2 ⟨p, hp, rfl⟩)
    exact ⟨p.2, List.mem_append_left _ (by simp [primaries, hinput]), rfl⟩
  · obtain ⟨⟨s, k⟩, hmem, rfl⟩ := List.mem_map.1 he
    exact ⟨s, hs.results (List.mem_of_getElem? (List.mem_zipIdx_iff_getElem?.1 hmem)), rfl⟩
  · obtain ⟨s, hmem, rfl⟩ := List.mem_map.1 he
    refine ⟨s, ?_, rfl⟩
    simp only [List.mem_cons] at hmem
    rcases hmem with rfl | rfl | hmem
    · simp [primaries]
    · simp [primaries]
    · exact List.mem_append_right _ hmem

include hconstants

theorem netValues_eq {e : String × Option Bool} (he : e ∈ netTable n op constants τ) :
    netValues n op constants τ e.1 = e.2 := by
  have hnodup : ((netTable n op constants τ).map Prod.fst).Nodup := by
    rw [map_fst_netTable]
    exact netNames_nodup hs hconstants
  rw [netValues, lookup_of_nodup hnodup he]
  rfl

theorem isSome_netValues (hτ : n.IsSolution (primaries constants op.operands) v τ) (net : String) :
    (netValues n op constants τ net).isSome ↔ net ∈ netNames n op constants := by
  rw [← map_fst_netTable (τ := τ)]
  constructor
  · intro h
    cases hlookup : (netTable n op constants τ).lookup net with
    | none => simp [netValues, hlookup] at h
    | some o =>
      obtain ⟨before, after, heq, -⟩ := List.lookup_eq_some_iff.1 hlookup
      rw [heq]
      simp
  · intro h
    obtain ⟨e, he, rfl⟩ := List.mem_map.1 h
    obtain ⟨s, hmem, hvalue⟩ := netTable_signal hs he
    rw [netValues_eq hs hconstants he, hvalue]
    exact (hτ.domain s).2 hmem

theorem netValues_netOf (hτ : n.IsSolution (primaries constants op.operands) v τ) :
    (fun s => netValues n op constants τ (netOf constants op s)) = τ := by
  funext s
  by_cases hmem : s ∈ primaries constants op.operands ++ n.driven
  · by_cases hwire : s ∈ constants.zero :: constants.one :: n.driven
    · have he : (s.name, τ s) ∈ netTable n op constants τ :=
        List.mem_append_right _ (List.mem_map.2 ⟨s, hwire, rfl⟩)
      rw [netOf_wire hs hwire]
      exact netValues_eq hs hconstants he
    · simp only [List.mem_cons, not_or] at hwire
      have hinput : s ∈ op.operands.flatMap Bus.bits := by
        simpa [primaries, hwire] using hmem
      have he : (netOf constants op s, τ s) ∈ netTable n op constants τ :=
        List.mem_append_left _ (List.mem_append_left _
          (List.mem_map.2 ⟨_, netOf_input (by simp [hwire]) hinput, rfl⟩))
      exact netValues_eq hs hconstants he
  · have hnone : ¬ (netValues n op constants τ (netOf constants op s)).isSome := by
      rw [isSome_netValues hs hconstants hτ, netOf_mem_netNames]
      exact hmem
    rw [Option.not_isSome_iff_eq_none.1 hnone,
      Option.not_isSome_iff_eq_none.1 fun h => hmem ((hτ.domain s).1 h)]

end Filled

theorem isSolution_netValues (name : String) (hs : n.Sound (primaries constants d.op.operands))
    (hconstants : constants.zero ≠ constants.one) (hlibrary : library.Plain)
    (hv : v.Ready constants (d.op.operands.flatMap Bus.bits))
    (hτ : n.IsSolution (primaries constants d.op.operands) v τ) :
    (n.toVerilog library name d constants).IsSolution library d.op v (netValues n d.op constants τ) := by
  have hnetOf (s : Signal) : netValues n d.op constants τ (netOf constants d.op s) = τ s :=
    congrFun (netValues_netOf hs hconstants hτ) s
  refine ⟨fun net => ?_, ?_, (items_hold_iff hs hlibrary).2 ⟨⟨?_, ?_⟩, ?_, ?_⟩⟩
  · rw [nets_toVerilog hs]
    exact isSome_netValues hs hconstants hτ net
  · intro o ho i s hi
    have hp : (pinName o.1 i, s) ∈ inputPins d.op := mem_inputPins.2 ⟨o, ho, i, hi, rfl⟩
    have hinput := signal_mem_inputPins.1 (List.mem_map.2 ⟨_, hp, rfl⟩)
    have he : (pinName o.1 i, τ s) ∈ netTable n d.op constants τ :=
      List.mem_append_left _ (List.mem_append_left _ (List.mem_map.2 ⟨_, hp, rfl⟩))
    rw [netValues_eq hs hconstants he]
    exact hτ.agrees s (by simp [primaries, hinput])
  · have hzero : netOf constants d.op constants.zero = constants.zero.name := netOf_constant (.inl rfl)
    rw [← hzero, hnetOf, hτ.agrees _ (by simp [primaries]), hv.zero]
  · have hone : netOf constants d.op constants.one = constants.one.name := netOf_constant (.inr rfl)
    rw [← hone, hnetOf, hτ.agrees _ (by simp [primaries]), hv.one]
  · rw [netValues_netOf hs hconstants hτ]
    exact hτ.holds
  · intro k s hk
    have he : (pinName "y" k, τ s) ∈ netTable n d.op constants τ :=
      List.mem_append_left _ (List.mem_append_right _
        (List.mem_map.2 ⟨(s, k), List.mem_zipIdx_iff_getElem?.2 hk, rfl⟩))
    obtain ⟨b, hb⟩ := Option.isSome_iff_exists.1 ((hτ.domain s).2 (hs.results (List.mem_of_getElem? hk)))
    refine ⟨b, ?_, ?_⟩
    · rw [hnetOf, hb]
    · rw [netValues_eq hs hconstants he, hb]

/-! ## Pins -/

theorem input_mem_pins {net : String} :
    ⟨.input, net⟩ ∈ (n.toVerilog library name d constants).pins ↔
      ∃ o ∈ d.op.namedOperands, ∃ i < o.2.bits.length, net = pinName o.1 i := by
  have hpins : ⟨.input, net⟩ ∈ (n.toVerilog library name d constants).pins ↔
      ∃ s, (net, s) ∈ inputPins d.op := by
    simp [Netlist.toVerilog]
  rw [hpins]
  constructor
  · rintro ⟨s, hmem⟩
    obtain ⟨o, ho, i, hi, hnet⟩ := mem_inputPins.1 hmem
    exact ⟨o, ho, i, (List.getElem?_eq_some_iff.1 hi).1, hnet⟩
  · rintro ⟨o, ho, i, hi, hnet⟩
    exact ⟨_, mem_inputPins.2 ⟨o, ho, i, List.getElem?_eq_getElem hi, hnet⟩⟩

theorem output_mem_pins {net : String} :
    ⟨.output, net⟩ ∈ (n.toVerilog library name d constants).pins ↔
      ∃ i < n.resultBits.length, net = pinName "y" i := by
  have hpins : ⟨.output, net⟩ ∈ (n.toVerilog library name d constants).pins ↔
      ∃ s i, (s, i) ∈ n.resultBits.zipIdx ∧ pinName "y" i = net := by
    simp [Netlist.toVerilog]
  rw [hpins]
  constructor
  · rintro ⟨s, i, hmem, rfl⟩
    exact ⟨i, (List.getElem?_eq_some_iff.1 (List.mem_zipIdx_iff_getElem?.1 hmem)).1, rfl⟩
  · rintro ⟨i, hi, rfl⟩
    exact ⟨_, i, List.mem_zipIdx_iff_getElem?.2 (List.getElem?_eq_getElem hi), rfl⟩

/-! ## Both ways -/

-- Each net of the module is an input pin, an output pin or a wire, and its value is that of a signal.
theorem Module.IsSolution.unique (hs : n.Sound (primaries constants d.op.operands)) (hlibrary : library.Plain)
    (hv : v.Ready constants (d.op.operands.flatMap Bus.bits)) {ρ' : NetValues}
    (h : (n.toVerilog library name d constants).IsSolution library d.op v ρ)
    (h' : (n.toVerilog library name d constants).IsSolution library d.op v ρ') : ρ = ρ' := by
  have hsame (s : Signal) : ρ (netOf constants d.op s) = ρ' (netOf constants d.op s) :=
    congrFun ((h.toNetlist hs hlibrary hv).unique hs.reads (h'.toNetlist hs hlibrary hv)) s
  obtain ⟨-, -, hresults⟩ := (items_hold_iff hs hlibrary).1 h.holds
  obtain ⟨-, -, hresults'⟩ := (items_hold_iff hs hlibrary).1 h'.holds
  funext net
  by_cases hnet : net ∈ (n.toVerilog library name d constants).nets
  · rw [nets_toVerilog hs, netNames, List.mem_append, List.mem_append] at hnet
    rcases hnet with (hnet | hnet) | hnet
    · obtain ⟨p, hp, rfl⟩ := List.mem_map.1 hnet
      rw [input_eq h hp, input_eq h' hp]
    · obtain ⟨k, hk, rfl⟩ := List.mem_map.1 hnet
      have hbit := List.getElem?_eq_getElem (List.mem_range.1 hk)
      obtain ⟨b, hb, hy⟩ := hresults k _ hbit
      obtain ⟨b', hb', hy'⟩ := hresults' k _ hbit
      rw [hy, hy', ← hb, ← hb', hsame]
    · obtain ⟨s, hwire, rfl⟩ := List.mem_map.1 hnet
      rw [← netOf_wire hs hwire, hsame]
  · rw [Option.not_isSome_iff_eq_none.1 fun hd => hnet ((h.domain net).1 hd),
      Option.not_isSome_iff_eq_none.1 fun hd => hnet ((h'.domain net).1 hd)]

theorem Module.IsSolution.output (hs : n.Sound (primaries constants d.op.operands)) (hlibrary : library.Plain)
    (hv : v.Ready constants (d.op.operands.flatMap Bus.bits))
    (h : (n.toVerilog library name d constants).IsSolution library d.op v ρ) {bits : List Bool}
    (hbits : n.eval v = .ok bits) (k : Nat) : ρ (pinName "y" k) = bits[k]? := by
  obtain ⟨heval, hvalues⟩ := hs.eval_of_solution hv.binds (h.toNetlist hs hlibrary hv)
  rw [heval] at hbits
  cases hbits
  cases hk : n.resultBits[k]? with
  | none =>
    have hlen := List.getElem?_eq_none_iff.1 hk
    have hnet : pinName "y" k ∉ (n.toVerilog library name d constants).nets := by
      rw [nets_toVerilog hs, output_mem_netNames]
      omega
    rw [Option.not_isSome_iff_eq_none.1 fun hd => hnet ((h.domain _).1 hd), List.getElem?_map, hk]
    rfl
  | some s =>
    obtain ⟨b, hb, hy⟩ := ((items_hold_iff hs hlibrary).1 h.holds).2.2 k s hk
    rw [hy, List.getElem?_map, hk, Option.map_some, PartialAssignment.total, hb]
    rfl

end Equations

end Verilog

/-- The Verilog of a clean netlist means what the netlist does. Its text, written with plain names for
the module and three different cells, can be read as a module with an input pin for each operand bit
and an output pin for each bit of evaluation. With the operand bits on the input pins the equations of
that module have exactly one solution, in which output pin `y_i` carries bit `i` of evaluation.
Operands may repeat bits, share them or have them tied to a constant. -/
theorem verilog_exact (n : Netlist) (library : CellLibrary) (name : String) (d : Descriptor)
    (constants : Constants) (v : Valuation) (hclean : n.defectsFor constants d = [])
    (hname : Verilog.isIdentifier name) (hlibrary : library.Plain)
    (hv : v.Ready constants (d.op.operands.flatMap Bus.bits)) :
    ∃ m bits, Verilog.Module.parse? (n.toVerilog library name d constants).render = some m ∧
      n.eval v = .ok bits ∧
      (∀ net, ⟨.input, net⟩ ∈ m.pins ↔
        ∃ o ∈ d.op.namedOperands, ∃ i < o.2.bits.length, net = Verilog.pinName o.1 i) ∧
      (∀ net, ⟨.output, net⟩ ∈ m.pins ↔ ∃ i < bits.length, net = Verilog.pinName "y" i) ∧
      (∃! ρ, m.IsSolution library d.op v ρ) ∧
      ∀ ρ, m.IsSolution library d.op v ρ → ∀ i, ρ (Verilog.pinName "y" i) = bits[i]? := by
  have hs := Netlist.defects_eq_nil_iff.1 hclean
  have hconstants : constants.zero ≠ constants.one := by
    intro h
    have hzero := hv.zero
    rw [h, hv.one] at hzero
    cases hzero
  have hτ := hs.isSolution_settled hv.binds
  have heval := (hs.eval_of_solution hv.binds hτ).1
  have hsolution := Verilog.isSolution_netValues name hs hconstants hlibrary hv hτ
  refine ⟨n.toVerilog library name d constants, _,
    Verilog.Module.parse?_render (Verilog.toVerilog_legible hs hname hlibrary), heval, ?_, ?_, ?_, ?_⟩
  · intro net
    exact Verilog.input_mem_pins
  · intro net
    rw [List.length_map]
    exact Verilog.output_mem_pins
  · exact ⟨_, hsolution, fun ρ hρ => hρ.unique hs hlibrary hv hsolution⟩
  · intro ρ hρ
    exact hρ.output hs hlibrary hv heval

/-- The first operand repeats a bit, the second shares one with it and has one tied to 0, so that two
input pins are left unconnected. -/
theorem verilog_exact_shared_bits :
    let constants : Constants := ⟨⟨0⟩, ⟨1⟩⟩
    let d : Descriptor := ⟨.add ⟨[⟨2⟩, ⟨3⟩, ⟨2⟩], false⟩ ⟨[⟨3⟩, ⟨0⟩], true⟩, 3⟩
    let n : Netlist := ⟨[.halfAdder ⟨2⟩ ⟨3⟩ ⟨7⟩ ⟨8⟩, .not ⟨8⟩ ⟨5⟩, .or2 ⟨0⟩ ⟨5⟩ ⟨6⟩], [⟨7⟩, ⟨6⟩, ⟨2⟩]⟩
    let library : CellLibrary := ⟨"HA", "OR2", "INV"⟩
    let v := (Valuation.empty.bindConstants constants).bindBits ⟨[⟨2⟩, ⟨3⟩], false⟩ [true, false]
    n.defectsFor constants d = [] ∧ library.Plain ∧ v.Ready constants (d.op.operands.flatMap Bus.bits) ∧
      ∃ m, Verilog.Module.parse? (n.toVerilog library "adder" d constants).render = some m ∧
        (∃! ρ, m.IsSolution library d.op v ρ) ∧
        ∀ ρ, m.IsSolution library d.op v ρ →
          ρ "y_0" = some true ∧ ρ "y_1" = some true ∧ ρ "y_2" = some true ∧ ρ "y_3" = none := by
  intro constants d n library v
  have hclean : n.defectsFor constants d = [] := by decide
  have hlibrary : library.Plain := by decide
  have hv : v.Ready constants (d.op.operands.flatMap Bus.bits) := by decide
  have hs := Netlist.defects_eq_nil_iff.1 hclean
  obtain ⟨m, bits, hparse, heval, -, -, hunique, hout⟩ :=
    verilog_exact n library "adder" d constants v hclean (by decide) hlibrary hv
  have hbits : bits = [true, true, true] := by
    rw [Netlist.eval_eq_settle hs.reads hv.binds hs.results] at heval
    rw [← Except.ok.inj heval]
    decide
  refine ⟨hclean, hlibrary, hv, m, hparse, hunique, ?_⟩
  intro ρ hρ
  have hy := hout ρ hρ
  rw [hbits] at hy
  exact ⟨hy 0, hy 1, hy 2, hy 3⟩

end RippleCarry
