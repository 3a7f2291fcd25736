import RippleCarry.Proofs.Soundness
import RippleCarry.Proofs.VerilogText
import RippleCarry.Verilog.Nets
import Std.Data.String.ToNat
/-!
# The names of nets

The names that a netlist is written with change from gate to gate, but in a sound netlist no gate
drives a signal that already has a pin's name, so every signal goes by one name throughout
(`netOf`, `toVerilog_items`). `netNames_nodup`: no two nets share a name.
`toVerilog_legible`: with plain names for the module and the cells, its text can be read back.
-/

namespace RippleCarry

/-- The operands with the stems of their pins. -/
def Operation.namedOperands : Operation → List (String × Bus)
  | add a b | subtract a b => [("a", a), ("b", b)]
  | increment a (some literal) => [("a", a), ("lit", literal)]
  | increment a none => [("a", a)]

/-- Three different cell names that can be read. -/
structure CellLibrary.Plain (l : CellLibrary) : Prop where
  legible : ∀ x ∈ [l.halfAdder, l.or2, l.not], Verilog.isCellName x
  distinct : [l.halfAdder, l.or2, l.not].Nodup

instance (l : CellLibrary) : Decidable l.Plain :=
  decidable_of_iff
    ((∀ x ∈ [l.halfAdder, l.or2, l.not], Verilog.isCellName x) ∧ [l.halfAdder, l.or2, l.not].Nodup)
    ⟨fun ⟨hl, hd⟩ => ⟨hl, hd⟩, fun h => ⟨h.legible, h.distinct⟩⟩

theorem CellLibrary.nameOf_mem (l : CellLibrary) (kind : GateKind) :
    l.nameOf kind ∈ [l.halfAdder, l.or2, l.not] := by
  cases kind <;> simp [nameOf]

namespace Verilog

def Item.declares : Item → List String
  | wire net => [net]
  | _ => []

/-- The nets of a module: its pins and the wires it declares. -/
def Module.nets (m : Module) : List String := m.pins.map Pin.net ++ m.items.flatMap Item.declares

/-! ## Numbered names -/

theorem isNameChar_toString {n : Nat} {c : Char} (hc : c ∈ (toString n).toList) : isNameChar c := by
  have hdigit : c.isDigit := by
    apply Nat.isDigit_of_mem_toDigits (b := 10) (n := n) (by decide) (by decide)
    rw [← Nat.toList_repr]
    exact hc
  simp [isNameChar, hdigit]

theorem isIdentifier_append {x y : String} (hx : isIdentifier x) (hy : ∀ c ∈ y.toList, isNameChar c) :
    isIdentifier (x ++ y) := by
  unfold isIdentifier at hx ⊢
  rw [String.toList_append]
  cases htext : x.toList with
  | nil => simp [htext] at hx
  | cons c rest =>
    simp only [htext, Bool.and_eq_true, List.all_eq_true] at hx
    simp only [List.cons_append, Bool.and_eq_true, List.all_eq_true, List.mem_append]
    refine ⟨hx.1, ?_⟩
    intro d hd
    rcases hd with hd | hd
    · exact hx.2 d hd
    · exact hy d hd

theorem isIdentifier_pinName {stem : String} (hstem : isIdentifier stem) (i : Nat) :
    isIdentifier (pinName stem i) := by
  apply isIdentifier_append
  · apply isIdentifier_append hstem
    intro c hc
    rw [show "_".toList = ['_'] from rfl, List.mem_singleton] at hc
    rw [hc]
    rfl
  · exact fun _ => isNameChar_toString

theorem isIdentifier_name (s : Signal) : isIdentifier s.name :=
  isIdentifier_append (by decide) fun _ => isNameChar_toString

theorem pinName_inj {stem : String} {i j : Nat} : pinName stem i = pinName stem j ↔ i = j := by
  rw [pinName, pinName, String.append_right_inj]
  exact Nat.repr_inj

theorem name_inj {s t : Signal} : s.name = t.name ↔ s = t := by
  obtain ⟨i⟩ := s
  obtain ⟨j⟩ := t
  rw [Signal.name, Signal.name, String.append_right_inj]
  constructor
  · intro h
    exact congrArg Signal.mk (UInt64.toNat_inj.1 (Nat.repr_inj.1 h))
  · intro h
    rw [h]

/-- Names that start differently are different. -/
def initial (x : String) : Option Char := x.toList.head?

theorem initial_append {x : String} {c : Char} (h : initial x = some c) (y : String) :
    initial (x ++ y) = some c := by
  rw [initial, String.toList_append, List.head?_append]
  rw [initial] at h
  rw [h]
  rfl

theorem initial_pinName {stem : String} {c : Char} (h : initial stem = some c) (i : Nat) :
    initial (pinName stem i) = some c :=
  initial_append (initial_append h "_") _

theorem initial_name (s : Signal) : initial s.name = some 'n' := initial_append rfl _

theorem ne_of_initial {x y : String} {c d : Char} (hx : initial x = some c) (hy : initial y = some d)
    (h : c ≠ d) : x ≠ y := by
  rintro rfl
  exact h (Option.some.inj (hx.symm.trans hy))

/-! ## Input pins -/

theorem mem_busPins {stem pin : String} {bus : Bus} {s : Signal} :
    (pin, s) ∈ busPins stem bus ↔ ∃ i, bus.bits[i]? = some s ∧ pin = pinName stem i := by
  simp only [busPins, List.mem_map, Prod.exists, Prod.mk.injEq]
  constructor
  · rintro ⟨t, i, hmem, rfl, rfl⟩
    exact ⟨i, List.mem_zipIdx_iff_getElem?.1 hmem, rfl⟩
  · rintro ⟨i, hi, rfl⟩
    exact ⟨s, i, List.mem_zipIdx_iff_getElem?.2 hi, rfl, rfl⟩

theorem inputPins_eq (op : Operation) :
    inputPins op = op.namedOperands.flatMap fun o => busPins o.1 o.2 := by
  cases op with
  | add a b => simp [inputPins, Operation.namedOperands, Operation.first]
  | subtract a b => simp [inputPins, Operation.namedOperands, Operation.first]
  | increment a literal =>
    cases literal <;> simp [inputPins, Operation.namedOperands, Operation.first]

theorem map_snd_namedOperands (op : Operation) : op.namedOperands.map Prod.snd = op.operands := by
  cases op with
  | add a b => rfl
  | subtract a b => rfl
  | increment a literal => cases literal <;> rfl

theorem stem_mem {op : Operation} {o : String × Bus} (ho : o ∈ op.namedOperands) :
    o.1 ∈ ["a", "b", "lit"] := by
  have hstems : op.namedOperands.map Prod.fst ⊆ ["a", "b", "lit"] := by
    cases op with
    | add a b => simp [Operation.namedOperands]
    | subtract a b => simp [Operation.namedOperands]
    | increment a literal => cases literal <;> simp [Operation.namedOperands]
  exact hstems (List.mem_map_of_mem ho)

theorem mem_inputPins {op : Operation} {pin : String} {s : Signal} :
    (pin, s) ∈ inputPins op ↔
      ∃ o ∈ op.namedOperands, ∃ i, o.2.bits[i]? = some s ∧ pin = pinName o.1 i := by
  rw [inputPins_eq, List.mem_flatMap]
  simp only [mem_busPins]

theorem signal_mem_inputPins {op : Operation} {s : Signal} :
    s ∈ (inputPins op).map Prod.snd ↔ s ∈ op.operands.flatMap Bus.bits := by
  rw [← map_snd_namedOperands, List.flatMap_map, List.mem_flatMap]
  constructor
  · intro h
    obtain ⟨⟨pin, t⟩, hmem, rfl⟩ := List.mem_map.1 h
    obtain ⟨o, ho, i, hi, -⟩ := mem_inputPins.1 hmem
    exact ⟨o, ho, List.mem_of_getElem? hi⟩
  · rintro ⟨o, ho, hs⟩
    obtain ⟨i, hi⟩ := List.mem_iff_getElem?.1 hs
    exact List.mem_map.2 ⟨(pinName o.1 i, s), mem_inputPins.2 ⟨o, ho, i, hi, rfl⟩, rfl⟩

theorem initial_inputPin {op : Operation} {p : String × Signal} (hp : p ∈ inputPins op) :
    ∃ c ∈ ['a', 'b', 'l'], initial p.1 = some c := by
  obtain ⟨pin, s⟩ := p
  obtain ⟨o, ho, i, -, rfl⟩ := mem_inputPins.1 hp
  have hstem := stem_mem ho
  simp only [List.mem_cons, List.not_mem_nil, or_false] at hstem
  rcases hstem with h | h | h <;> rw [h]
  · exact ⟨'a', by simp, initial_pinName rfl i⟩
  · exact ⟨'b', by simp, initial_pinName rfl i⟩
  · exact ⟨'l', by simp, initial_pinName rfl i⟩

theorem inputPin_ne {op : Operation} {p : String × Signal} (hp : p ∈ inputPins op) {x : String} {c : Char}
    (hx : initial x = some c) (hc : c ∉ ['a', 'b', 'l']) : p.1 ≠ x := by
  obtain ⟨d, hd, hinitial⟩ := initial_inputPin hp
  refine ne_of_initial hinitial hx ?_
  rintro rfl
  exact hc hd

theorem map_fst_busPins (stem : String) (bus : Bus) :
    (busPins stem bus).map Prod.fst = (List.range bus.bits.length).map (pinName stem) := by
  rw [busPins, List.map_map, List.range_eq_range', ← List.zipIdx_map_snd, List.map_map]
  rfl

theorem numbered_nodup (stem : String) (count : Nat) :
    ((List.range count).map (pinName stem)).Nodup := by
  refine List.Pairwise.map _ ?_ List.nodup_range
  intro i j hij h
  exact hij (pinName_inj.1 h)

theorem inputPins_nodup (op : Operation) : ((inputPins op).map Prod.fst).Nodup := by
  -- Two operands have stems that start differently.
  have hpair (stem stem' : String) (a b : Bus) {c d : Char} (hc : initial stem = some c)
      (hd : initial stem' = some d) (hne : c ≠ d) :
      ((busPins stem a ++ busPins stem' b).map Prod.fst).Nodup := by
    rw [List.map_append, map_fst_busPins, map_fst_busPins, List.nodup_append]
    refine ⟨numbered_nodup _ _, numbered_nodup _ _, ?_⟩
    intro x hx y hy
    obtain ⟨i, -, rfl⟩ := List.mem_map.1 hx
    obtain ⟨j, -, rfl⟩ := List.mem_map.1 hy
    exact ne_of_initial (initial_pinName hc i) (initial_pinName hd j) hne
  cases op with
  | add a b => exact hpair "a" "b" a b rfl rfl (by decide)
  | subtract a b => exact hpair "a" "b" a b rfl rfl (by decide)
  | increment a literal =>
    cases literal with
    | some literal => exact hpair "a" "lit" a literal rfl rfl (by decide)
    | none =>
      show ((busPins "a" a ++ []).map Prod.fst).Nodup
      rw [List.append_nil, map_fst_busPins]
      exact numbered_nodup _ _

/-! ## One name for each signal -/

/-- The name that a signal goes by at the start. -/
def netOf (constants : Constants) (op : Operation) : Signal → String :=
  (inputNets constants (inputPins op)).of

theorem get?_firstPins (pins : List (String × Signal)) (nets : Nets) (s : Signal) :
    (pins.foldl (fun nets (pin, s) => nets.insertIfNew s pin) nets).get? s =
      (nets.get? s).or ((pins.find? fun p => p.2 = s).map Prod.fst) := by
  induction pins generalizing nets with
  | nil => simp
  | cons p pins ih =>
    obtain ⟨pin, t⟩ := p
    rw [List.foldl_cons, ih, SignalMap.get?_insertIfNew]
    by_cases h : t = s
    · subst h
      cases nets.get? t <;> simp
    · simp [h]

theorem netOf_eq (constants : Constants) (op : Operation) (s : Signal) :
    netOf constants op s =
      if s = constants.zero ∨ s = constants.one then s.name
      else (((inputPins op).find? fun p => p.2 = s).map Prod.fst).getD s.name := by
  rw [netOf, Nets.of, inputNets, get?_firstPins, SignalMap.get?_insert, SignalMap.get?_insert]
  by_cases hone : constants.one = s
  · simp [hone]
  · by_cases hzero : constants.zero = s
    · simp [hone, hzero]
    · simp [hone, hzero, Ne.symm hone, Ne.symm hzero]

theorem netOf_constant {constants : Constants} {op : Operation} {s : Signal}
    (hs : s = constants.zero ∨ s = constants.one) : netOf constants op s = s.name := by
  rw [netOf_eq, if_pos hs]

theorem netOf_input {constants : Constants} {op : Operation} {s : Signal}
    (hs : ¬ (s = constants.zero ∨ s = constants.one)) (hinput : s ∈ op.operands.flatMap Bus.bits) :
    (netOf constants op s, s) ∈ inputPins op := by
  rw [netOf_eq, if_neg hs]
  obtain ⟨⟨pin, t⟩, hmem, rfl⟩ := List.mem_map.1 (signal_mem_inputPins.2 hinput)
  cases hfind : (inputPins op).find? fun p => p.2 = t with
  | none => simpa using List.find?_eq_none.1 hfind _ hmem
  | some p =>
    have hp := List.find?_some hfind
    rw [decide_eq_true_eq] at hp
    have hin := List.mem_of_find?_eq_some hfind
    rw [← hp]
    exact hin

theorem netOf_other {constants : Constants} {op : Operation} {s : Signal}
    (hs : s ∉ primaries constants op.operands) : netOf constants op s = s.name := by
  simp only [primaries, List.mem_cons, not_or] at hs
  rw [netOf_eq, if_neg (by simp [hs.1, hs.2.1])]
  have hnone : ((inputPins op).find? fun p => p.2 = s) = none := by
    rw [List.find?_eq_none]
    intro p hp h
    rw [decide_eq_true_eq] at h
    exact hs.2.2 (signal_mem_inputPins.1 (List.mem_map.2 ⟨p, hp, h⟩))
  rw [hnone]
  rfl

theorem Nets.of_drive {nets : Nets} {g : Gate} (h : ∀ s ∈ g.outputs, nets.of s = s.name) :
    (nets.drive g).of = nets.of := by
  have hall (l : List Signal) (nets : Nets) (hl : ∀ s ∈ l, nets.of s = s.name) :
      Nets.of (nets.insertAll (l.map fun s => (s, s.name))) = nets.of := by
    induction l generalizing nets with
    | nil => rfl
    | cons t l ih =>
      have hstep : Nets.of (nets.insert t t.name) = nets.of := by
        funext s
        rw [Nets.of, SignalMap.get?_insert]
        split
        · next h => rw [← h, hl t (by simp)]; rfl
        · rfl
      rw [List.map_cons, ← hstep]
      apply ih
      intro s hs
      rw [hstep]
      exact hl s (by simp [hs])
  exact hall g.outputs nets h

theorem gateItems_congr {library : CellLibrary} {nets nets' : Nets} (h : nets'.of = nets.of)
    (index : Nat) (g : Gate) : gateItems library nets' index g = gateItems library nets index g := by
  rw [gateItems, gateItems, h]

/-- Gates that drive only signals under their own names are all written with the first names. -/
theorem gatesItems_eq (library : CellLibrary) {gates : List Gate} {nets : Nets} (index : Nat)
    (h : ∀ s ∈ drivenBy gates, nets.of s = s.name) :
    (gatesItems library nets index gates).1 =
        (gates.zipIdx index).flatMap (fun p => gateItems library nets p.2 p.1) ∧
      (gatesItems library nets index gates).2.of = nets.of := by
  induction gates generalizing nets index with
  | nil => exact ⟨rfl, rfl⟩
  | cons g rest ih =>
    have hof := Nets.of_drive fun s hs => h s (List.mem_append_left _ hs)
    have hrest : ∀ s ∈ drivenBy rest, (nets.drive g).of s = s.name := by
      intro s hs
      rw [hof]
      exact h s (List.mem_append_right _ hs)
    obtain ⟨hitems, hfinal⟩ := ih (index + 1) hrest
    constructor
    · show gateItems library (nets.drive g) index g ++ (gatesItems library (nets.drive g) (index + 1) rest).1 = _
      have hsame : (fun p : Gate × Nat => gateItems library (nets.drive g) p.2 p.1) =
          fun p => gateItems library nets p.2 p.1 := by
        funext p
        exact gateItems_congr hof p.2 p.1
      rw [hitems, hsame, gateItems_congr hof, List.zipIdx_cons, List.flatMap_cons]
    · show (gatesItems library (nets.drive g) (index + 1) rest).2.of = _
      rw [hfinal, hof]

/-! ## The module of a sound netlist -/

section Sound

variable {n : Netlist} {library : CellLibrary} {name : String} {d : Descriptor} {constants : Constants}

theorem netOf_wire {op : Operation} (hs : n.Sound (primaries constants op.operands)) {s : Signal}
    (hwire : s ∈ constants.zero :: constants.one :: n.driven) : netOf constants op s = s.name := by
  simp only [List.mem_cons, ← or_assoc] at hwire
  rcases hwire with hconstant | hdriven
  · exact netOf_constant hconstant
  · exact netOf_other (hs.undriven s hdriven)

theorem toVerilog_items (hs : n.Sound (primaries constants d.op.operands)) :
    (n.toVerilog library name d constants).items =
      constantItems constants ++
        n.gates.zipIdx.flatMap
          (fun p => gateItems library (inputNets constants (inputPins d.op)) p.2 p.1) ++
        resultItems (inputNets constants (inputPins d.op)) n.resultBits := by
  obtain ⟨hitems, hof⟩ := gatesItems_eq library 0 fun s hd =>
    netOf_wire hs (List.mem_cons_of_mem _ (List.mem_cons_of_mem _ hd))
  show constantItems constants ++ (gatesItems library _ 0 n.gates).1 ++
    resultItems (gatesItems library _ 0 n.gates).2 n.resultBits = _
  rw [hitems, resultItems, resultItems, hof]

theorem flatMap_fst_zipIdx {α β : Type} (f : α → List β) (l : List α) :
    l.zipIdx.flatMap (fun p => f p.1) = l.flatMap f := by
  have h := List.flatMap_map Prod.fst f (l := l.zipIdx)
  rw [List.zipIdx_map_fst] at h
  exact h.symm

theorem declares_gateItems (nets : Nets) (index : Nat) (g : Gate) :
    (gateItems library nets index g).flatMap Item.declares = g.outputs.map Signal.name := by
  have hwires (l : List Signal) :
      (l.map fun s => Item.wire s.name).flatMap Item.declares = l.map Signal.name := by
    induction l with
    | nil => rfl
    | cons s l ih => simpa [Item.declares] using ih
  rw [gateItems, List.flatMap_append, hwires]
  simp [Item.declares]

/-- The names of all nets: the input pins, the output pins, the constants and what the gates drive. -/
def netNames (n : Netlist) (op : Operation) (constants : Constants) : List String :=
  (inputPins op).map Prod.fst ++ (List.range n.resultBits.length).map (pinName "y") ++
    (constants.zero :: constants.one :: n.driven).map Signal.name

theorem nets_toVerilog (hs : n.Sound (primaries constants d.op.operands)) :
    (n.toVerilog library name d constants).nets = netNames n d.op constants := by
  have hpins : (n.toVerilog library name d constants).pins.map Pin.net =
      (inputPins d.op).map Prod.fst ++ (List.range n.resultBits.length).map (pinName "y") := by
    show ((inputPins d.op).map (fun p => Pin.mk .input p.1) ++
      n.resultBits.zipIdx.map (fun p => Pin.mk .output (pinName "y" p.2))).map Pin.net = _
    rw [List.map_append, List.map_map, List.map_map, List.range_eq_range', ← List.zipIdx_map_snd,
      List.map_map]
    rfl
  have hgates : (n.gates.zipIdx.flatMap fun p =>
      gateItems library (inputNets constants (inputPins d.op)) p.2 p.1).flatMap Item.declares =
        n.driven.map Signal.name := by
    rw [List.flatMap_assoc]
    simp only [declares_gateItems]
    rw [flatMap_fst_zipIdx fun g : Gate => g.outputs.map Signal.name, Netlist.driven, drivenBy,
      List.map_flatMap]
  have hresults : (resultItems (inputNets constants (inputPins d.op)) n.resultBits).flatMap
      Item.declares = [] := by
    rw [List.flatMap_eq_nil_iff]
    intro i hi
    obtain ⟨p, -, rfl⟩ := List.mem_map.1 hi
    rfl
  rw [Module.nets, hpins, toVerilog_items hs, List.flatMap_append, List.flatMap_append, hgates,
    hresults, List.append_nil]
  rfl

/-- No two nets share a name. -/
theorem netNames_nodup {op : Operation} (hs : n.Sound (primaries constants op.operands))
    (hconstants : constants.zero ≠ constants.one) : (netNames n op constants).Nodup := by
  have hsignals : (constants.zero :: constants.one :: n.driven).Nodup := by
    have hzero : constants.zero ∉ n.driven := fun h => hs.undriven _ h (by simp [primaries])
    have hone : constants.one ∉ n.driven := fun h => hs.undriven _ h (by simp [primaries])
    simp [hconstants, hzero, hone, hs.once]
  have hwires : ((constants.zero :: constants.one :: n.driven).map Signal.name).Nodup := by
    refine List.Pairwise.map _ ?_ hsignals
    intro s t hst h
    exact hst (name_inj.1 h)
  rw [netNames, List.nodup_append, List.nodup_append]
  refine ⟨⟨inputPins_nodup op, numbered_nodup _ _, ?_⟩, hwires, ?_⟩
  · intro x hx y hy
    obtain ⟨p, hp, rfl⟩ := List.mem_map.1 hx
    obtain ⟨j, -, rfl⟩ := List.mem_map.1 hy
    exact inputPin_ne (c := 'y') hp (initial_pinName rfl j) (by decide)
  · intro x hx y hy
    obtain ⟨s, -, rfl⟩ := List.mem_map.1 hy
    rcases List.mem_append.1 hx with hx | hx
    · obtain ⟨p, hp, rfl⟩ := List.mem_map.1 hx
      exact inputPin_ne hp (initial_name s) (by decide)
    · obtain ⟨i, -, rfl⟩ := List.mem_map.1 hx
      exact ne_of_initial (initial_pinName rfl i) (initial_name s) (by decide)

theorem isIdentifier_inputPin {op : Operation} {p : String × Signal} (hp : p ∈ inputPins op) :
    isIdentifier p.1 := by
  obtain ⟨pin, s⟩ := p
  obtain ⟨o, ho, i, -, rfl⟩ := mem_inputPins.1 hp
  have hstem := stem_mem ho
  simp only [List.mem_cons, List.not_mem_nil, or_false] at hstem
  rcases hstem with h | h | h <;> rw [h] <;> exact isIdentifier_pinName (by decide) i

theorem isIdentifier_netOf (constants : Constants) (op : Operation) (s : Signal) :
    isIdentifier (netOf constants op s) := by
  by_cases hconstant : s = constants.zero ∨ s = constants.one
  · rw [netOf_constant hconstant]
    exact isIdentifier_name s
  · by_cases hinput : s ∈ op.operands.flatMap Bus.bits
    · exact isIdentifier_inputPin (p := (netOf constants op s, s)) (netOf_input hconstant hinput)
    · rw [netOf_other (by simpa [primaries, not_or.1 hconstant] using hinput)]
      exact isIdentifier_name s

theorem isIdentifier_gatePin {g : Gate} {p : String × Signal} (hp : p ∈ g.pins) : isIdentifier p.1 := by
  have hkind (kind : GateKind) : ∀ x ∈ kind.inputPins ++ kind.outputPins, isIdentifier x := by
    cases kind <;> decide
  apply hkind g.kind
  rw [List.mem_append]
  rcases List.mem_append.1 hp with hp | hp
  · exact .inl (List.of_mem_zip hp).1
  · exact .inr (List.of_mem_zip hp).1

theorem gateItems_legible (hcells : ∀ kind, isCellName (library.nameOf kind)) (op : Operation) {index : Nat}
    {g : Gate} {i : Item} (hi : i ∈ gateItems library (inputNets constants (inputPins op)) index g) :
    i.Legible := by
  rw [gateItems, List.mem_append, List.mem_singleton, List.mem_map] at hi
  rcases hi with ⟨s, -, rfl⟩ | rfl
  · exact isIdentifier_name s
  · refine ⟨hcells g.kind, ?_, ?_⟩
    · exact isIdentifier_append (by decide) fun _ => isNameChar_toString
    · intro c hc
      obtain ⟨⟨pin, s⟩, hp, rfl⟩ := List.mem_map.1 hc
      exact ⟨isIdentifier_gatePin hp, isIdentifier_netOf constants op s⟩

/-- With plain names for the module and the cells, the text can be read back. -/
theorem legible_of_cells (hs : n.Sound (primaries constants d.op.operands)) (hname : isIdentifier name)
    (hcells : ∀ kind, isCellName (library.nameOf kind)) : (n.toVerilog library name d constants).Legible where
  name := hname
  pins p hp := by
    rcases List.mem_append.1 hp with hp | hp
    · obtain ⟨q, hq, rfl⟩ := List.mem_map.1 hp
      exact isIdentifier_inputPin hq
    · obtain ⟨⟨s, i⟩, -, rfl⟩ := List.mem_map.1 hp
      exact isIdentifier_pinName (by decide) i
  items i hi := by
    rw [toVerilog_items hs, List.mem_append, List.mem_append] at hi
    rcases hi with (hi | hi) | hi
    · simp only [constantItems, List.mem_cons, List.not_mem_nil, or_false] at hi
      rcases hi with rfl | rfl | rfl | rfl <;> exact isIdentifier_name _
    · obtain ⟨p, -, hi⟩ := List.mem_flatMap.1 hi
      exact gateItems_legible hcells d.op hi
    · obtain ⟨⟨s, k⟩, -, rfl⟩ := List.mem_map.1 hi
      exact ⟨isIdentifier_pinName (by decide) k, isIdentifier_netOf constants d.op s⟩

theorem toVerilog_legible (hs : n.Sound (primaries constants d.op.operands)) (hname : isIdentifier name)
    (hlibrary : library.Plain) : (n.toVerilog library name d constants).Legible :=
  legible_of_cells hs hname fun kind => hlibrary.legible _ (library.nameOf_mem kind)

end Sound

end Verilog

end RippleCarry
