import RippleCarry.Proofs.Outline
/-!
# Renaming signals

An outline has only slots that its shape has, and drives the produced ones in the order of their numbers
(`Pattern.Within`, `Shape.outline_within`). To put other signals into its slots is to rename the signals of the
netlist, as long as the renaming agrees with the slots (`Outline.rename_wire`).

`synthesis_oblivious`: no signal is ever compared with another one. Descriptors of one shape have the same
netlist but for the signals in its slots, and signals can be renamed before or after.
-/

namespace RippleCarry

/-! ## The slots of an outline -/

namespace Pattern

/-- The gates of a position read the given slots and what is produced by then, and produce the next signals in
order. -/
structure Within (p : Pattern) (known : Slot → Prop) : Prop where
  start : p.below 0 = 0
  drives : ∀ i, (List.range (p.below i)).map .produced ++ (p.gates i).flatMap SlotGate.outputs =
    (List.range (p.below (i + 1))).map .produced
  reads : ∀ i, ∀ g ∈ p.gates i, ∀ s ∈ g.inputs, known s ∨ ∃ j < p.below (i + 1), s = .produced j
  sums : ∀ i, ∃ j < p.below (i + 1), p.sum i = .produced j

variable {p : Pattern} {known : Slot → Prop}

theorem Within.driven (h : p.Within known) (width : Nat) :
    (p.outline width).driven = (List.range (p.below width)).map .produced := by
  induction width with
  | zero =>
    rw [h.start]
    rfl
  | succ width ih =>
    rw [← h.drives, ← ih]
    simp [Outline.driven, outline, List.range_succ]

theorem Within.below_le (h : p.Within known) {i width : Nat} (hi : i ≤ width) : p.below i ≤ p.below width := by
  induction hi with
  | refl => exact Nat.le_refl _
  | @step width _ ih =>
    have hlen := congrArg List.length (h.drives width)
    simp only [List.length_append, List.length_map, List.length_range] at hlen
    exact Nat.le_trans ih (Nat.le_of_add_right_le (Nat.le_of_eq hlen))

theorem Within.slots (h : p.Within known) {width : Nat} {s : Slot} (hs : s ∈ (p.outline width).slots) :
    known s ∨ ∃ j < p.below width, s = .produced j := by
  rw [Outline.slots, List.mem_append, List.mem_flatMap] at hs
  rcases hs with ⟨g, hg, hs⟩ | hs
  · rcases List.mem_append.1 hs with hs | hs
    · obtain ⟨i, hi, hg⟩ := List.mem_flatMap.1 hg
      refine (h.reads i g hg s hs).imp_right ?_
      rintro ⟨j, hj, rfl⟩
      exact ⟨j, Nat.lt_of_lt_of_le hj (h.below_le (List.mem_range.1 hi)), rfl⟩
    · have hdriven : s ∈ (p.outline width).driven := List.mem_flatMap.2 ⟨g, hg, hs⟩
      rw [h.driven, List.mem_map] at hdriven
      obtain ⟨j, hj, rfl⟩ := hdriven
      exact .inr ⟨j, List.mem_range.1 hj, rfl⟩
  · obtain ⟨i, hi, rfl⟩ := List.mem_map.1 hs
    obtain ⟨j, hj, hsum⟩ := h.sums i
    exact .inr ⟨j, Nat.lt_of_lt_of_le hj (h.below_le (List.mem_range.1 hi)), hsum⟩

/-- A slot that a full adder reads is one of those given, or one of its own. -/
theorem fullAdder_within {a b carry : Slot} {number limit : Nat} (hlimit : number + 5 ≤ limit)
    (h : ∀ s, s = a ∨ s = b ∨ s = carry → known s ∨ ∃ j < limit, s = .produced j) :
    ∀ g ∈ SlotGate.fullAdder a b carry number, ∀ s ∈ g.inputs, known s ∨ ∃ j < limit, s = .produced j := by
  intro g hg s hs
  simp only [SlotGate.fullAdder, List.mem_cons, List.not_mem_nil, or_false] at hg
  rcases hg with rfl | rfl | rfl <;>
    simp only [SlotGate.inputs, List.mem_cons, List.not_mem_nil, or_false] at hs <;> rcases hs with rfl | rfl
  · exact h _ (.inl rfl)
  · exact h _ (.inr (.inl rfl))
  · exact .inr ⟨number, by omega, rfl⟩
  · exact h _ (.inr (.inr rfl))
  · exact .inr ⟨number + 1, by omega, rfl⟩
  · exact .inr ⟨number + 3, by omega, rfl⟩

theorem carryInto_within {start : Slot} (hstart : known start) {step number : Nat} (hlt : number < step) (i : Nat) :
    known (carryInto start step number i) ∨ ∃ j < step * (i + 1), carryInto start step number i = .produced j := by
  cases i with
  | zero => exact .inl hstart
  | succ i => exact .inr ⟨step * i + number, by rw [Nat.mul_succ, Nat.mul_succ]; omega, rfl⟩

theorem add_within {a b : Nat → Slot} (ha : ∀ i, known (a i)) (hb : ∀ i, known (b i)) : (add a b).Within known where
  start := rfl
  drives i := by
    cases i with
    | zero => rfl
    | succ i => simp [add, SlotGate.fullAdder, SlotGate.outputs, Nat.mul_succ, List.range_succ]
  reads i := by
    cases i with
    | zero => simp [add, SlotGate.inputs, ha, hb]
    | succ i =>
      refine fullAdder_within (Nat.le_refl _) ?_
      rintro _ (rfl | rfl | rfl)
      · exact .inl (ha (i + 1))
      · exact .inl (hb (i + 1))
      · exact .inr ⟨5 * i + 1, show 5 * i + 1 < 5 * (i + 1) + 2 by omega, rfl⟩
  sums i := by
    cases i with
    | zero => exact ⟨0, Nat.two_pos, rfl⟩
    | succ i => exact ⟨5 * i + 4, show 5 * i + 4 < 5 * (i + 1) + 2 by omega, rfl⟩

theorem subtract_within {a b : Nat → Slot} (ha : ∀ i, known (a i)) (hb : ∀ i, known (b i)) (hone : known .one) :
    (subtract a b).Within known where
  start := rfl
  drives i := by simp [subtract, SlotGate.fullAdder, SlotGate.outputs, Nat.mul_succ, List.range_succ]
  reads i := by
    refine List.forall_mem_cons.2 ⟨fun s hs => ?_, fullAdder_within (Nat.le_refl _) ?_⟩
    · rw [List.mem_singleton.1 hs]
      exact .inl (hb i)
    · rintro _ (rfl | rfl | rfl)
      · exact .inl (ha i)
      · exact .inr ⟨6 * i, show 6 * i < 6 * (i + 1) by omega, rfl⟩
      · exact carryInto_within hone (by decide) i
  sums i := ⟨6 * i + 3, show 6 * i + 3 < 6 * (i + 1) by omega, rfl⟩

theorem increment_within {seed : Slot} {a : Nat → Slot} (hseed : known seed) (ha : ∀ i, known (a i)) :
    (increment seed a).Within known where
  start := rfl
  drives i := by simp [increment, SlotGate.outputs, Nat.mul_succ, List.range_succ]
  reads i := by
    refine List.forall_mem_singleton.2 fun s hs => ?_
    rcases List.mem_cons.1 hs with rfl | hs
    · exact .inl (ha i)
    · rw [List.mem_singleton.1 hs]
      exact carryInto_within hseed (by decide) i
  sums i := ⟨2 * i, show 2 * i < 2 * (i + 1) by omega, rfl⟩

end Pattern

namespace OperationShape

/-- Every position of an operand with bits has a slot of its bits, or that of the constant 0. -/
theorem slotAt_of {known : Slot → Prop} {bus : BusShape} {bit : Nat → Slot} (hbus : bus.width ≠ 0)
    (hbit : ∀ i < bus.width, known (bit i)) (hzero : known .zero) (position : Nat) :
    known (bus.slotAt bit position) := by
  unfold BusShape.slotAt
  split
  · exact hbit position ‹_›
  · split
    · exact hbit (bus.width - 1) (by omega)
    · exact hzero

theorem pattern_within {op : OperationShape} (h : ∀ bus ∈ op.operands, bus.width ≠ 0) :
    op.pattern.Within (· ∈ op.primaries) := by
  have hzero : .zero ∈ op.primaries := by simp [primaries]
  have hfirst : ∀ i, op.first.slotAt .first i ∈ op.primaries :=
    slotAt_of (h op.first (by simp [operands])) (fun i hi => by simp [primaries, hi]) hzero
  have hsecond : ∀ bus ∈ op.second, ∀ i, bus.slotAt .second i ∈ op.primaries := fun bus hb =>
    slotAt_of (h bus (List.mem_cons_of_mem _ (Option.mem_toList.2 hb)))
      (fun i hi => by simp [primaries, Option.mem_def.1 hb, hi]) hzero
  cases op with
  | add a b => exact Pattern.add_within hfirst (hsecond b rfl)
  | subtract a b => exact Pattern.subtract_within hfirst (hsecond b rfl) (by simp [primaries])
  | increment a literal =>
    refine Pattern.increment_within ?_ hfirst
    cases literal with
    | none => simp [primaries]
    | some bus =>
      have hpos : 0 < bus.width := Nat.pos_of_ne_zero (h bus (by simp [operands, second]))
      simp [primaries, second, hpos]

end OperationShape

theorem Shape.mem_slots {shape : Shape} {slot : Slot} :
    slot ∈ shape.slots ↔ slot ∈ shape.op.primaries ∨ ∃ j < shape.size, slot = .produced j := by
  simp [slots, eq_comm]

/-- An outline drives its produced slots in the order of their numbers, and has no slot that the shape does not
have. -/
theorem Shape.outline_within {shape : Shape} {o : Outline} (h : shape.outline = .ok o) :
    o.driven = (List.range shape.size).map .produced ∧ o.slots ⊆ shape.slots := by
  obtain ⟨-, hb, rfl⟩ := outline_ok h
  have hwithin := OperationShape.pattern_within hb
  exact ⟨hwithin.driven _, fun slot hs => mem_slots.2 (hwithin.slots hs)⟩

/-! ## Renaming -/

def Gate.rename (f : Signal → Signal) : Gate → Gate
  | halfAdder a b sum carry => halfAdder (f a) (f b) (f sum) (f carry)
  | or2 a b out => or2 (f a) (f b) (f out)
  | not a out => not (f a) (f out)

def Netlist.rename (f : Signal → Signal) (n : Netlist) : Netlist := ⟨n.gates.map (·.rename f), n.resultBits.map f⟩

def Constants.rename (f : Signal → Signal) (constants : Constants) : Constants := ⟨f constants.zero, f constants.one⟩

def Bus.rename (f : Signal → Signal) (bus : Bus) : Bus := ⟨bus.bits.map f, bus.signed⟩

def Operation.rename (f : Signal → Signal) : Operation → Operation
  | add a b => add (a.rename f) (b.rename f)
  | subtract a b => subtract (a.rename f) (b.rename f)
  | increment a literal => increment (a.rename f) (literal.map (·.rename f))

def Descriptor.rename (f : Signal → Signal) (d : Descriptor) : Descriptor := ⟨d.op.rename f, d.resultWidth⟩

/-- Renames the signals of the operands and the constants, and leaves what is produced. -/
def renamePrimaries (f : Signal → Signal) (signal : Slot → Signal) : Slot → Signal
  | .produced j => signal (.produced j)
  | slot => f (signal slot)

theorem Outline.rename_wire {o : Outline} {f : Signal → Signal} {signal signal' : Slot → Signal}
    (h : ∀ slot ∈ o.slots, f (signal slot) = signal' slot) : (o.wire signal).rename f = o.wire signal' := by
  have hgate : ∀ g ∈ o.gates, (g.wire signal).rename f = g.wire signal' := by
    intro g hg
    have hpins : ∀ slot ∈ g.inputs ++ g.outputs, f (signal slot) = signal' slot := fun slot hs =>
      h slot (List.mem_append_left _ (List.mem_flatMap.2 ⟨g, hg, hs⟩))
    cases g <;> simp_all [SlotGate.wire, SlotGate.inputs, SlotGate.outputs, Gate.rename]
  have hbit : ∀ slot ∈ o.resultBits, f (signal slot) = signal' slot := fun slot hs =>
    h slot (List.mem_append_right _ hs)
  rw [wire, wire, Netlist.rename, List.map_map, List.map_map]
  exact congr (congrArg Netlist.mk (List.map_congr_left hgate)) (List.map_congr_left hbit)

theorem Outline.driven_wire (o : Outline) (signal : Slot → Signal) : (o.wire signal).driven = o.driven.map signal := by
  have hgate : ∀ g : SlotGate, (g.wire signal).outputs = g.outputs.map signal := by
    intro g
    cases g <;> rfl
  simp [Netlist.driven, drivenBy, wire, driven, List.map_flatMap, List.flatMap_map, hgate]

theorem exists_renaming {slots : List Slot} {signal signal' : Slot → Signal}
    (h : ∀ s ∈ slots, ∀ t ∈ slots, signal s = signal t → signal' s = signal' t) :
    ∃ f : Signal → Signal, ∀ s ∈ slots, f (signal s) = signal' s := by
  classical
  refine ⟨fun x => if hx : ∃ s ∈ slots, signal s = x then signal' hx.choose else x, fun s hs => ?_⟩
  have hx : ∃ t ∈ slots, signal t = signal s := ⟨s, hs, rfl⟩
  exact (dif_pos hx).trans (h _ hx.choose_spec.1 s hs hx.choose_spec.2)

namespace Operation

variable (op : Operation) (f : Signal → Signal)

theorem first_rename : (op.rename f).first = op.first.rename f := by cases op <;> rfl

theorem second_rename : (op.rename f).second = op.second.map (·.rename f) := by cases op <;> rfl

theorem first_shape : op.shape.first = op.first.shape := by cases op <;> rfl

theorem second_shape : op.shape.second = op.second.map Bus.shape := by cases op <;> rfl

theorem shape_rename : (op.rename f).shape = op.shape := by
  have hbus : ∀ bus : Bus, (bus.rename f).shape = bus.shape := fun bus => by
    simp [Bus.rename, Bus.shape, Bus.width]
  cases op with
  | add a b => rw [rename, shape, shape, hbus, hbus]
  | subtract a b => rw [rename, shape, shape, hbus, hbus]
  | increment a literal =>
    rw [rename, shape, shape, hbus, Option.map_map]
    exact congrArg (fun g => OperationShape.increment a.shape (literal.map g)) (funext hbus)

end Operation

namespace Descriptor

variable (d : Descriptor) (constants : Constants) (alloc : Allocator)

theorem shape_rename (f : Signal → Signal) : (d.rename f).shape = d.shape :=
  congrArg (Shape.mk · d.resultWidth) (d.op.shape_rename f)

theorem signalIn_rename (f : Signal → Signal) :
    (d.rename f).signalIn (constants.rename f) alloc = renamePrimaries f (d.signalIn constants alloc) := by
  have hget : ∀ (l : List Signal) (i : Nat), (l.map f).getD i (f constants.zero) = f (l.getD i constants.zero) := by
    intro l i
    rw [List.getD_eq_getElem?_getD, List.getD_eq_getElem?_getD, List.getElem?_map, Option.getD_map]
  funext slot
  cases slot with
  | first i =>
    show (d.op.rename f).first.bits.getD i (f constants.zero) = _
    rw [d.op.first_rename]
    exact hget d.op.first.bits i
  | second i =>
    show ((d.op.rename f).second.elim [] Bus.bits).getD i (f constants.zero) = f ((d.op.second.elim [] Bus.bits).getD i _)
    rw [d.op.second_rename, ← hget]
    cases d.op.second <;> rfl
  | zero => rfl
  | one => rfl
  | produced j => rfl

theorem getD_mem_primaries {bus : Bus} (hb : bus ∈ d.op.operands) {i : Nat} (hi : i < bus.width) :
    bus.bits.getD i constants.zero ∈ primaries constants d.op.operands := by
  have hget : bus.bits.getD i constants.zero ∈ bus.bits := by
    rw [List.getD_eq_getElem?_getD, List.getElem?_eq_getElem hi]
    exact List.getElem_mem hi
  exact List.mem_cons_of_mem _ (List.mem_cons_of_mem _ (List.mem_flatMap.2 ⟨bus, hb, hget⟩))

/-- The slots for the constants and the operands hold primaries, and none of them is produced. -/
theorem signalIn_primary {slot : Slot} (h : slot ∈ d.op.shape.primaries) (f : Signal → Signal) :
    d.signalIn constants alloc slot ∈ primaries constants d.op.operands ∧
      renamePrimaries f (d.signalIn constants alloc) slot = f (d.signalIn constants alloc slot) := by
  simp only [OperationShape.primaries, d.op.first_shape, d.op.second_shape, List.mem_cons, List.mem_append, List.mem_map,
    List.mem_range] at h
  rcases h with rfl | rfl | ⟨i, hi, rfl⟩ | ⟨i, hi, rfl⟩
  · exact ⟨List.mem_cons_self, rfl⟩
  · exact ⟨List.mem_cons_of_mem _ List.mem_cons_self, rfl⟩
  · exact ⟨d.getD_mem_primaries constants (by simp [Operation.operands]) hi, rfl⟩
  · refine ⟨?_, rfl⟩
    cases hb : d.op.second with
    | none =>
      rw [hb] at hi
      exact absurd hi (Nat.not_lt_zero i)
    | some bus =>
      rw [hb] at hi
      rw [signalIn, hb]
      exact d.getD_mem_primaries constants (by simp [Operation.operands, hb]) hi

variable {d constants alloc} {n : Netlist} {after : Allocator}

/-- Descriptors of one shape have one outline. Where signals that coincide in the one coincide in the other, the
netlist of the other is a renaming. -/
theorem exists_rename {d' : Descriptor} {constants' : Constants} {alloc' after' : Allocator} {n' : Netlist}
    (h : (d.synthesize constants).run alloc = (.ok n, after))
    (h' : (d'.synthesize constants').run alloc' = (.ok n', after')) (hshape : d'.shape = d.shape) :
    (∃ o, d.shape.outline = .ok o ∧ n = o.wire (d.signalIn constants alloc) ∧
        n' = o.wire (d'.signalIn constants' alloc')) ∧
    ((∀ s ∈ d.shape.slots, ∀ t ∈ d.shape.slots, d.signalIn constants alloc s = d.signalIn constants alloc t →
        d'.signalIn constants' alloc' s = d'.signalIn constants' alloc' t) →
      ∃ f : Signal → Signal,
        (∀ s ∈ d.shape.slots, f (d.signalIn constants alloc s) = d'.signalIn constants' alloc' s) ∧ n' = n.rename f) := by
  obtain ⟨o, ho, rfl⟩ := exists_outline h
  obtain ⟨o', ho', rfl⟩ := exists_outline h'
  rw [hshape, ho] at ho'
  cases ho'
  refine ⟨⟨o, ho, rfl, rfl⟩, fun hsame => ?_⟩
  obtain ⟨f, hf⟩ := exists_renaming hsame
  exact ⟨f, hf, (Outline.rename_wire fun slot hs => hf slot ((Shape.outline_within ho).2 hs)).symm⟩

/-- Where no primary is driven, the primaries can be renamed in the netlist. -/
theorem synthesize_rename (h : (d.synthesize constants).run alloc = (.ok n, after))
    (hfree : ∀ s ∈ n.driven, s ∉ primaries constants d.op.operands) (f : Signal → Signal) :
    ((d.rename f).synthesize (constants.rename f)).run alloc =
      (.ok (n.rename fun s => if s ∈ n.driven then s else f s), after) := by
  obtain ⟨o, ho, hn⟩ := exists_outline h
  obtain ⟨hdriven, hslots⟩ := Shape.outline_within ho
  have hrenamed := synthesize_of_outline (d := d.rename f) (constants.rename f) alloc (d.shape_rename f ▸ ho)
  rw [synthesize_of_outline constants alloc ho] at h
  rw [hrenamed, d.signalIn_rename, d.shape_rename, ← (Prod.mk.inj h).2]
  have hsame : n.rename (fun s => if s ∈ n.driven then s else f s) =
      o.wire (renamePrimaries f (d.signalIn constants alloc)) := by
    rw [hn]
    refine Outline.rename_wire fun slot hs => ?_
    rw [← hn]
    rcases Shape.mem_slots.1 (hslots hs) with hprimary | ⟨j, hj, rfl⟩
    · obtain ⟨hmem, hslot⟩ := d.signalIn_primary constants alloc hprimary f
      rw [if_neg fun hd => hfree _ hd hmem, hslot]
    · have hmem : d.signalIn constants alloc (.produced j) ∈ n.driven := by
        rw [hn, Outline.driven_wire, hdriven, List.map_map]
        exact List.mem_map.2 ⟨j, List.mem_range.2 hj, rfl⟩
      rw [if_pos hmem]
      rfl
  rw [hsame]

end Descriptor

/-- Synthesis does not look at signals. The shape of a descriptor has one outline, or one error, for all
descriptors of the shape. It drives its produced slots in the order of their numbers, and its other slots are
those of operand bits that the shape has, and of the constants. The netlist is the outline with the signals put
in, the produced ones counting up from the allocator's next id and wrapping, whatever signals coincide.

So the netlists of two descriptors of one shape, on any two allocators, are one outline with different signals
in its slots; and where signals that coincide in the one coincide in the other, a renaming takes the one to
the other. To rename the operands and the constants before, by any map, is to rename what is in their slots
afterwards; and where no gate drives one of them, it is to rename in the netlist what no gate drives. -/
theorem synthesis_oblivious (d : Descriptor) (constants : Constants) (alloc : Allocator) :
    (∀ o, d.shape.outline = .ok o →
      o.driven = (List.range d.shape.size).map .produced ∧ o.slots ⊆ d.shape.slots) ∧
    ((d.synthesize constants).run alloc).1 = d.shape.outline.map (·.wire (d.signalIn constants alloc)) ∧
    (∀ (d' : Descriptor) (constants' : Constants) (alloc' : Allocator) n after n' after', d'.shape = d.shape →
      (d.synthesize constants).run alloc = (.ok n, after) →
      (d'.synthesize constants').run alloc' = (.ok n', after') →
      (∃ o, d.shape.outline = .ok o ∧ n = o.wire (d.signalIn constants alloc) ∧
        n' = o.wire (d'.signalIn constants' alloc')) ∧
      ((∀ s ∈ d.shape.slots, ∀ t ∈ d.shape.slots, d.signalIn constants alloc s = d.signalIn constants alloc t →
          d'.signalIn constants' alloc' s = d'.signalIn constants' alloc' t) →
        ∃ f : Signal → Signal,
          (∀ s ∈ d.shape.slots, f (d.signalIn constants alloc s) = d'.signalIn constants' alloc' s) ∧
            n' = n.rename f)) ∧
    ∀ f : Signal → Signal,
      (((d.rename f).synthesize (constants.rename f)).run alloc).1 =
        d.shape.outline.map (·.wire (renamePrimaries f (d.signalIn constants alloc))) ∧
      ∀ n after, (d.synthesize constants).run alloc = (.ok n, after) →
        (∀ s ∈ n.driven, s ∉ primaries constants d.op.operands) →
        ((d.rename f).synthesize (constants.rename f)).run alloc =
          (.ok (n.rename fun s => if s ∈ n.driven then s else f s), after) := by
  refine ⟨fun o ho => Shape.outline_within ho, d.synthesize_outline constants alloc, ?_, fun f => ⟨?_, ?_⟩⟩
  · intro d' constants' alloc' n after n' after' hshape h h'
    exact Descriptor.exists_rename h h' hshape
  · rw [Descriptor.synthesize_outline, d.shape_rename, d.signalIn_rename]
  · intro n after h hfree
    exact Descriptor.synthesize_rename h hfree f

/-- A difference of two bits with the lowest bits of its operands in common, and one of the same shape whose
operands are all one signal, the constant 0 included, on an allocator that wraps. The ids of the first halved,
before and after. -/
theorem synthesis_oblivious_shared_bits :
    let constants : Constants := ⟨⟨0⟩, ⟨1⟩⟩
    let d : Descriptor := ⟨.subtract ⟨[⟨2⟩, ⟨3⟩], true⟩ ⟨[⟨2⟩], false⟩, 2⟩
    let constants' : Constants := ⟨⟨7⟩, ⟨8⟩⟩
    let d' : Descriptor := ⟨.subtract ⟨[⟨7⟩, ⟨7⟩], true⟩ ⟨[⟨7⟩], false⟩, 2⟩
    let halve : Signal → Signal := fun s => ⟨s.id / 2⟩
    ∃ n after n' after', (d.synthesize constants).run ⟨4⟩ = (.ok n, after) ∧
      (d'.synthesize constants').run ⟨18446744073709551610⟩ = (.ok n', after') ∧ (∃ f, n' = n.rename f) ∧
      ((d.rename halve).synthesize (constants.rename halve)).run ⟨4⟩ =
        (.ok (n.rename fun s => if s ∈ n.driven then s else halve s), after) := by
  intro constants d constants' d' halve
  obtain ⟨n, after, h, -⟩ := Descriptor.synthesize_exact constants d ⟨4⟩ (by decide) (by decide)
  obtain ⟨n', after', h', -⟩ :=
    Descriptor.synthesize_exact constants' d' ⟨18446744073709551610⟩ (by decide) (by decide)
  obtain ⟨-, -, htwo, hrename⟩ := synthesis_oblivious d constants ⟨4⟩
  obtain ⟨f, -, hf⟩ := (htwo d' constants' ⟨18446744073709551610⟩ n after n' after' rfl h h').2 (by decide)
  have hfree : ∀ s ∈ n.driven, s ∉ primaries constants d.op.operands := by
    cases h
    decide
  exact ⟨n, after, n', after', h, h', ⟨f, hf⟩, (hrename halve).2 n after h hfree⟩

end RippleCarry
