import RippleCarry.Proofs.Failures
/-!
# Outlines

An `Outline` is a netlist with slots in place of signals: the bits of the operands, the constants, and the
signals that its own gates produce, by number. The outline of a descriptor is read off its `Shape`, which has
the operation and the widths and nothing of the signals; it is given position by position (`Pattern`).

`Pattern.Draws` says that a stage, run with the signals of the slots, places the gates of the pattern at its
position. `Pattern.chain_drawn` carries that along a chain. `Descriptor.synthesize_outline`: the netlist of a
descriptor is the outline of its shape with the signals put in.
-/

namespace RippleCarry

/-! ## Slots and shapes -/

/-- What a pin of an outline is connected to. -/
inductive Slot where
  | first (bit : Nat)
  /-- A bit of the second operand, or of the literal. -/
  | second (bit : Nat)
  | zero
  | one
  /-- The signal that the outline's gates drive, by number. -/
  | produced (number : Nat)
deriving DecidableEq, Repr

inductive SlotGate where
  | halfAdder (a b sum carry : Slot)
  | or2 (a b out : Slot)
  | not (a out : Slot)
deriving DecidableEq, Repr

/-- A netlist on slots. -/
structure Outline where
  gates : List SlotGate
  resultBits : List Slot
deriving DecidableEq, Repr

namespace SlotGate

def inputs : SlotGate → List Slot
  | halfAdder a b _ _ => [a, b]
  | or2 a b _ => [a, b]
  | not a _ => [a]

def outputs : SlotGate → List Slot
  | halfAdder _ _ sum carry => [sum, carry]
  | or2 _ _ out => [out]
  | not _ out => [out]

/-- The gate with signals put into the slots. -/
def wire (signal : Slot → Signal) : SlotGate → Gate
  | halfAdder a b sum carry => .halfAdder (signal a) (signal b) (signal sum) (signal carry)
  | or2 a b out => .or2 (signal a) (signal b) (signal out)
  | not a out => .not (signal a) (signal out)

/-- A full adder whose outputs have the numbers from the given one on. Its sum has the third of them, its carry
the last. -/
def fullAdder (a b carry : Slot) (number : Nat) : List SlotGate :=
  [halfAdder a b (.produced number) (.produced (number + 1)),
    halfAdder (.produced number) carry (.produced (number + 2)) (.produced (number + 3)),
    or2 (.produced (number + 1)) (.produced (number + 3)) (.produced (number + 4))]

end SlotGate

namespace Outline

/-- The slots that the gates drive, in gate and pin order. -/
def driven (o : Outline) : List Slot := o.gates.flatMap SlotGate.outputs

/-- Every slot on a pin or in the result. -/
def slots (o : Outline) : List Slot := o.gates.flatMap (fun g => g.inputs ++ g.outputs) ++ o.resultBits

/-- The netlist with signals put into the slots. -/
def wire (signal : Slot → Signal) (o : Outline) : Netlist where
  gates := o.gates.map (·.wire signal)
  resultBits := o.resultBits.map signal

end Outline

structure BusShape where
  width : Nat
  signed : Bool
deriving DecidableEq, Repr

inductive OperationShape where
  | add (a b : BusShape)
  | subtract (a b : BusShape)
  | increment (a : BusShape) (literal : Option BusShape)
deriving DecidableEq, Repr

/-- All of a descriptor but its signals. -/
structure Shape where
  op : OperationShape
  resultWidth : Nat
deriving DecidableEq, Repr

def Bus.shape (bus : Bus) : BusShape := ⟨bus.width, bus.signed⟩

def Operation.shape : Operation → OperationShape
  | add a b => .add a.shape b.shape
  | subtract a b => .subtract a.shape b.shape
  | increment a literal => .increment a.shape (literal.map Bus.shape)

def Descriptor.shape (d : Descriptor) : Shape := ⟨d.op.shape, d.resultWidth⟩

/-- The slot at a position of an operand, extended past its width. -/
def BusShape.slotAt (bit : Nat → Slot) (bus : BusShape) (position : Nat) : Slot :=
  if position < bus.width then bit position
  else if bus.signed then bit (bus.width - 1)
  else .zero

/-! ## Patterns -/

/-- A row of stages on slots, by position. -/
structure Pattern where
  gates : Nat → List SlotGate
  sum : Nat → Slot
  /-- The carry into a position. -/
  carry : Nat → Slot
  /-- The number of signals that the gates below a position produce. -/
  below : Nat → Nat

namespace Pattern

/-- The stages at the first positions. -/
def outline (p : Pattern) (width : Nat) : Outline where
  gates := (List.range width).flatMap p.gates
  resultBits := (List.range width).map p.sum

/-- The given slot below position 0; after that every `step`-th signal, from the given number on. -/
def carryInto (start : Slot) (step number : Nat) : Nat → Slot
  | 0 => start
  | i + 1 => .produced (step * i + number)

def add (a b : Nat → Slot) : Pattern where
  gates
    | 0 => [.halfAdder (a 0) (b 0) (.produced 0) (.produced 1)]
    | i + 1 => SlotGate.fullAdder (a (i + 1)) (b (i + 1)) (.produced (5 * i + 1)) (5 * i + 2)
  sum
    | 0 => .produced 0
    | i + 1 => .produced (5 * i + 4)
  carry := carryInto .zero 5 1
  below
    | 0 => 0
    | i + 1 => 5 * i + 2

def subtract (a b : Nat → Slot) : Pattern where
  gates i :=
    .not (b i) (.produced (6 * i)) ::
      SlotGate.fullAdder (a i) (.produced (6 * i)) (carryInto .one 6 5 i) (6 * i + 1)
  sum i := .produced (6 * i + 3)
  carry := carryInto .one 6 5
  below i := 6 * i

def increment (seed : Slot) (a : Nat → Slot) : Pattern where
  gates i := [.halfAdder (a i) (carryInto seed 2 1 i) (.produced (2 * i)) (.produced (2 * i + 1))]
  sum i := .produced (2 * i)
  carry := carryInto seed 2 1
  below i := 2 * i

end Pattern

namespace OperationShape

def first : OperationShape → BusShape
  | add a _ => a
  | subtract a _ => a
  | increment a _ => a

def second : OperationShape → Option BusShape
  | add _ b => some b
  | subtract _ b => some b
  | increment _ literal => literal

def operands (op : OperationShape) : List BusShape := op.first :: op.second.toList

/-- The slots for the constants and the operands. -/
def primaries (op : OperationShape) : List Slot :=
  .zero :: .one :: ((List.range op.first.width).map .first ++
    (List.range (op.second.elim 0 BusShape.width)).map .second)

def pattern : OperationShape → Pattern
  | add a b => .add (a.slotAt .first) (b.slotAt .second)
  | subtract a b => .subtract (a.slotAt .first) (b.slotAt .second)
  | increment a literal => .increment (literal.elim .one fun _ => .second 0) (a.slotAt .first)

end OperationShape

namespace Shape

/-- The number of signals that the gates produce. -/
def size (shape : Shape) : Nat := shape.op.pattern.below shape.resultWidth

/-- The slots there are for the shape. -/
def slots (shape : Shape) : List Slot := shape.op.primaries ++ (List.range shape.size).map .produced

/-- The outline of every descriptor of the shape, if it has one. -/
def outline (shape : Shape) : Except SynthesisError Outline :=
  if shape.resultWidth = 0 then .error .emptyResult
  else if ∃ bus ∈ shape.op.operands, bus.width = 0 then .error (.emptyBus 0)
  else .ok (shape.op.pattern.outline shape.resultWidth)

end Shape

/-- The signal that the allocator hands out after `number` others. -/
def Allocator.signal (alloc : Allocator) (number : Nat) : Signal := ⟨alloc.next + UInt64.ofNat number⟩

/-- The signals of a descriptor by slot. The slots that its shape does not have are of no matter. -/
def Descriptor.signalIn (d : Descriptor) (constants : Constants) (alloc : Allocator) : Slot → Signal
  | .first i => d.op.first.bits.getD i constants.zero
  | .second i => (d.op.second.elim [] Bus.bits).getD i constants.zero
  | .zero => constants.zero
  | .one => constants.one
  | .produced j => alloc.signal j

/-! ## Stages and patterns -/

namespace Allocator

variable (alloc : Allocator) (k : Nat)

theorem skip_next : (⟨(alloc.skip k).next + 1⟩ : Allocator) = alloc.skip (k + 1) := by
  rw [skip, skip, UInt64.ofNat_add, ← UInt64.add_assoc]
  rfl

theorem signal_next : (⟨(alloc.skip k).next + 1⟩ : Signal) = alloc.signal (k + 1) :=
  congrArg (fun a : Allocator => (⟨a.next⟩ : Signal)) (alloc.skip_next k)

end Allocator

namespace Emit

variable {alloc : Allocator} {signal : Slot → Signal}

theorem halfAdder_skip (hs : ∀ j, signal (.produced j) = alloc.signal j) (a b : Slot) (k : Nat) :
    halfAdder (signal a) (signal b) (alloc.skip k) =
      ⟨⟨signal (.produced k), signal (.produced (k + 1))⟩,
        [(SlotGate.halfAdder a b (.produced k) (.produced (k + 1))).wire signal], alloc.skip (k + 2)⟩ := by
  rw [halfAdder_apply, SlotGate.wire, hs, hs, alloc.signal_next, ← alloc.skip_next (k + 1), ← alloc.skip_next k]
  rfl

theorem or2_skip (hs : ∀ j, signal (.produced j) = alloc.signal j) (a b : Slot) (k : Nat) :
    or2 (signal a) (signal b) (alloc.skip k) =
      ⟨signal (.produced k), [(SlotGate.or2 a b (.produced k)).wire signal], alloc.skip (k + 1)⟩ := by
  rw [or2_apply, SlotGate.wire, hs, alloc.skip_next]
  rfl

theorem inverter_skip (hs : ∀ j, signal (.produced j) = alloc.signal j) (a : Slot) (k : Nat) :
    inverter (signal a) (alloc.skip k) =
      ⟨signal (.produced k), [(SlotGate.not a (.produced k)).wire signal], alloc.skip (k + 1)⟩ := by
  rw [inverter_apply, SlotGate.wire, hs, alloc.skip_next]
  rfl

theorem fullAdder_skip (hs : ∀ j, signal (.produced j) = alloc.signal j) (a b carry : Slot) (k : Nat) :
    fullAdder (signal a) (signal b) (signal carry) (alloc.skip k) =
      ⟨⟨signal (.produced (k + 2)), signal (.produced (k + 4))⟩,
        (SlotGate.fullAdder a b carry k).map (·.wire signal), alloc.skip (k + 5)⟩ := by
  rw [fullAdder, bind_apply, halfAdder_skip hs, bind_apply, halfAdder_skip hs, bind_apply, or2_skip hs, pure_apply]
  rfl

end Emit

namespace Pattern

variable {p : Pattern} {signal : Slot → Signal} {alloc : Allocator} {stage : Nat → Signal → Emit Emit.SumCarry}

/-- At every position the stage places the gates of the pattern, and hands on the sum and the carry in its
slots. -/
def Draws (p : Pattern) (signal : Slot → Signal) (alloc : Allocator) (stage : Nat → Signal → Emit Emit.SumCarry) :
    Prop :=
  ∀ i, stage i (signal (p.carry i)) (alloc.skip (p.below i)) =
    ⟨⟨signal (p.sum i), signal (p.carry (i + 1))⟩, (p.gates i).map (·.wire signal), alloc.skip (p.below (i + 1))⟩

/-- A chain from a position on places the gates of the pattern from there on. -/
theorem chain_drawn (h : p.Draws signal alloc stage) (start width : Nat) :
    Ripple.chain stage (signal (p.carry start)) (List.range' start width) (alloc.skip (p.below start)) =
      ⟨(List.range' start width).map fun i => ⟨signal (p.sum i), signal (p.carry (i + 1))⟩,
        ((List.range' start width).flatMap p.gates).map (·.wire signal), alloc.skip (p.below (start + width))⟩ := by
  induction width generalizing start with
  | zero => rfl
  | succ width ih =>
    rw [List.range'_succ, Ripple.chain_cons, h start]
    simp only [ih (start + 1), List.map_cons, List.flatMap_cons, List.map_append]
    rw [Nat.add_right_comm, Nat.add_assoc]

theorem add_draws (hs : ∀ j, signal (.produced j) = alloc.signal j) (a b : Nat → Slot) :
    (add a b).Draws signal alloc fun i => Ripple.numberedAddStage i (signal (a i), signal (b i)) := by
  intro i
  cases i with
  | zero => exact Emit.halfAdder_skip hs (a 0) (b 0) 0
  | succ i => exact Emit.fullAdder_skip hs (a (i + 1)) (b (i + 1)) (.produced (5 * i + 1)) (5 * i + 2)

theorem subtract_draws (hs : ∀ j, signal (.produced j) = alloc.signal j) (a b : Nat → Slot) :
    (subtract a b).Draws signal alloc fun i => Ripple.subtractStage (signal (a i), signal (b i)) := by
  intro i
  show Ripple.subtractStage _ _ (alloc.skip (6 * i)) = _
  rw [Ripple.subtractStage, Emit.bind_apply, Emit.inverter_skip hs (b i), Emit.fullAdder_skip hs]
  rfl

theorem increment_draws (hs : ∀ j, signal (.produced j) = alloc.signal j) (seed : Slot) (a : Nat → Slot) :
    (increment seed a).Draws signal alloc fun i => Ripple.incrementStage (signal (a i)) := by
  intro i
  exact Emit.halfAdder_skip hs (a i) _ (2 * i)

end Pattern

/-! ## Descriptors and outlines -/

theorem Shape.outline_ok {shape : Shape} {o : Outline} (h : shape.outline = .ok o) :
    0 < shape.resultWidth ∧ (∀ bus ∈ shape.op.operands, bus.width ≠ 0) ∧
      o = shape.op.pattern.outline shape.resultWidth := by
  rw [outline] at h
  split at h
  · cases h
  · next hw =>
    split at h
    · cases h
    · next hb =>
      cases h
      exact ⟨Nat.pos_of_ne_zero hw, fun bus hm he => hb ⟨bus, hm, he⟩, rfl⟩

theorem Bus.signalAt_eq (bus : Bus) {constants : Constants} {signal : Slot → Signal} {bit : Nat → Slot}
    (hbit : ∀ i, signal (bit i) = bus.bits.getD i constants.zero) (hzero : signal .zero = constants.zero)
    (position : Nat) : bus.signalAt constants position = signal (bus.shape.slotAt bit position) := by
  unfold signalAt BusShape.slotAt
  by_cases hlt : position < bus.shape.width
  · have hget : bus.bits[position]? = some bus.bits[position] := List.getElem?_eq_getElem hlt
    rw [if_pos hlt, hbit, List.getD_eq_getElem?_getD, hget]
    rfl
  · rw [if_neg hlt, List.getElem?_eq_none (Nat.le_of_not_lt hlt), Option.getD_none, fill]
    show _ = signal (if bus.signed = true then bit (bus.bits.length - 1) else .zero)
    split
    · rw [hbit, List.getLastD_eq_getLast?, List.getLast?_eq_getElem?, List.getD_eq_getElem?_getD]
    · exact hzero.symm

/-- The signals of an operation are in their slots. -/
structure Operation.InSlots (op : Operation) (constants : Constants) (signal : Slot → Signal) : Prop where
  first : ∀ i, signal (.first i) = op.first.bits.getD i constants.zero
  second : ∀ bus ∈ op.second, ∀ i, signal (.second i) = bus.bits.getD i constants.zero
  zero : signal .zero = constants.zero
  one : signal .one = constants.one

namespace Operation

variable {op : Operation} {constants : Constants} {signal : Slot → Signal}

theorem InSlots.first_at (h : op.InSlots constants signal) (i : Nat) :
    op.first.signalAt constants i = signal (op.first.shape.slotAt .first i) :=
  op.first.signalAt_eq h.first h.zero i

theorem InSlots.second_at (h : op.InSlots constants signal) {bus : Bus} (hb : bus ∈ op.second) (i : Nat) :
    bus.signalAt constants i = signal (bus.shape.slotAt .second i) :=
  bus.signalAt_eq (h.second bus hb) h.zero i

theorem InSlots.seed {a : Bus} {literal : Option Bus} (h : (increment a literal).InSlots constants signal)
    (hl : ∀ bus ∈ literal, bus.bits ≠ []) :
    incrementSeed constants literal = .ok (signal (literal.elim .one fun _ => .second 0)) := by
  cases literal with
  | none => exact congrArg Except.ok h.one.symm
  | some bus =>
    have hb : bus.bits ≠ [] := hl bus rfl
    have hsignal : signal (.second 0) = bus.bits.getD 0 constants.zero := h.second bus rfl 0
    rw [incrementSeed, Bus.bit_eq hb, Option.elim_some, hsignal, List.getD_eq_getElem?_getD,
      List.getElem?_eq_getElem (List.length_pos_iff.2 hb)]
    rfl

/-- The stages of an operation, by number, draw the pattern of its shape. -/
theorem exists_stage {width : Nat} {alloc : Allocator} (h : op.InSlots constants signal)
    (hs : ∀ j, signal (.produced j) = alloc.signal j) (hw : 0 < width) (ho : ∀ bus ∈ op.operands, bus.bits ≠ []) :
    ∃ r stage, op.ripple constants width = .ok r ∧
      r.stages = Ripple.chain stage (signal (op.shape.pattern.carry 0)) (List.range width) ∧
      op.shape.pattern.Draws signal alloc stage := by
  have hfirst : op.first.bits ≠ [] := ho _ (by simp [operands])
  cases op with
  | add a b =>
    have ha : ∀ i, a.signalAt constants i = signal (a.shape.slotAt .first i) := h.first_at
    have hb : ∀ i, b.signalAt constants i = signal (b.shape.slotAt .second i) := h.second_at rfl
    refine ⟨_, _, Ripple.ofAdd_eq constants hw hfirst (ho b (by simp [operands, second])),
      Ripple.stages_add_eq _ _ hw, ?_⟩
    simp only [ha, hb]
    exact Pattern.add_draws hs (a.shape.slotAt .first) (b.shape.slotAt .second)
  | subtract a b =>
    have ha : ∀ i, a.signalAt constants i = signal (a.shape.slotAt .first i) := h.first_at
    have hb : ∀ i, b.signalAt constants i = signal (b.shape.slotAt .second i) := h.second_at rfl
    refine ⟨_, fun i => Ripple.subtractStage (a.signalAt constants i, b.signalAt constants i),
      Ripple.ofSubtract_eq constants hw hfirst (ho b (by simp [operands, second])), ?_, ?_⟩
    · rw [Ripple.stages, Ripple.chain_map, ← h.one]
      rfl
    · simp only [ha, hb]
      exact Pattern.subtract_draws hs (a.shape.slotAt .first) (b.shape.slotAt .second)
  | increment a literal =>
    have ha : ∀ i, a.signalAt constants i = signal (a.shape.slotAt .first i) := h.first_at
    have hseed := h.seed fun bus hb => ho bus (List.mem_cons_of_mem _ (Option.mem_toList.2 hb))
    refine ⟨.increment (signal (literal.elim .one fun _ => .second 0)) ((List.range width).map (a.signalAt constants)),
      fun i => Ripple.incrementStage (a.signalAt constants i), ?_, ?_, ?_⟩
    · rw [ripple, Ripple.requireWidth_pos hw, hseed]
      exact Ripple.ofIncrement_eq constants _ hw hfirst
    · rw [Ripple.stages, Ripple.chain_map]
      cases literal <;> rfl
    · simp only [ha]
      cases literal with
      | none => exact Pattern.increment_draws hs .one (a.shape.slotAt .first)
      | some literal => exact Pattern.increment_draws hs (.second 0) (a.shape.slotAt .first)

theorem operands_shape (op : Operation) : op.shape.operands = op.operands.map Bus.shape := by
  cases op with
  | add a b => rfl
  | subtract a b => rfl
  | increment a literal => cases literal <;> rfl

theorem exists_empty_iff (op : Operation) :
    (∃ bus ∈ op.shape.operands, bus.width = 0) ↔ ∃ bus ∈ op.operands, bus.bits = [] := by
  rw [operands_shape]
  simp only [List.mem_map, exists_exists_and_eq_and, Bus.shape, Bus.width, List.length_eq_zero_iff]

end Operation

namespace Descriptor

variable (d : Descriptor) (constants : Constants) (alloc : Allocator)

theorem inSlots : d.op.InSlots constants (d.signalIn constants alloc) where
  first _ := rfl
  second bus hb i := by
    rw [signalIn, Option.mem_def.1 hb]
    rfl
  zero := rfl
  one := rfl

theorem outline_eq_error_iff (e : SynthesisError) :
    d.shape.outline = .error e ↔ Refused d.resultWidth d.op.operands e := by
  have hempty := d.op.exists_empty_iff
  apply eq_error_iff_refused
  · intro hw
    exact if_pos hw
  · intro hw hb
    exact (if_neg (Nat.ne_of_gt hw)).trans (if_pos (hempty.2 hb))
  · intro hw hb
    have hfull : ¬ ∃ bus ∈ d.op.shape.operands, bus.width = 0 := by
      rw [hempty]
      rintro ⟨bus, hm, he⟩
      exact hb bus hm he
    exact ⟨_, (if_neg (Nat.ne_of_gt hw)).trans (if_neg hfull)⟩

variable {d} in
theorem outline_ok {o : Outline} (h : d.shape.outline = .ok o) :
    0 < d.resultWidth ∧ (∀ bus ∈ d.op.operands, bus.bits ≠ []) ∧ o = d.op.shape.pattern.outline d.resultWidth := by
  obtain ⟨hw, hb, ho⟩ := Shape.outline_ok h
  refine ⟨hw, fun bus hm he => ?_, ho⟩
  obtain ⟨shape, hshape, hempty⟩ := d.op.exists_empty_iff.2 ⟨bus, hm, he⟩
  exact hb shape hshape hempty

variable {d} in
/-- Where the shape has an outline, the netlist is that outline with the signals put in. -/
theorem synthesize_of_outline {o : Outline} (h : d.shape.outline = .ok o) :
    (d.synthesize constants).run alloc = (.ok (o.wire (d.signalIn constants alloc)), alloc.skip d.shape.size) := by
  obtain ⟨hw, ho, rfl⟩ := outline_ok h
  obtain ⟨r, stage, hr, hstages, hdraws⟩ :=
    Operation.exists_stage (d.inSlots constants alloc) (fun _ => rfl) hw ho
  have hbelow : d.op.shape.pattern.below 0 = 0 := by cases d.op <;> rfl
  have hchain := Pattern.chain_drawn hdraws 0 d.resultWidth
  rw [hbelow, Allocator.skip_zero, ← List.range_eq_range', ← hstages, Nat.zero_add] at hchain
  rw [synthesize_eq hr, Ripple.emit, Emit.map_apply, hchain, List.map_map, Outline.wire, Pattern.outline, List.map_map]
  rfl

theorem synthesize_outline : ((d.synthesize constants).run alloc).1 =
    d.shape.outline.map (·.wire (d.signalIn constants alloc)) := by
  cases h : d.shape.outline with
  | error e =>
    have hrefused := (d.outline_eq_error_iff e).1 h
    rw [(d.synthesize_error_iff constants alloc alloc e).2 ⟨hrefused, rfl⟩]
    rfl
  | ok o =>
    rw [synthesize_of_outline constants alloc h]
    rfl

variable {d constants alloc} in
theorem exists_outline {n : Netlist} {after : Allocator} (h : (d.synthesize constants).run alloc = (.ok n, after)) :
    ∃ o, d.shape.outline = .ok o ∧ n = o.wire (d.signalIn constants alloc) := by
  have houtline := d.synthesize_outline constants alloc
  rw [h] at houtline
  cases ho : d.shape.outline with
  | error e =>
    rw [ho] at houtline
    cases houtline
  | ok o =>
    rw [ho] at houtline
    exact ⟨o, rfl, Except.ok.inj houtline⟩

end Descriptor

end RippleCarry
