import RippleCarry.Proofs.Failures
/-!
# What an operation costs

`Emit.Places` counts the gates of one kind that a step of construction places, whatever the ids it
works on. A chain places the gates of one stage as often as it has positions (`Ripple.chain_places`),
and an addition has a half adder in place of its first stage.

`synthesized_budget`: the gates of a descriptor, kind by kind, and the ids they take are those of its
operation and its width. Nothing else about the operands or the allocator counts.
-/

namespace RippleCarry

/-! ## Closed forms -/

namespace OpKind

/-- The number of gates of each kind in an operation. -/
def budget (width : Nat) : OpKind → GateKind → Nat
  | add, .halfAdder => 2 * width - 1
  | add, .or2 => width - 1
  | add, .not => 0
  | subtract, .halfAdder => 2 * width
  | subtract, .or2 => width
  | subtract, .not => width
  | increment, .halfAdder => width
  | increment, .or2 => 0
  | increment, .not => 0

/-- The number of signals that the gates of an operation drive. -/
def size (width : Nat) : OpKind → Nat
  | add => 5 * width - 3
  | subtract => 6 * width
  | increment => 2 * width

end OpKind

/-- The operation that a ripple is made for. -/
def Ripple.kind : Ripple → OpKind
  | add _ => .add
  | subtract .. => .subtract
  | increment .. => .increment

theorem Ripple.size_eq (r : Ripple) : r.size = r.kind.size r.width := by
  cases r <;> rfl

theorem Operation.ripple_kind {op : Operation} {constants : Constants} {width : Nat} {r : Ripple}
    (h : op.ripple constants width = .ok r) : r.kind = op.kind := by
  cases op with
  | add a b =>
    obtain ⟨-, as, bs, -, -, rfl⟩ := Ripple.ofAdd_ok h
    rfl
  | subtract a b =>
    obtain ⟨-, as, bs, -, -, rfl⟩ := Ripple.ofSubtract_ok h
    rfl
  | increment a literal =>
    obtain ⟨_, -, h⟩ := ok_of_bind h
    obtain ⟨seed, -, h⟩ := ok_of_bind h
    obtain ⟨-, as, -, rfl⟩ := Ripple.ofIncrement_ok h
    rfl

theorem Operation.ripple_size {op : Operation} {constants : Constants} {width : Nat} {r : Ripple}
    (h : op.ripple constants width = .ok r) : r.size = op.kind.size width := by
  rw [r.size_eq, ripple_kind h, (ripple_computes h).width_eq]

/-! ## Counting gates -/

namespace Emit

variable {α β : Type} {kind : GateKind}

/-- The step places so many gates of a kind. -/
def Places (step : Emit α) (kind : GateKind) (count : Nat) : Prop :=
  ∀ alloc, (step alloc).gates.countP (·.kind = kind) = count

theorem places_pure (a : α) (kind : GateKind) : (Pure.pure a : Emit α).Places kind 0 := fun _ => rfl

theorem Places.map {step : Emit α} {count : Nat} (h : step.Places kind count) (f : α → β) :
    (f <$> step).Places kind count := h

theorem Places.bind {first : Emit α} {rest : α → Emit β} {j k : Nat} (hf : first.Places kind j)
    (hr : ∀ a, (rest a).Places kind k) : (first >>= rest).Places kind (j + k) := by
  intro alloc
  rw [bind_apply, List.countP_append, hf alloc, hr _ _]

end Emit

namespace Ripple

theorem chain_places {α : Type} {stage : α → Signal → Emit Emit.SumCarry} {kind : GateKind} {count : Nat}
    (h : ∀ p carry, (stage p carry).Places kind count) (carry : Signal) (positions : List α) :
    (chain stage carry positions).Places kind (count * positions.length) := by
  induction positions generalizing carry with
  | nil => exact Emit.places_pure [] kind
  | cons p rest ih =>
    rw [List.length_cons, Nat.mul_succ, Nat.add_comm]
    exact (h p carry).bind fun out => (ih out.carry).map _

/-- The gates of one stage. -/
def stageGates : OpKind → GateKind → Nat
  | .add, .halfAdder => 2
  | .add, .or2 => 1
  | .add, .not => 0
  | .subtract, .halfAdder => 2
  | .subtract, .or2 => 1
  | .subtract, .not => 1
  | .increment, .halfAdder => 1
  | .increment, .or2 => 0
  | .increment, .not => 0

theorem addStage_places (kind : GateKind) (p : Signal × Signal) (carry : Signal) :
    (addStage p carry).Places kind (stageGates .add kind) := by
  intro alloc
  cases kind <;> rfl

theorem subtractStage_places (kind : GateKind) (p : Signal × Signal) (carry : Signal) :
    (subtractStage p carry).Places kind (stageGates .subtract kind) := by
  intro alloc
  cases kind <;> rfl

theorem incrementStage_places (kind : GateKind) (p carry : Signal) :
    (incrementStage p carry).Places kind (stageGates .increment kind) := by
  intro alloc
  cases kind <;> rfl

/-- The first stage of an addition is a half adder. -/
theorem budget_add (kind : GateKind) (width : Nat) :
    OpKind.add.budget (width + 1) kind = stageGates .increment kind + stageGates .add kind * width := by
  cases kind with
  | halfAdder =>
    show 2 * (width + 1) - 1 = 1 + 2 * width
    omega
  | or2 => simp [OpKind.budget, stageGates]
  | not => simp [OpKind.budget, stageGates]

theorem budget_subtract (kind : GateKind) (width : Nat) :
    OpKind.subtract.budget width kind = stageGates .subtract kind * width := by
  cases kind <;> simp [OpKind.budget, stageGates]

theorem budget_increment (kind : GateKind) (width : Nat) :
    OpKind.increment.budget width kind = stageGates .increment kind * width := by
  cases kind <;> simp [OpKind.budget, stageGates]

theorem stages_places (r : Ripple) (kind : GateKind) : r.stages.Places kind (r.kind.budget r.width kind) := by
  cases r with
  | add positions =>
    cases positions with
    | nil =>
      intro alloc
      cases kind <;> rfl
    | cons p rest =>
      show Emit.Places _ kind (OpKind.add.budget (rest.length + 1) kind)
      rw [budget_add]
      exact (incrementStage_places kind p.1 p.2).bind fun out =>
        (chain_places (addStage_places kind) out.carry rest).map _
  | subtract one positions =>
    show Emit.Places _ kind (OpKind.subtract.budget positions.length kind)
    rw [budget_subtract]
    exact chain_places (subtractStage_places kind) one positions
  | increment seed positions =>
    show Emit.Places _ kind (OpKind.increment.budget positions.length kind)
    rw [budget_increment]
    exact chain_places (incrementStage_places kind) seed positions

theorem emit_places (r : Ripple) (kind : GateKind) : r.emit.Places kind (r.kind.budget r.width kind) :=
  (r.stages_places kind).map _

end Ripple

/-! ## Netlists of descriptors -/

namespace Descriptor

variable {d : Descriptor} {constants : Constants} {alloc after : Allocator} {n : Netlist}

theorem synthesize_width (h : (d.synthesize constants).run alloc = (.ok n, after)) :
    0 < d.resultWidth ∧ n.resultBits.length = d.resultWidth := by
  obtain ⟨r, hr, rfl, -⟩ := synthesize_ok h
  refine ⟨(Operation.fits_of_ripple hr).1, ?_⟩
  rw [r.length_emit, (Operation.ripple_computes hr).width_eq]

theorem synthesize_count (h : (d.synthesize constants).run alloc = (.ok n, after)) (kind : GateKind) :
    n.count kind = d.op.kind.budget d.resultWidth kind := by
  obtain ⟨r, hr, rfl, -⟩ := synthesize_ok h
  rw [← Operation.ripple_kind hr, ← (Operation.ripple_computes hr).width_eq]
  exact r.emit_places kind alloc

theorem synthesize_size (h : (d.synthesize constants).run alloc = (.ok n, after)) :
    n.driven = alloc.block (d.op.kind.size d.resultWidth) := by
  obtain ⟨r, hr, rfl, -⟩ := synthesize_ok h
  rw [← Operation.ripple_size hr]
  exact (r.emit_takes alloc).1

theorem synthesize_next (h : (d.synthesize constants).run alloc = (.ok n, after)) :
    after.next.toNat = (alloc.next.toNat + d.op.kind.size d.resultWidth) % 2 ^ 64 := by
  rw [synthesize_after h, synthesize_size h, Allocator.length_block]
  exact Allocator.toNat_add_ofNat alloc.next _

end Descriptor

/-- What a descriptor costs depends on its operation and its width alone. Of each kind of gate there are as
many as the closed form says. The result has the width asked for, on signals of the netlist's own. The
signals driven, in gate and pin order, have the next ids of the allocator, without a gap and wrapping past
the largest, and the allocator goes on right after them. -/
theorem synthesized_budget (constants : Constants) (d : Descriptor) (alloc after : Allocator) (n : Netlist)
    (h : (d.synthesize constants).run alloc = (.ok n, after)) :
    0 < d.resultWidth ∧ (∀ kind, n.count kind = d.op.kind.budget d.resultWidth kind) ∧
    n.resultBits.length = d.resultWidth ∧ n.resultBits ⊆ n.driven ∧
    n.driven.map (·.id.toNat) =
      (List.range (d.op.kind.size d.resultWidth)).map (fun j => (alloc.next.toNat + j) % 2 ^ 64) ∧
    after.next.toNat = (alloc.next.toNat + d.op.kind.size d.resultWidth) % 2 ^ 64 := by
  obtain ⟨hw, hlen⟩ := Descriptor.synthesize_width h
  have hids := alloc.block_ids (d.op.kind.size d.resultWidth)
  rw [← Descriptor.synthesize_size h] at hids
  exact ⟨hw, Descriptor.synthesize_count h, hlen, Descriptor.synthesize_results h, hids, Descriptor.synthesize_next h⟩

/-- A difference of two bits, one operand longer than that and the other on the top bit of the first, on an
allocator three ids before the end. -/
theorem synthesized_budget_wrapped :
    let constants : Constants := ⟨⟨20⟩, ⟨21⟩⟩
    let d : Descriptor := ⟨.subtract ⟨[⟨22⟩, ⟨23⟩, ⟨24⟩], false⟩ ⟨[⟨24⟩], true⟩, 2⟩
    ∃ n after, (d.synthesize constants).run ⟨18446744073709551613⟩ = (.ok n, after) ∧
      n.count .halfAdder = 4 ∧ n.count .or2 = 2 ∧ n.count .not = 2 ∧ n.resultBits.length = 2 ∧
      n.driven.map (·.id.toNat) = [2 ^ 64 - 3, 2 ^ 64 - 2, 2 ^ 64 - 1, 0, 1, 2, 3, 4, 5, 6, 7, 8] ∧
      after.next.toNat = 9 := by
  intro constants d
  obtain ⟨n, after, h, -⟩ := Descriptor.synthesize_exact constants d ⟨18446744073709551613⟩ (by decide) (by decide)
  obtain ⟨-, hcount, hlen, -, hids, hnext⟩ := synthesized_budget constants d ⟨18446744073709551613⟩ after n h
  exact ⟨n, after, h, hcount .halfAdder, hcount .or2, hcount .not, hlen, hids.trans (by decide),
    hnext.trans (by decide)⟩

end RippleCarry
