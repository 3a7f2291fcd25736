import RippleCarry.Proofs.Stages
/-!
# The ids that construction takes

An allocator hands out consecutive ids. `Ripple.emit_takes`: the signals that the gates of a ripple
drive, in gate and pin order, are the next `Ripple.size` ids, and no other id is taken.
-/

namespace RippleCarry

namespace Allocator

/-- The next ids, in order. -/
def block (alloc : Allocator) : Nat → List Signal
  | 0 => []
  | count + 1 => ⟨alloc.next⟩ :: block ⟨alloc.next + 1⟩ count

/-- The allocator after some ids. -/
def skip (alloc : Allocator) (count : Nat) : Allocator := ⟨alloc.next + UInt64.ofNat count⟩

@[simp] theorem skip_zero (alloc : Allocator) : alloc.skip 0 = alloc := by
  simp [skip]

theorem skip_succ (alloc : Allocator) (count : Nat) :
    alloc.skip (count + 1) = (⟨alloc.next + 1⟩ : Allocator).skip count := by
  rw [skip, skip, UInt64.ofNat_add, UInt64.add_comm (UInt64.ofNat count), ← UInt64.add_assoc]
  rfl

theorem skip_skip (alloc : Allocator) (j k : Nat) : (alloc.skip j).skip k = alloc.skip (j + k) := by
  rw [skip, skip, skip, UInt64.ofNat_add, UInt64.add_assoc]

@[simp] theorem length_block (alloc : Allocator) (count : Nat) : (alloc.block count).length = count := by
  induction count generalizing alloc with
  | zero => rfl
  | succ count ih => rw [block, List.length_cons, ih]

theorem block_append (alloc : Allocator) (j k : Nat) :
    alloc.block (j + k) = alloc.block j ++ (alloc.skip j).block k := by
  induction j generalizing alloc with
  | zero => rw [Nat.zero_add, skip_zero, block, List.nil_append]
  | succ j ih => rw [Nat.succ_add, block, block, ih, skip_succ, List.cons_append]

end Allocator

namespace Emit

variable {α β : Type}

theorem freshList_apply (count : Nat) (alloc : Allocator) :
    freshList count alloc = ⟨alloc.block count, [], alloc.skip count⟩ := by
  induction count generalizing alloc with
  | zero => rw [Allocator.skip_zero]; rfl
  | succ count ih =>
    rw [freshList, bind_apply, map_apply, ih, Allocator.skip_succ]
    rfl

/-- The step takes the next `count` ids, and its gates drive them in order. -/
def Takes (step : Emit α) (count : Nat) : Prop :=
  ∀ alloc, drivenBy (step alloc).gates = alloc.block count ∧ (step alloc).allocator = alloc.skip count

theorem takes_pure (a : α) : (Pure.pure a : Emit α).Takes 0 := fun alloc =>
  ⟨rfl, alloc.skip_zero.symm⟩

theorem Takes.map {step : Emit α} {count : Nat} (h : step.Takes count) (f : α → β) :
    (f <$> step).Takes count := h

theorem Takes.bind {first : Emit α} {rest : α → Emit β} {j k : Nat} (hf : first.Takes j)
    (hr : ∀ a, (rest a).Takes k) : (first >>= rest).Takes (j + k) := by
  intro alloc
  obtain ⟨hd, ha⟩ := hf alloc
  obtain ⟨hd', ha'⟩ := hr (first alloc).value (first alloc).allocator
  rw [bind_apply, drivenBy_append, hd, hd', ha', ha, Allocator.block_append, Allocator.skip_skip]
  exact ⟨rfl, rfl⟩

theorem halfAdder_takes (a b : Signal) : (halfAdder a b).Takes 2 := fun alloc =>
  ⟨rfl, by rw [Allocator.skip_succ, Allocator.skip_succ, Allocator.skip_zero]; rfl⟩

theorem or2_takes (a b : Signal) : (or2 a b).Takes 1 := fun alloc =>
  ⟨rfl, by rw [Allocator.skip_succ, Allocator.skip_zero]; rfl⟩

theorem inverter_takes (a : Signal) : (inverter a).Takes 1 := fun alloc =>
  ⟨rfl, by rw [Allocator.skip_succ, Allocator.skip_zero]; rfl⟩

theorem fullAdder_takes (a b carry : Signal) : (fullAdder a b carry).Takes 5 :=
  (halfAdder_takes a b).bind fun low => (halfAdder_takes low.sum carry).bind fun high =>
    (or2_takes low.carry high.carry).bind fun _ => takes_pure _

end Emit

namespace Ripple

theorem chain_takes {α : Type} {stage : α → Signal → Emit Emit.SumCarry} {count : Nat}
    (h : ∀ p carry, (stage p carry).Takes count) (carry : Signal) (positions : List α) :
    (chain stage carry positions).Takes (count * positions.length) := by
  induction positions generalizing carry with
  | nil => exact Emit.takes_pure []
  | cons p rest ih =>
    rw [List.length_cons, Nat.mul_succ, Nat.add_comm]
    exact (h p carry).bind fun out => (ih out.carry).map _

theorem addStage_takes (p : Signal × Signal) (carry : Signal) : (addStage p carry).Takes 5 :=
  Emit.fullAdder_takes p.1 p.2 carry

theorem subtractStage_takes (p : Signal × Signal) (carry : Signal) : (subtractStage p carry).Takes 6 :=
  (Emit.inverter_takes p.2).bind fun inverse => Emit.fullAdder_takes p.1 inverse carry

theorem incrementStage_takes (p carry : Signal) : (incrementStage p carry).Takes 2 :=
  Emit.halfAdder_takes p carry

/-- The number of ids that a ripple takes. -/
def size : Ripple → Nat
  | add positions => 5 * positions.length - 3
  | subtract _ positions => 6 * positions.length
  | increment _ positions => 2 * positions.length

theorem stages_takes (r : Ripple) : r.stages.Takes r.size := by
  cases r with
  | add positions =>
    cases positions with
    | nil => exact Emit.takes_pure []
    | cons p rest =>
      have hsize : (add (p :: rest)).size = 2 + 5 * rest.length := by
        rw [size, List.length_cons]
        omega
      rw [hsize, stages]
      exact (Emit.halfAdder_takes p.1 p.2).bind fun out => (chain_takes addStage_takes out.carry rest).map _
  | subtract one positions => exact chain_takes subtractStage_takes one positions
  | increment seed positions => exact chain_takes incrementStage_takes seed positions

/-- The gates of a ripple drive the ids it takes, one each, and all of them. -/
theorem emit_takes (r : Ripple) : r.emit.Takes r.size :=
  r.stages_takes.map _

end Ripple
end RippleCarry
