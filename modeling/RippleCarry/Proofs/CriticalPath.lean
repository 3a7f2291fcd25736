import RippleCarry.Proofs.Budget
import RippleCarry.Proofs.Paths
/-!
# The critical path

Along a chain the carry comes later from stage to stage, and what the stages have to wait for besides it
is there from the start. `Ripple.Settles` says how long a stage takes: its sum is one gate after the later
of the two, and its carry so many gates after its sum. From it `Ripple.chain_depths` gives the depth of every
sum bit. The inverters of a subtraction count once, at the lowest position; after that they are done before
the carry arrives.

`synthesized_depth`: the depth of each result bit of a descriptor and its deepest path are those of its
operation and its width.
-/

namespace RippleCarry

/-! ## Closed forms -/

namespace OpKind

/-- The number of gates on a longest path to the result bit at a position. -/
def depthAt (position : Nat) : OpKind → Nat
  | add => max 1 (2 * position)
  | subtract => 2 * position + 3
  | increment => position + 1

/-- The number of gates on a longest path to a result of so many bits. -/
def deepestPath (width : Nat) : OpKind → Nat
  | add => max 1 (2 * (width - 1))
  | subtract => 2 * width + 1
  | increment => width

theorem depthAt_mono (kind : OpKind) : Monotone fun position => kind.depthAt position := by
  intro i j hij
  cases kind <;> simp only [depthAt] <;> omega

/-- The top bit is the deepest one. -/
theorem depthAt_top (kind : OpKind) {width : Nat} (hw : 0 < width) :
    kind.depthAt (width - 1) = kind.deepestPath width := by
  cases kind <;> simp only [depthAt, deepestPath] <;> omega

end OpKind

/-! ## Depths of gates -/

namespace Depths

variable {m : Depths}

theorem deepest_le {l : List Signal} {k : Nat} (h : ∀ s ∈ l, m.of s ≤ k) : m.deepest l ≤ k := by
  rcases Nat.eq_zero_or_pos (m.deepest l) with hzero | hpos
  · omega
  · obtain ⟨s, hs, hget⟩ := exists_deepest hpos
    rw [← of_eq hget]
    exact h s hs

/-- Of depths that rise from signal to signal the last is the greatest. -/
theorem deepest_of_rising {l : List Signal} {f : Nat → Nat} {width : Nat} (hf : Monotone f) (hw : 0 < width)
    (h : l.map m.of = (List.range width).map f) : m.deepest l = f (width - 1) := by
  apply Nat.le_antisymm
  · apply deepest_le
    intro s hs
    have hmem : m.of s ∈ (List.range width).map f := h ▸ List.mem_map_of_mem hs
    obtain ⟨i, hi, he⟩ := List.mem_map.1 hmem
    rw [← he]
    exact hf (Nat.le_sub_one_of_lt (List.mem_range.1 hi))
  · have hmem : f (width - 1) ∈ l.map m.of := by
      rw [h]
      exact List.mem_map_of_mem (List.mem_range.2 (Nat.sub_one_lt_of_lt hw))
    obtain ⟨s, hs, he⟩ := List.mem_map.1 hmem
    rw [← he]
    exact le_deepest hs

end Depths

/-- At every gate the outputs are one deeper than the deepest input. -/
def DepthsHold (m : Depths) (gates : List Gate) : Prop := ∀ g ∈ gates, g.DepthHolds m

section Gates

variable {m : Depths}

theorem depthsHold_append {gates more : List Gate} :
    DepthsHold m (gates ++ more) ↔ DepthsHold m gates ∧ DepthsHold m more :=
  List.forall_mem_append

theorem depth_halfAdder {a b sum carry : Signal} (h : (Gate.halfAdder a b sum carry).DepthHolds m) :
    m.of sum = 1 + max (m.of a) (m.of b) ∧ m.of carry = 1 + max (m.of a) (m.of b) := by
  have hin : m.deepest (Gate.halfAdder a b sum carry).inputs = max (m.of a) (m.of b) := by
    simp [Gate.inputs, Depths.deepest]
  rw [← hin]
  exact ⟨Depths.of_eq (h sum (by simp [Gate.outputs])), Depths.of_eq (h carry (by simp [Gate.outputs]))⟩

theorem depth_or2 {a b out : Signal} (h : (Gate.or2 a b out).DepthHolds m) :
    m.of out = 1 + max (m.of a) (m.of b) := by
  have hin : m.deepest (Gate.or2 a b out).inputs = max (m.of a) (m.of b) := by
    simp [Gate.inputs, Depths.deepest]
  rw [← hin]
  exact Depths.of_eq (h out (by simp [Gate.outputs]))

theorem depth_not {a out : Signal} (h : (Gate.not a out).DepthHolds m) : m.of out = 1 + m.of a := by
  have hin : m.deepest (Gate.not a out).inputs = m.of a := by
    simp [Gate.inputs, Depths.deepest]
  rw [← hin]
  exact Depths.of_eq (h out (by simp [Gate.outputs]))

/-- The sum of a full adder waits for its first half adder and for the carry. The OR waits for the second
half adder alone, which is the later of the two. -/
theorem Emit.fullAdder_depth {a b carry : Signal} {alloc : Allocator}
    (h : DepthsHold m (fullAdder a b carry alloc).gates) :
    m.of (fullAdder a b carry alloc).value.sum = 1 + max (1 + max (m.of a) (m.of b)) (m.of carry) ∧
      m.of (fullAdder a b carry alloc).value.carry = m.of (fullAdder a b carry alloc).value.sum + 1 := by
  simp only [fullAdder, DepthsHold, bind_apply, halfAdder_apply, or2_apply, pure_apply, List.append_nil,
    List.cons_append, List.nil_append, List.forall_mem_cons] at h ⊢
  obtain ⟨hlow, hhigh, hor, -⟩ := h
  obtain ⟨hlowSum, hlowCarry⟩ := depth_halfAdder hlow
  obtain ⟨hhighSum, hhighCarry⟩ := depth_halfAdder hhigh
  have hout := depth_or2 hor
  omega

end Gates

/-! ## Depths along a chain -/

namespace Ripple

/-- How long a stage takes. The signals of its position, at depth 0, have gone through `start` gates when
they meet the carry; the sum is one gate on, and the next carry `lag` gates after the sum. -/
def Settles {α : Type} (stage : α → Signal → Emit Emit.SumCarry) (inputs : α → List Signal) (start lag : Nat) :
    Prop :=
  ∀ (m : Depths) (p : α) (carry : Signal) (alloc : Allocator), DepthsHold m (stage p carry alloc).gates →
    (∀ s ∈ inputs p, m.of s = 0) →
    m.of (stage p carry alloc).value.sum = 1 + max start (m.of carry) ∧
      m.of (stage p carry alloc).value.carry = m.of (stage p carry alloc).value.sum + lag

theorem addStage_settles : Settles addStage (fun p => [p.1, p.2]) 1 1 := by
  intro m p carry alloc h hin
  obtain ⟨hsum, hcarry⟩ := Emit.fullAdder_depth h
  rw [hin p.1 (by simp), hin p.2 (by simp)] at hsum
  exact ⟨hsum, hcarry⟩

theorem subtractStage_settles : Settles subtractStage (fun p => [p.1, p.2]) 2 1 := by
  intro m p carry alloc h hin
  rw [subtractStage, Emit.bind_apply, depthsHold_append] at h
  have hinv : m.of ⟨alloc.next⟩ = 1 + m.of p.2 := depth_not (h.1 _ List.mem_cons_self)
  obtain ⟨hsum, hcarry⟩ := Emit.fullAdder_depth h.2
  rw [Emit.inverter_apply, hinv, hin p.1 (by simp), hin p.2 (by simp)] at hsum
  exact ⟨hsum, hcarry⟩

theorem incrementStage_settles : Settles incrementStage (fun p => [p]) 0 0 := by
  intro m p carry alloc h hin
  rw [incrementStage, Emit.halfAdder_apply] at h ⊢
  obtain ⟨hsum, hcarry⟩ := depth_halfAdder (h _ List.mem_cons_self)
  rw [hin p (by simp)] at hsum hcarry
  exact ⟨hsum, hcarry.trans hsum.symm⟩

/-- From stage to stage a sum is one gate and the lag deeper. -/
theorem chain_depths {α : Type} {stage : α → Signal → Emit Emit.SumCarry} {inputs : α → List Signal}
    {start lag : Nat} {m : Depths} (h : Settles stage inputs start lag) (carry : Signal) (positions : List α)
    (alloc : Allocator) (hm : DepthsHold m (chain stage carry positions alloc).gates)
    (hin : ∀ s ∈ positions.flatMap inputs, m.of s = 0) :
    (chain stage carry positions alloc).value.map (m.of ·.sum) =
      (List.range positions.length).map fun i => 1 + max start (m.of carry) + i * (1 + lag) := by
  induction positions generalizing carry alloc with
  | nil => rfl
  | cons p rest ih =>
    rw [chain_cons] at hm ⊢
    obtain ⟨hfirst, hmore⟩ := depthsHold_append.1 hm
    rw [List.flatMap_cons, List.forall_mem_append] at hin
    obtain ⟨hsum, hcarry⟩ := h m p carry alloc hfirst hin.1
    -- Past the first stage the carry is later than anything else a stage waits for.
    have hlate : max start (m.of (stage p carry alloc).value.carry) = 1 + max start (m.of carry) + lag := by
      omega
    rw [List.length_cons, List.range_succ_eq_map, List.map_cons, List.map_cons, List.map_map, ih _ _ hmore hin.2,
      hlate, hsum]
    congr 1
    · omega
    · refine List.map_congr_left fun i _ => ?_
      simp only [Function.comp_apply, Nat.succ_mul]
      omega

/-- With its inputs at depth 0, the sum bits of a ripple have the depths of its operation. -/
theorem stages_depths (r : Ripple) {m : Depths} (alloc : Allocator) (hm : DepthsHold m (r.stages alloc).gates)
    (hin : ∀ s ∈ r.inputs, m.of s = 0) :
    (r.stages alloc).value.map (m.of ·.sum) = (List.range r.width).map fun i => r.kind.depthAt i := by
  cases r with
  | add positions =>
    cases positions with
    | nil => rfl
    | cons p rest =>
      -- The half adder at position 0 has both of its outputs at depth 1.
      rw [stages, Emit.bind_apply, Emit.map_apply, Emit.halfAdder_apply] at hm ⊢
      obtain ⟨hfirst, hmore⟩ := depthsHold_append.1 hm
      rw [inputs, List.flatMap_cons, List.forall_mem_append] at hin
      obtain ⟨hsum, hcarry⟩ := depth_halfAdder (hfirst _ List.mem_cons_self)
      rw [hin.1 p.1 (by simp), hin.1 p.2 (by simp)] at hsum hcarry
      rw [width, List.length_cons, List.range_succ_eq_map, List.map_cons, List.map_cons, List.map_map,
        chain_depths addStage_settles _ rest _ hmore hin.2, hsum, hcarry]
      congr 1
      refine List.map_congr_left fun i _ => ?_
      simp only [Function.comp_apply, kind, OpKind.depthAt]
      omega
  | subtract one positions =>
    rw [inputs, List.forall_mem_cons] at hin
    rw [stages, chain_depths subtractStage_settles one positions alloc hm hin.2, hin.1]
    refine List.map_congr_left fun i _ => ?_
    simp only [kind, OpKind.depthAt]
    omega
  | increment seed positions =>
    rw [inputs, List.forall_mem_cons] at hin
    rw [stages, chain_depths incrementStage_settles seed positions alloc hm hin.2, hin.1]
    refine List.map_congr_left fun i _ => ?_
    simp only [kind, OpKind.depthAt]
    omega

end Ripple

/-! ## Netlists of descriptors -/

theorem Netlist.inOrder_of_clean {n : Netlist} {constants : Constants} {inputs : List Bus}
    (h : n.defects constants inputs = []) : n.InOrder constants inputs :=
  ⟨by simp [h], by simp [h]⟩

theorem Descriptor.synthesize_depths {d : Descriptor} {constants : Constants} {alloc after : Allocator} {n : Netlist}
    (h : (d.synthesize constants).run alloc = (.ok n, after)) (hclean : n.defectsFor constants d = []) :
    n.resultBits.map n.depths.of = (List.range d.resultWidth).map fun i => d.op.kind.depthAt i := by
  have horder : n.InOrder constants d.op.operands := Netlist.inOrder_of_clean hclean
  have hholds := horder.holds_depths
  obtain ⟨r, hr, rfl, -⟩ := synthesize_ok h
  -- A primary is not driven, and so it has depth 0.
  have hin : ∀ s ∈ r.inputs, (Netlist.depths ⟨(r.emit alloc).gates, (r.emit alloc).value⟩).of s = 0 := by
    intro s hs
    have hfree := fun hd => horder.sound.2.2 s hd (Operation.ripple_inputs hr hs)
    rw [Depths.of, Netlist.depths_undriven hfree]
    rfl
  have hdepths := r.stages_depths alloc hholds hin
  rw [Operation.ripple_kind hr, (Operation.ripple_computes hr).width_eq] at hdepths
  rw [← hdepths]
  exact List.map_map

/-- The depth of a clean netlist of a descriptor depends on its operation and its width alone. The result bit
at a position has the depth that the closed form gives, whatever the widths and the signedness of the operands
and however their signals coincide. The deepest path of the summary is that of the top bit: for an addition
twice the number of positions above the lowest, but at least 1; for a subtraction one more than twice the
width; for an increment the width. -/
theorem synthesized_depth (constants : Constants) (d : Descriptor) (alloc after : Allocator) (n : Netlist)
    (h : (d.synthesize constants).run alloc = (.ok n, after)) (hclean : n.defectsFor constants d = []) :
    0 < d.resultWidth ∧
    n.resultBits.map n.depths.of = (List.range d.resultWidth).map (fun i => d.op.kind.depthAt i) ∧
    n.summary.deepestPath = d.op.kind.deepestPath d.resultWidth := by
  have hw := (Descriptor.synthesize_width h).1
  have hdepths := Descriptor.synthesize_depths h hclean
  refine ⟨hw, hdepths, ?_⟩
  rw [← d.op.kind.depthAt_top hw]
  exact Depths.deepest_of_rising d.op.kind.depthAt_mono hw hdepths

/-- A difference of three bits, with one signal at every position of the first operand and at the sign of the
second, on an allocator three ids before the end. -/
theorem synthesized_depth_shared_bits :
    let constants : Constants := ⟨⟨20⟩, ⟨21⟩⟩
    let d : Descriptor := ⟨.subtract ⟨[⟨22⟩], true⟩ ⟨[⟨23⟩, ⟨22⟩, ⟨24⟩, ⟨25⟩], false⟩, 3⟩
    ∃ n after, (d.synthesize constants).run ⟨18446744073709551613⟩ = (.ok n, after) ∧
      n.defectsFor constants d = [] ∧ n.resultBits.map n.depths.of = [3, 5, 7] ∧ n.summary.deepestPath = 7 := by
  intro constants d
  obtain ⟨n, after, h, -⟩ := Descriptor.synthesize_exact constants d ⟨18446744073709551613⟩ (by decide) (by decide)
  have hclean : n.defectsFor constants d = [] := by
    cases h
    decide
  obtain ⟨-, hdepths, hdeepest⟩ := synthesized_depth constants d ⟨18446744073709551613⟩ after n h hclean
  exact ⟨n, after, h, hclean, hdepths, hdeepest⟩

end RippleCarry
