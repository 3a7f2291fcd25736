import RippleCarry.Proofs.Budget
import RippleCarry.Proofs.Truncation
/-!
# Carries

The carry out of a position goes to the next one and shows nowhere else; the last one goes nowhere. A ripple cut
after a position is a ripple of its own, with that carry as its last, so what is known of the last carry is known
of every one (`Ripple.stages_upTo`).

`AddsAt` finds the sum and the carry of a position among the gates, as the outputs of a half adder or of a
`FullAdder`. `Operation.Balances` is the equation between the operands, the sum bits and the carry, as far as a
width. `carries_exact`: it holds at every width up to that of the result.
-/

namespace RippleCarry

/-! ## Adders among the gates -/

/-- The signals of a full adder: those of its two half adders, and the carry that comes of them. -/
structure FullAdder where
  a : Signal
  b : Signal
  carryIn : Signal
  low : Signal
  lowCarry : Signal
  sum : Signal
  highCarry : Signal
  carry : Signal
deriving DecidableEq, Repr

/-- A half adder for the two bits, one that adds the carry to their sum, and an OR for the two carries. -/
def FullAdder.gates (f : FullAdder) : List Gate :=
  [.halfAdder f.a f.b f.low f.lowCarry, .halfAdder f.low f.carryIn f.sum f.highCarry,
    .or2 f.lowCarry f.highCarry f.carry]

/-- Whether a position of the operation has a half adder alone: the lowest of an addition, which has no carry to
add, and all of an increment, which has one bit and the carry. -/
def OpKind.halfAt (position : Nat) : OpKind → Bool
  | add => position == 0
  | subtract => false
  | increment => true

/-- The gates have a half adder, or else a full adder, with the given sum and carry. -/
def AddsAt (gates : List Gate) (half : Bool) (out : Emit.SumCarry) : Prop :=
  if half then ∃ a b, Gate.halfAdder a b out.sum out.carry ∈ gates
  else ∃ f : FullAdder, f.gates <:+: gates ∧ f.sum = out.sum ∧ f.carry = out.carry

theorem AddsAt.mono {gates gates' : List Gate} {half : Bool} {out : Emit.SumCarry} (h : AddsAt gates half out)
    (hs : gates <:+: gates') : AddsAt gates' half out := by
  cases half with
  | true =>
    obtain ⟨a, b, hm⟩ := h
    exact ⟨a, b, hs.subset hm⟩
  | false =>
    obtain ⟨f, hf, hout⟩ := h
    exact ⟨f, hf.trans hs, hout⟩

theorem AddsAt.carry_driven {gates : List Gate} {half : Bool} {out : Emit.SumCarry} (h : AddsAt gates half out) :
    out.carry ∈ drivenBy gates := by
  cases half with
  | true =>
    obtain ⟨a, b, hm⟩ := h
    exact mem_drivenBy hm (by simp [Gate.outputs])
  | false =>
    obtain ⟨f, hf, -, hcarry⟩ := h
    have hm : Gate.or2 f.lowCarry f.highCarry f.carry ∈ gates := hf.subset (by simp [FullAdder.gates])
    exact mem_drivenBy hm (by simp [Gate.outputs, hcarry])

theorem FullAdder.carries_driven {f : FullAdder} {gates : List Gate} (h : f.gates <:+: gates) :
    f.lowCarry ∈ drivenBy gates ∧ f.highCarry ∈ drivenBy gates := by
  have hlow : Gate.halfAdder f.a f.b f.low f.lowCarry ∈ gates := h.subset (by simp [FullAdder.gates])
  have hhigh : Gate.halfAdder f.low f.carryIn f.sum f.highCarry ∈ gates := h.subset (by simp [FullAdder.gates])
  exact ⟨mem_drivenBy hlow (by simp [Gate.outputs]), mem_drivenBy hhigh (by simp [Gate.outputs])⟩

/-- The two carries of a full adder are never both set: the first needs two set bits, and then their sum is
clear. -/
theorem FullAdder.carries_apart {f : FullAdder} {σ : Assignment} (h : Satisfies σ f.gates) :
    (σ f.lowCarry && σ f.highCarry) = false := by
  obtain ⟨hlow, hlowCarry⟩ := holds_halfAdder.1 (h (.halfAdder f.a f.b f.low f.lowCarry) (by simp [gates]))
  obtain ⟨-, hhighCarry⟩ :=
    holds_halfAdder.1 (h (.halfAdder f.low f.carryIn f.sum f.highCarry) (by simp [gates]))
  rw [hhighCarry, hlowCarry, hlow]
  cases σ f.a <;> cases σ f.b <;> rfl

namespace Emit

theorem fullAdder_addsAt (a b carry : Signal) (alloc : Allocator) :
    AddsAt (fullAdder a b carry alloc).gates false (fullAdder a b carry alloc).value :=
  ⟨⟨a, b, carry, ⟨alloc.next⟩, ⟨alloc.next + 1⟩, ⟨alloc.next + 1 + 1⟩, ⟨alloc.next + 1 + 1 + 1⟩,
    ⟨alloc.next + 1 + 1 + 1 + 1⟩⟩, List.infix_rfl, rfl, rfl⟩

end Emit

/-! ## Every position of a ripple -/

namespace Ripple

section Stages

variable {α : Type} {stage : α → Signal → Emit Emit.SumCarry}

theorem chain_addsAt {half : Bool}
    (h : ∀ p carry alloc, AddsAt (stage p carry alloc).gates half (stage p carry alloc).value) (carry : Signal)
    (positions : List α) (alloc : Allocator) {out : Emit.SumCarry}
    (ho : out ∈ (chain stage carry positions alloc).value) :
    AddsAt (chain stage carry positions alloc).gates half out := by
  induction positions generalizing carry alloc with
  | nil => cases ho
  | cons p rest ih =>
    rw [chain_cons] at ho ⊢
    rcases List.mem_cons.1 ho with rfl | ho
    · exact (h p carry alloc).mono (List.prefix_append _ _).isInfix
    · exact (ih _ _ ho).mono (List.suffix_append _ _).isInfix

theorem addStage_addsAt (p : Signal × Signal) (carry : Signal) (alloc : Allocator) :
    AddsAt (addStage p carry alloc).gates false (addStage p carry alloc).value :=
  Emit.fullAdder_addsAt p.1 p.2 carry alloc

theorem subtractStage_addsAt (p : Signal × Signal) (carry : Signal) (alloc : Allocator) :
    AddsAt (subtractStage p carry alloc).gates false (subtractStage p carry alloc).value := by
  have hfull := Emit.fullAdder_addsAt p.1 (Emit.inverter p.2 alloc).value carry (Emit.inverter p.2 alloc).allocator
  rw [subtractStage, Emit.bind_apply]
  exact hfull.mono (List.suffix_append _ _).isInfix

theorem incrementStage_addsAt (p carry : Signal) (alloc : Allocator) :
    AddsAt (incrementStage p carry alloc).gates true (incrementStage p carry alloc).value :=
  ⟨p, carry, List.mem_cons_self⟩

end Stages

/-- The outputs at a position are those of an adder of the operation. -/
theorem stages_addsAt (r : Ripple) (alloc : Allocator) {position : Nat} {out : Emit.SumCarry}
    (h : (r.stages alloc).value[position]? = some out) :
    AddsAt (r.stages alloc).gates (r.kind.halfAt position) out := by
  cases r with
  | add positions =>
    cases positions with
    | nil => cases h
    | cons p rest =>
      rw [stages, Emit.bind_apply, Emit.map_apply, Emit.halfAdder_apply] at h ⊢
      cases position with
      | zero =>
        cases h
        exact ⟨p.1, p.2, List.mem_cons_self⟩
      | succ position =>
        have hmore := chain_addsAt addStage_addsAt _ rest _ (List.mem_of_getElem? h)
        exact hmore.mono (List.suffix_append _ _).isInfix
  | subtract one positions =>
    exact chain_addsAt subtractStage_addsAt one positions alloc (List.mem_of_getElem? h)
  | increment seed positions =>
    exact chain_addsAt incrementStage_addsAt seed positions alloc (List.mem_of_getElem? h)

/-- The sum bits up to a position, with the carry out of it above them, are what the stages up to it add. -/
theorem stages_upTo (r : Ripple) {σ : Assignment} (alloc : Allocator) (hs : Satisfies σ (r.stages alloc).gates)
    {position : Nat} {out : Emit.SumCarry} (hout : (r.stages alloc).value[position]? = some out) :
    bitsToNat (((r.stages alloc).value.take (position + 1)).map (σ ·.sum)) +
        2 ^ (r.take (position + 1)).width * (σ out.carry).toNat = (r.take (position + 1)).total σ := by
  obtain ⟨hgates, hvalue⟩ := r.stages_take (position + 1) alloc
  have hlast : ((r.take (position + 1)).stages alloc).value.getLast? = some out := by
    rw [hvalue, List.getLast?_take, if_neg (Nat.succ_ne_zero position), Nat.add_sub_cancel, hout, Option.some_or]
  rw [← hvalue]
  exact stages_adds _ alloc (hs.mono hgates.subset) hlast

theorem pairs_congr {positions : List (Signal × Signal)} {σ τ : Assignment}
    (h : ∀ s ∈ positions.flatMap (fun p => [p.1, p.2]), σ s = τ s) {p : Signal × Signal} (hp : p ∈ positions) :
    σ p.1 = τ p.1 ∧ σ p.2 = τ p.2 :=
  ⟨h _ (List.mem_flatMap.2 ⟨p, hp, by simp⟩), h _ (List.mem_flatMap.2 ⟨p, hp, by simp⟩)⟩

/-- Only the values on the inputs count. -/
theorem total_congr {r : Ripple} {σ τ : Assignment} (h : ∀ s ∈ r.inputs, σ s = τ s) : r.total σ = r.total τ := by
  cases r with
  | add positions =>
    have hfst := List.map_congr_left fun p hp => (pairs_congr h hp).1
    have hsnd := List.map_congr_left fun p hp => (pairs_congr h hp).2
    rw [total, total, hfst, hsnd]
  | subtract one positions =>
    rw [inputs, List.forall_mem_cons] at h
    have hfst := List.map_congr_left fun p hp => (pairs_congr h.2 hp).1
    have hsnd := List.map_congr_left fun p hp => congrArg (!·) (pairs_congr h.2 hp).2
    rw [total, total, hfst, hsnd, h.1]
  | increment seed positions =>
    rw [inputs, List.forall_mem_cons] at h
    have hmap : positions.map σ = positions.map τ :=
      List.map_congr_left fun s hs => h.2 s (List.mem_flatMap.2 ⟨s, hs, List.mem_singleton_self s⟩)
    rw [total, total, hmap, h.1]

end Ripple

/-! ## The equation below a position -/

/-- The number on the first positions of a bus, extended as it may be. -/
def Bus.low (constants : Constants) (σ : Assignment) (bus : Bus) (width : Nat) : Except SynthesisError Nat :=
  (bus.extend constants width).map fun l => bitsToNat (l.map σ)

theorem Bus.low_eq {bus : Bus} {constants : Constants} {width : Nat} {l : List Signal}
    (h : bus.extend constants width = .ok l) (σ : Assignment) :
    bus.low constants σ width = .ok (bitsToNat (l.map σ)) := by
  rw [low, h]
  rfl

/-- The sum of so many bits, with the carry above it, against the numbers that the operands have on as many
positions. A subtraction adds the inverse of its second number, and 1; so it carries exactly when the first number
is not the smaller one. -/
def Operation.Balances (constants : Constants) (σ : Assignment) (width sum : Nat) (carry : Bool) : Operation → Prop
  | add a b => ∃ x y, a.low constants σ width = .ok x ∧ b.low constants σ width = .ok y ∧
      sum + 2 ^ width * carry.toNat = x + y
  | subtract a b => ∃ x y, a.low constants σ width = .ok x ∧ b.low constants σ width = .ok y ∧
      (sum : Int) + 2 ^ width * carry.toNat = x + (2 ^ width - 1 - y) + 1 ∧ (carry = true ↔ y ≤ x)
  | increment a literal => ∃ x seed, a.low constants σ width = .ok x ∧
      incrementSeed constants literal = .ok seed ∧ sum + 2 ^ width * carry.toNat = x + (σ seed).toNat

theorem Operation.balances_of_total {op : Operation} {constants : Constants} {width : Nat} {r : Ripple}
    (h : op.ripple constants width = .ok r) {σ : Assignment} (ho : σ constants.one = true) {sum : Nat} {carry : Bool}
    (hsum : sum < 2 ^ width) (htotal : sum + 2 ^ width * carry.toNat = r.total σ) :
    op.Balances constants σ width sum carry := by
  cases op with
  | add a b =>
    obtain ⟨hw, as, bs, ha, hb, rfl⟩ := Ripple.ofAdd_ok h
    obtain ⟨hfst, hsnd⟩ := Ripple.map_zip_of_extend σ hw ha hb
    rw [Ripple.total, hfst, hsnd] at htotal
    exact ⟨_, _, Bus.low_eq ha σ, Bus.low_eq hb σ, htotal⟩
  | subtract a b =>
    obtain ⟨hw, as, bs, ha, hb, rfl⟩ := Ripple.ofSubtract_ok h
    obtain ⟨hfst, hsnd⟩ := Ripple.map_zip_of_extend σ hw ha hb
    have hnot := bitsToNat_not (bs.map σ)
    have hinverse : (as.zip bs).map (!σ ·.2) = (bs.map σ).map (!·) := by
      rw [← hsnd, List.map_map]
      rfl
    rw [List.length_map, Bus.length_of_extend hb hw] at hnot
    rw [Ripple.total, hfst, hinverse, ho, Bool.toNat_true] at htotal
    refine ⟨_, _, Bus.low_eq ha σ, Bus.low_eq hb σ, ?_, ?_⟩
    · have hpow : ((2 ^ width : Nat) : Int) = 2 ^ width := Int.natCast_pow 2 width
      rw [← hpow]
      omega
    · cases carry
      · simp only [Bool.toNat_false, Nat.mul_zero] at htotal
        simp only [Bool.false_eq_true, false_iff]
        omega
      · simp only [Bool.toNat_true, Nat.mul_one] at htotal
        simp only [true_iff]
        omega
  | increment a literal =>
    obtain ⟨_, -, h⟩ := ok_of_bind h
    obtain ⟨seed, hseed, h⟩ := ok_of_bind h
    obtain ⟨hw, as, ha, rfl⟩ := Ripple.ofIncrement_ok h
    exact ⟨_, seed, Bus.low_eq ha σ, hseed, htotal⟩

/-! ## Netlists of descriptors -/

/-- Up to every position of a ripple the sum bits and the carry balance. What holds of the operands in the end, in
`σ`, is said in terms of what they were, in `τ`. -/
theorem Operation.balances_upTo {op : Operation} {constants : Constants} {width : Nat} {r : Ripple}
    (h : op.ripple constants width = .ok r) (alloc : Allocator) {σ τ : Assignment}
    (hs : Satisfies σ (r.stages alloc).gates) (hkeep : ∀ s ∈ primaries constants op.operands, σ s = τ s)
    (ho : τ constants.one = true) {position : Nat} (hp : position < width) {out : Emit.SumCarry}
    (hout : (r.stages alloc).value[position]? = some out) :
    op.Balances constants τ (position + 1)
      (bitsToNat (((r.stages alloc).value.take (position + 1)).map (σ ·.sum))) (σ out.carry) := by
  have hcut : op.ripple constants (position + 1) = .ok (r.take (position + 1)) := by
    rw [op.ripple_take constants (Nat.succ_pos position) hp, h]
    rfl
  have hwidth := (Operation.ripple_computes hcut).width_eq
  have hsums := r.stages_upTo alloc hs hout
  rw [hwidth, Ripple.total_congr fun s hs => hkeep s (ripple_inputs hcut hs)] at hsums
  refine balances_of_total hcut ho ?_ hsums
  have hlt := bitsToNat_lt (((r.stages alloc).value.take (position + 1)).map (σ ·.sum))
  refine Nat.lt_of_lt_of_le hlt (Nat.pow_le_pow_right (by decide) ?_)
  rw [List.length_map]
  exact List.length_take_le _ _

/-- The carries of a clean netlist, which show in no result bit, are exact.

The netlist evaluates. At every position `k - 1` there is the adder that the operation has there, a half adder or a
full adder; its sum is the result bit, and its carry has a value in the end. The result bits below `k`, with that
carry above them, are the sum of the numbers that the two operands have on the positions below `k`; for a
subtraction, of the first number, the inverse of the second and 1, so that it carries exactly when the first is at
least the second; for an increment, of the number and what it adds. In no full adder are the carries of both half
adders set. -/
theorem carries_exact (constants : Constants) (d : Descriptor) (alloc after : Allocator) (n : Netlist)
    (h : (d.synthesize constants).run alloc = (.ok n, after)) (hclean : n.defectsFor constants d = [])
    (v : Valuation) (hv : v.Ready constants (d.op.operands.flatMap Bus.bits)) :
    ∃ r w bits, d.op.ripple constants d.resultWidth = .ok r ∧ n.gates = (r.stages alloc).gates ∧
      n.resultBits = (r.stages alloc).value.map (·.sum) ∧ driveAll 0 n.gates v = .ok w ∧ n.eval v = .ok bits ∧
      (∀ k, 1 ≤ k → k ≤ d.resultWidth → ∃ out carry, (r.stages alloc).value[k - 1]? = some out ∧
        AddsAt n.gates (d.op.kind.halfAt (k - 1)) out ∧ w.get? out.carry = some carry ∧
        d.op.Balances constants v.bit k (bitsToNat (bits.take k)) carry) ∧
      ∀ f : FullAdder, f.gates <:+: n.gates → ∃ low high, w.get? f.lowCarry = some low ∧
        w.get? f.highCarry = some high ∧ (low && high) = false := by
  obtain ⟨r, hr, rfl, -⟩ := Descriptor.synthesize_ok h
  have hsound := Netlist.defects_eq_nil_iff.1 hclean
  have hbinds : (settle (r.stages alloc).gates v).Binds
      (primaries constants d.op.operands ++ drivenBy (r.stages alloc).gates) := binds_settle hv.binds
  have hkeep : ∀ s ∈ primaries constants d.op.operands, (settle (r.stages alloc).gates v).bit s = v.bit s :=
    fun s hs => bit_settle_other fun hd => hsound.undriven s hd hs
  have hholds : Satisfies (settle (r.stages alloc).gates v).bit (r.stages alloc).gates :=
    satisfies_settle v hsound.reads hsound.once hsound.undriven
  refine ⟨r, settle (r.stages alloc).gates v, _, hr, rfl, rfl, driveAll_eq_settle hsound.reads hv.binds 0,
    Netlist.eval_eq_settle hsound.reads hv.binds hsound.results, fun k hk hle => ?_, fun f hf => ?_⟩
  · obtain ⟨position, rfl⟩ := Nat.exists_eq_add_of_le' hk
    have hlen : (r.stages alloc).value.length = d.resultWidth :=
      (r.length_stages alloc).trans (Operation.ripple_computes hr).width_eq
    have hout := List.getElem?_eq_getElem (hlen.symm ▸ hle : position < (r.stages alloc).value.length)
    have hadds := r.stages_addsAt alloc hout
    rw [Operation.ripple_kind hr] at hadds
    refine ⟨_, _, hout, hadds, hbinds.get? (List.mem_append_right _ hadds.carry_driven), ?_⟩
    have hbalance := Operation.balances_upTo hr alloc hholds hkeep (Valuation.bit_eq hv.one) hle hout
    rw [Ripple.emit, Emit.map_apply, List.map_map, ← List.map_take]
    exact hbalance
  · obtain ⟨hlow, hhigh⟩ := FullAdder.carries_driven hf
    exact ⟨_, _, hbinds.get? (List.mem_append_right _ hlow), hbinds.get? (List.mem_append_right _ hhigh),
      FullAdder.carries_apart (hholds.mono hf.subset)⟩

/-- 1 less 2, to three bits, with the signals of the one operand on the other in reverse. The lowest position
carries, since 1 is not less than 0; with the next one it is 1 less 2, and there is no carry. -/
theorem carries_exact_borrow :
    let constants : Constants := ⟨⟨0⟩, ⟨1⟩⟩
    let d : Descriptor := ⟨.subtract ⟨[⟨2⟩, ⟨3⟩], false⟩ ⟨[⟨3⟩, ⟨2⟩], false⟩, 3⟩
    let v := (Valuation.empty.bindConstants constants).bindBits d.op.first [true, false]
    ∃ n after w, (d.synthesize constants).run ⟨4⟩ = (.ok n, after) ∧ n.defectsFor constants d = [] ∧
      v.Ready constants (d.op.operands.flatMap Bus.bits) ∧ driveAll 0 n.gates v = .ok w ∧
      (∃ out, AddsAt n.gates false out ∧ n.resultBits[0]? = some out.sum ∧ w.get? out.carry = some true) ∧
      ∃ out, AddsAt n.gates false out ∧ n.resultBits[1]? = some out.sum ∧ w.get? out.carry = some false := by
  intro constants d v
  obtain ⟨n, after, h, -⟩ := Descriptor.synthesize_exact constants d ⟨4⟩ (by decide) (by decide)
  have hclean : n.defectsFor constants d = [] := by
    cases h
    decide
  have hv : v.Ready constants (d.op.operands.flatMap Bus.bits) := by decide
  obtain ⟨r, w, bits, -, -, hresult, hdrive, -, hcarry, -⟩ := carries_exact constants d ⟨4⟩ after n h hclean v hv
  obtain ⟨out, carry, hout, hadds, hget, x, y, hx, hy, -, hiff⟩ := hcarry 1 (by decide) (by decide)
  obtain ⟨out', carry', hout', hadds', hget', x', y', hx', hy', -, hiff'⟩ := hcarry 2 (by decide) (by decide)
  cases hx
  cases hy
  cases hx'
  cases hy'
  refine ⟨n, after, w, h, hclean, hv, hdrive, ⟨out, hadds, ?_, ?_⟩, ⟨out', hadds', ?_, ?_⟩⟩
  · rw [hresult, List.getElem?_map, hout]
    rfl
  · rw [hget, hiff.2 (by decide)]
  · rw [hresult, List.getElem?_map, hout']
    rfl
  · rw [hget', Bool.eq_false_iff.2 fun hc => absurd (hiff'.1 hc) (by decide)]

end RippleCarry
