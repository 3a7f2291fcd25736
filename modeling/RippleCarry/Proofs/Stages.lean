import RippleCarry.Ripple
import RippleCarry.Proofs.Values
/-!
# What a ripple computes

A stage adds two bits and a carry, and a chain of stages adds two numbers and a carry. `IsAdder` says
what is needed of a stage; `chain_adds` is the invariant of the carry along a chain, whatever its
stages are made of. `Ripple.emit_value`: in every solution of the gates of a ripple, its sum bits are
`Ripple.total` modulo 2 to its width.
-/

namespace RippleCarry

/-! ## Gates -/

@[simp] theorem holds_halfAdder {σ : Assignment} {a b sum carry : Signal} :
    (Gate.halfAdder a b sum carry).Holds σ ↔ σ sum = (σ a ^^ σ b) ∧ σ carry = (σ a && σ b) := by
  simp [Gate.Holds, Gate.outputs, Gate.inputs, Gate.kind, GateKind.truth]

@[simp] theorem holds_or2 {σ : Assignment} {a b out : Signal} :
    (Gate.or2 a b out).Holds σ ↔ σ out = (σ a || σ b) := by
  simp [Gate.Holds, Gate.outputs, Gate.inputs, Gate.kind, GateKind.truth]

@[simp] theorem holds_not {σ : Assignment} {a out : Signal} :
    (Gate.not a out).Holds σ ↔ σ out = !σ a := by
  simp [Gate.Holds, Gate.outputs, Gate.inputs, Gate.kind, GateKind.truth]

theorem halfAdder_adds (a b : Bool) : (a ^^ b).toNat + 2 * (a && b).toNat = a.toNat + b.toNat := by
  cases a <;> cases b <;> rfl

/-- The two carries of a full adder are never both set, so that their OR counts both. -/
theorem fullAdder_adds (a b c : Bool) :
    ((a ^^ b) ^^ c).toNat + 2 * ((a && b) || ((a ^^ b) && c)).toNat = a.toNat + b.toNat + c.toNat := by
  cases a <;> cases b <;> cases c <;> rfl

namespace Emit

@[simp] theorem halfAdder_apply (a b : Signal) (alloc : Allocator) :
    halfAdder a b alloc = ⟨⟨⟨alloc.next⟩, ⟨alloc.next + 1⟩⟩,
      [.halfAdder a b ⟨alloc.next⟩ ⟨alloc.next + 1⟩], ⟨alloc.next + 1 + 1⟩⟩ := rfl

@[simp] theorem or2_apply (a b : Signal) (alloc : Allocator) :
    or2 a b alloc = ⟨⟨alloc.next⟩, [.or2 a b ⟨alloc.next⟩], ⟨alloc.next + 1⟩⟩ := rfl

@[simp] theorem inverter_apply (a : Signal) (alloc : Allocator) :
    inverter a alloc = ⟨⟨alloc.next⟩, [.not a ⟨alloc.next⟩], ⟨alloc.next + 1⟩⟩ := rfl

/-- In a solution the outputs of a full adder count the bits on its inputs. -/
theorem fullAdder_value {σ : Assignment} {a b carry : Signal} {alloc : Allocator}
    (h : Satisfies σ (fullAdder a b carry alloc).gates) :
    (σ (fullAdder a b carry alloc).value.sum).toNat + 2 * (σ (fullAdder a b carry alloc).value.carry).toNat =
      (σ a).toNat + (σ b).toNat + (σ carry).toNat := by
  simp only [fullAdder, Satisfies, bind_apply, halfAdder_apply, or2_apply, pure_apply, List.append_nil,
    List.cons_append, List.nil_append, List.forall_mem_cons, holds_halfAdder, holds_or2] at h ⊢
  obtain ⟨⟨hlow, hcarry⟩, ⟨hsum, hcarry'⟩, hout, -⟩ := h
  rw [hout, hsum, hcarry, hcarry', hlow]
  exact fullAdder_adds (σ a) (σ b) (σ carry)

theorem fullAdder_reads {a b carry : Signal} {known : List Signal} (alloc : Allocator)
    (ha : a ∈ known) (hb : b ∈ known) (hc : carry ∈ known) : Reads known (fullAdder a b carry alloc).gates := by
  simp [fullAdder, Reads, Gate.inputs, Gate.outputs, ha, hb, hc]

theorem fullAdder_drives (a b carry : Signal) (alloc : Allocator) :
    (fullAdder a b carry alloc).value.sum ∈ drivenBy (fullAdder a b carry alloc).gates ∧
      (fullAdder a b carry alloc).value.carry ∈ drivenBy (fullAdder a b carry alloc).gates := by
  simp [fullAdder, drivenBy, Gate.outputs]

end Emit

/-! ## Stages -/

namespace Ripple

/-- A stage on positions of type `α`: it reads the carry and the signals of its position, drives both
of its outputs, and adds the bits `left` and `right` of its position to the carry. -/
structure IsAdder {α : Type} (stage : α → Signal → Emit Emit.SumCarry) (inputs : α → List Signal)
    (left right : Assignment → α → Bool) : Prop where
  reads : ∀ p carry alloc, Reads (carry :: inputs p) (stage p carry alloc).gates
  drives : ∀ p carry alloc, (stage p carry alloc).value.sum ∈ drivenBy (stage p carry alloc).gates ∧
    (stage p carry alloc).value.carry ∈ drivenBy (stage p carry alloc).gates
  adds : ∀ σ p carry alloc, Satisfies σ (stage p carry alloc).gates →
    (σ (stage p carry alloc).value.sum).toNat + 2 * (σ (stage p carry alloc).value.carry).toNat =
      (left σ p).toNat + (right σ p).toNat + (σ carry).toNat

theorem addStage_isAdder :
    IsAdder addStage (fun p => [p.1, p.2]) (fun σ p => σ p.1) (fun σ p => σ p.2) where
  reads p carry alloc := Emit.fullAdder_reads alloc (by simp) (by simp) (by simp)
  drives p carry alloc := Emit.fullAdder_drives p.1 p.2 carry alloc
  adds _ _ _ _ h := Emit.fullAdder_value h

theorem subtractStage_isAdder :
    IsAdder subtractStage (fun p => [p.1, p.2]) (fun σ p => σ p.1) (fun σ p => !σ p.2) where
  reads p carry alloc := by
    rw [subtractStage, Emit.bind_apply, reads_append]
    refine ⟨by simp [Reads, Gate.inputs], Emit.fullAdder_reads _ ?_ ?_ ?_⟩ <;>
      simp [drivenBy, Gate.outputs]
  drives p carry alloc := by
    have h := Emit.fullAdder_drives p.1 ⟨alloc.next⟩ carry ⟨alloc.next + 1⟩
    rw [subtractStage, Emit.bind_apply, drivenBy_append]
    exact ⟨List.mem_append_right _ h.1, List.mem_append_right _ h.2⟩
  adds σ p carry alloc h := by
    rw [subtractStage, Emit.bind_apply, satisfies_append] at h
    have hinv : σ ⟨alloc.next⟩ = !σ p.2 := holds_not.1 (h.1 _ List.mem_cons_self)
    have hadd := Emit.fullAdder_value h.2
    rw [Emit.inverter_apply, hinv] at hadd
    exact hadd

theorem incrementStage_isAdder :
    IsAdder incrementStage (fun p => [p]) (fun σ p => σ p) (fun _ _ => false) where
  reads p carry alloc := by simp [incrementStage, Reads, Gate.inputs]
  drives p carry alloc := by simp [incrementStage, drivenBy, Gate.outputs]
  adds σ p carry alloc h := by
    rw [incrementStage, Emit.halfAdder_apply] at h ⊢
    obtain ⟨hsum, hcarry⟩ := holds_halfAdder.1 (h _ List.mem_cons_self)
    rw [hsum, hcarry]
    exact halfAdder_adds (σ p) (σ carry)

/-! ## Chains -/

section Chain

variable {α : Type} {stage : α → Signal → Emit Emit.SumCarry} {inputs : α → List Signal}
  {left right : Assignment → α → Bool}

/-- The carry that a row of stages leaves. -/
def carryOut (carry : Signal) : List Emit.SumCarry → Signal
  | [] => carry
  | out :: rest => carryOut out.carry rest

theorem carryOut_eq {outs : List Emit.SumCarry} {last : Emit.SumCarry} (carry : Signal)
    (h : outs.getLast? = some last) : carryOut carry outs = last.carry := by
  induction outs generalizing carry with
  | nil => cases h
  | cons out rest ih =>
    cases rest with
    | nil => cases h; rfl
    | cons next rest => exact ih out.carry (by rwa [List.getLast?_cons_cons] at h)

theorem chain_cons (stage : α → Signal → Emit Emit.SumCarry) (carry : Signal) (p : α) (rest : List α)
    (alloc : Allocator) :
    chain stage carry (p :: rest) alloc =
      let first := stage p carry alloc
      let more := chain stage first.value.carry rest first.allocator
      ⟨first.value :: more.value, first.gates ++ more.gates, more.allocator⟩ := rfl

theorem length_chain (carry : Signal) (positions : List α) (alloc : Allocator) :
    (chain stage carry positions alloc).value.length = positions.length := by
  induction positions generalizing carry alloc with
  | nil => rfl
  | cons p rest ih => rw [chain_cons, List.length_cons, List.length_cons, ih]

theorem chain_reads (h : IsAdder stage inputs left right) (carry : Signal) (positions : List α)
    (alloc : Allocator) :
    Reads (carry :: positions.flatMap inputs) (chain stage carry positions alloc).gates := by
  induction positions generalizing carry alloc with
  | nil => trivial
  | cons p rest ih =>
    rw [chain_cons, reads_append]
    refine ⟨(h.reads p carry alloc).mono (fun s hs => ?_), (ih _ _).mono (fun s hs => ?_)⟩
    · rw [List.flatMap_cons, ← List.cons_append]
      exact List.mem_append_left _ hs
    · rcases List.mem_cons.1 hs with rfl | hs
      · exact List.mem_append_right _ (h.drives p carry alloc).2
      · exact List.mem_append_left _ (by simp [hs])

theorem chain_drives (h : IsAdder stage inputs left right) (carry : Signal) (positions : List α)
    (alloc : Allocator) :
    ∀ out ∈ (chain stage carry positions alloc).value,
      out.sum ∈ drivenBy (chain stage carry positions alloc).gates := by
  induction positions generalizing carry alloc with
  | nil => intro out ho; cases ho
  | cons p rest ih =>
    intro out ho
    rw [chain_cons, drivenBy_append]
    rw [chain_cons] at ho
    rcases List.mem_cons.1 ho with rfl | ho
    · exact List.mem_append_left _ (h.drives p carry alloc).1
    · exact List.mem_append_right _ (ih _ _ out ho)

/-- The invariant of the carry: at the end of a chain the sum bits, with the last carry above them,
are the two numbers and the first carry added up. -/
theorem chain_adds (h : IsAdder stage inputs left right) {σ : Assignment} (carry : Signal) (positions : List α)
    (alloc : Allocator) (hs : Satisfies σ (chain stage carry positions alloc).gates) :
    bitsToNat ((chain stage carry positions alloc).value.map (σ ·.sum)) + 2 ^ positions.length *
        (σ (carryOut carry (chain stage carry positions alloc).value)).toNat =
      bitsToNat (positions.map (left σ)) + bitsToNat (positions.map (right σ)) + (σ carry).toNat := by
  induction positions generalizing carry alloc with
  | nil => simp [chain, bitsToNat, carryOut]
  | cons p rest ih =>
    rw [chain_cons] at hs ⊢
    obtain ⟨hfirst, hmore⟩ := satisfies_append.1 hs
    -- The rest starts from the carry of this stage, which weighs 2 on either side.
    have hstep := h.adds σ p carry alloc hfirst
    have hrest := ih _ _ hmore
    simp only [List.map_cons, bitsToNat, carryOut, List.length_cons, Nat.pow_succ, Nat.mul_assoc,
      Nat.mul_left_comm _ 2]
    omega

end Chain

/-! ## Ripples -/

/-- The number of positions. -/
def width : Ripple → Nat
  | add positions => positions.length
  | subtract _ positions => positions.length
  | increment _ positions => positions.length

/-- The signals that the stages read and do not drive. -/
def inputs : Ripple → List Signal
  | add positions => positions.flatMap fun p => [p.1, p.2]
  | subtract one positions => one :: positions.flatMap fun p => [p.1, p.2]
  | increment seed positions => seed :: positions.flatMap fun p => [p]

/-- What the stages add up to, before it is cut to the width. -/
def total (σ : Assignment) : Ripple → Nat
  | add positions => bitsToNat (positions.map (σ ·.1)) + bitsToNat (positions.map (σ ·.2))
  | subtract one positions =>
    bitsToNat (positions.map (σ ·.1)) + bitsToNat (positions.map (!σ ·.2)) + (σ one).toNat
  | increment seed positions => bitsToNat (positions.map σ) + (σ seed).toNat

theorem length_stages (r : Ripple) (alloc : Allocator) : (r.stages alloc).value.length = r.width := by
  cases r with
  | add positions =>
    cases positions with
    | nil => rfl
    | cons p rest => exact congrArg (· + 1) (length_chain _ rest _)
  | subtract one positions => exact length_chain one positions alloc
  | increment seed positions => exact length_chain seed positions alloc

theorem stages_reads (r : Ripple) (alloc : Allocator) : Reads r.inputs (r.stages alloc).gates := by
  cases r with
  | add positions =>
    cases positions with
    | nil => trivial
    | cons p rest =>
      rw [stages, Emit.bind_apply, Emit.map_apply, reads_append]
      refine ⟨by simp [Reads, Gate.inputs, inputs], ?_⟩
      refine (chain_reads addStage_isAdder _ rest _).mono fun s hs => ?_
      rcases List.mem_cons.1 hs with rfl | hs
      · exact List.mem_append_right _ (by simp [drivenBy, Gate.outputs])
      · exact List.mem_append_left _ (List.mem_append_right _ hs)
  | subtract one positions => exact chain_reads subtractStage_isAdder one positions alloc
  | increment seed positions => exact chain_reads incrementStage_isAdder seed positions alloc

theorem stages_drives (r : Ripple) (alloc : Allocator) :
    ∀ out ∈ (r.stages alloc).value, out.sum ∈ drivenBy (r.stages alloc).gates := by
  cases r with
  | add positions =>
    cases positions with
    | nil => intro out ho; cases ho
    | cons p rest =>
      intro out ho
      rw [stages, Emit.bind_apply, Emit.map_apply, drivenBy_append]
      rw [stages, Emit.bind_apply, Emit.map_apply] at ho
      rcases List.mem_cons.1 ho with rfl | ho
      · exact List.mem_append_left _ (by simp [drivenBy, Gate.outputs])
      · exact List.mem_append_right _ (chain_drives addStage_isAdder _ rest _ out ho)
  | subtract one positions => exact chain_drives subtractStage_isAdder one positions alloc
  | increment seed positions => exact chain_drives incrementStage_isAdder seed positions alloc

/-- The sum bits of a ripple, with the last carry above them, are all that its stages add. -/
theorem stages_adds (r : Ripple) {σ : Assignment} (alloc : Allocator) (hs : Satisfies σ (r.stages alloc).gates)
    {last : Emit.SumCarry} (hl : (r.stages alloc).value.getLast? = some last) :
    bitsToNat ((r.stages alloc).value.map (σ ·.sum)) + 2 ^ r.width * (σ last.carry).toNat = r.total σ := by
  cases r with
  | add positions =>
    cases positions with
    | nil => cases hl
    | cons p rest =>
      -- The lowest position has no carry to add, and a half adder in place of the stage.
      rw [stages, Emit.bind_apply, Emit.map_apply, Emit.halfAdder_apply] at hs hl ⊢
      obtain ⟨hfirst, hmore⟩ := satisfies_append.1 hs
      obtain ⟨hsum, hcarry⟩ := holds_halfAdder.1 (hfirst _ List.mem_cons_self)
      have hstep := halfAdder_adds (σ p.1) (σ p.2)
      have hrest := chain_adds addStage_isAdder ⟨alloc.next + 1⟩ rest ⟨alloc.next + 1 + 1⟩ hmore
      rw [← hsum, ← hcarry] at hstep
      rw [← carryOut_eq p.1 hl]
      simp only [List.map_cons, bitsToNat, carryOut, width, total, List.length_cons, Nat.pow_succ,
        Nat.mul_assoc, Nat.mul_left_comm _ 2]
      omega
  | subtract one positions =>
    rw [stages] at hs hl ⊢
    have h := chain_adds subtractStage_isAdder one positions alloc hs
    rwa [carryOut_eq one hl] at h
  | increment seed positions =>
    rw [stages] at hs hl ⊢
    have h := chain_adds incrementStage_isAdder seed positions alloc hs
    rwa [carryOut_eq seed hl, List.map_const', bitsToNat_replicate] at h

theorem length_emit (r : Ripple) (alloc : Allocator) : (r.emit alloc).value.length = r.width := by
  rw [emit, Emit.map_apply, List.length_map, length_stages]

theorem emit_reads (r : Ripple) (alloc : Allocator) : Reads r.inputs (r.emit alloc).gates :=
  stages_reads r alloc

theorem emit_drives (r : Ripple) (alloc : Allocator) :
    (r.emit alloc).value ⊆ drivenBy (r.emit alloc).gates := by
  intro s hs
  obtain ⟨out, ho, rfl⟩ := List.mem_map.1 hs
  exact stages_drives r alloc out ho

/-- In a solution of the gates of a ripple, its result is what the stages add, cut to the width. -/
theorem emit_value (r : Ripple) {σ : Assignment} (alloc : Allocator) (hs : Satisfies σ (r.emit alloc).gates) :
    bitsToNat ((r.emit alloc).value.map σ) = r.total σ % 2 ^ r.width := by
  have hlen := length_stages r alloc
  rw [emit, Emit.map_apply] at hs ⊢
  rw [List.map_map]
  cases hl : (r.stages alloc).value.getLast? with
  | none =>
    -- Without stages there are no bits, and everything is 0 modulo 1.
    rw [List.getLast?_eq_none_iff] at hl
    rw [hl] at hlen ⊢
    rw [← hlen, List.length_nil, Nat.pow_zero, Nat.mod_one]
    rfl
  | some last =>
    have hsmall := bitsToNat_lt ((r.stages alloc).value.map (σ ·.sum))
    rw [List.length_map, hlen] at hsmall
    rw [← stages_adds r alloc hs hl, Nat.add_mul_mod_self_left, Nat.mod_eq_of_lt hsmall]
    rfl

end Ripple
end RippleCarry
