import RippleCarry.Proofs.Failures
/-!
# Narrower results

No stage looks at how many there are above it. So a ripple of fewer positions is the same ripple cut short
(`Operation.ripple_take`), and what it places is the start of what the longer one places (`Emit.Begins`,
`Ripple.emit_take`).

`Draft.addLowest` adds the lowest bits alone, without a chain. It is the first step of the chain, and no
more (`Draft.addLowest_eq`).

`narrower_is_start`: an operation at a smaller width has the first gates and the first result bits of the
same operation at a greater one.
-/

namespace RippleCarry

/-! ## Steps that begin alike -/

namespace Emit

variable {α β : Type}

/-- One step places the first gates of another one, and hands back the first `width` of its values. -/
def Begins (width : Nat) (low whole : Emit (List α)) : Prop :=
  ∀ alloc, (low alloc).gates <+: (whole alloc).gates ∧ (low alloc).value = (whole alloc).value.take width

theorem begins_zero (whole : Emit (List α)) : Begins 0 (Pure.pure []) whole := fun _ =>
  ⟨List.nil_prefix, rfl⟩

theorem begins_nil (width : Nat) : Begins width (Pure.pure [] : Emit (List α)) (Pure.pure []) := fun _ =>
  ⟨List.prefix_rfl, List.take_nil.symm⟩

theorem Begins.cons {width : Nat} {low whole : α → Emit (List α)} (h : ∀ a, Begins width (low a) (whole a))
    (first : Emit α) :
    Begins (width + 1) (do let a ← first; (a :: ·) <$> low a) (do let a ← first; (a :: ·) <$> whole a) := by
  intro alloc
  obtain ⟨hgates, hvalue⟩ := h (first alloc).value (first alloc).allocator
  simp only [bind_apply, map_apply, List.take_succ_cons]
  exact ⟨(List.prefix_append_right_inj _).2 hgates, congrArg _ hvalue⟩

theorem Begins.map {width : Nat} {low whole : Emit (List α)} (h : Begins width low whole) (f : α → β) :
    Begins width ((·.map f) <$> low) ((·.map f) <$> whole) := by
  intro alloc
  obtain ⟨hgates, hvalue⟩ := h alloc
  rw [map_apply, map_apply, hvalue, List.map_take]
  exact ⟨hgates, rfl⟩

end Emit

/-! ## Ripples cut short -/

namespace Ripple

/-- The lowest positions of a ripple. -/
def take (width : Nat) : Ripple → Ripple
  | add positions => add (positions.take width)
  | subtract one positions => subtract one (positions.take width)
  | increment seed positions => increment seed (positions.take width)

theorem chain_take {α : Type} (stage : α → Signal → Emit Emit.SumCarry) (carry : Signal) (positions : List α)
    (width : Nat) :
    Emit.Begins width (chain stage carry (positions.take width)) (chain stage carry positions) := by
  induction positions generalizing carry width with
  | nil =>
    rw [List.take_nil]
    exact Emit.begins_nil width
  | cons p rest ih =>
    cases width with
    | zero => exact Emit.begins_zero _
    | succ width => exact Emit.Begins.cons (fun out => ih out.carry width) (stage p carry)

theorem stages_take (r : Ripple) (width : Nat) : Emit.Begins width (r.take width).stages r.stages := by
  cases r with
  | add positions =>
    cases positions with
    | nil =>
      rw [take, List.take_nil]
      exact Emit.begins_nil width
    | cons p rest =>
      cases width with
      | zero => exact Emit.begins_zero _
      | succ width =>
        exact Emit.Begins.cons (fun out => chain_take addStage out.carry rest width) (Emit.halfAdder p.1 p.2)
  | subtract one positions => exact chain_take subtractStage one positions width
  | increment seed positions => exact chain_take incrementStage seed positions width

/-- A ripple cut short places the first gates of the whole, and its sum bits are the first of them. -/
theorem emit_take (r : Ripple) (width : Nat) : Emit.Begins width (r.take width).emit r.emit :=
  (r.stages_take width).map _

end Ripple

/-! ## Operations cut short -/

section Narrower

variable {narrow wide : Nat}

/-- The width of an extended bus is only where it is cut. -/
theorem Bus.extend_take (bus : Bus) (constants : Constants) (hpos : 0 < narrow) (hle : narrow ≤ wide) :
    bus.extend constants narrow = (bus.extend constants wide).map (List.take narrow) := by
  by_cases hb : bus.bits = []
  · rw [extend_of_empty hb constants hpos, extend_of_empty hb constants (Nat.lt_of_lt_of_le hpos hle)]
    rfl
  · rw [extend_eq_map hb, extend_eq_map hb, Except.map, ← List.map_take, List.take_range, Nat.min_eq_left hle]

namespace Ripple

theorem extend_both_take (constants : Constants) (a b : Bus) (hpos : 0 < narrow) (hle : narrow ≤ wide)
    (f : List (Signal × Signal) → Ripple) (hf : ∀ l, f (l.take narrow) = (f l).take narrow) :
    (do let as ← a.extend constants narrow; let bs ← b.extend constants narrow; return f (as.zip bs) :
        Except SynthesisError Ripple) =
      (do let as ← a.extend constants wide; let bs ← b.extend constants wide; return f (as.zip bs) :
        Except SynthesisError Ripple).map (take narrow) := by
  rw [a.extend_take constants hpos hle, b.extend_take constants hpos hle]
  cases a.extend constants wide with
  | error e => rfl
  | ok as =>
    cases b.extend constants wide with
    | error e => rfl
    | ok bs =>
      have hzip : (as.take narrow).zip (bs.take narrow) = (as.zip bs).take narrow := List.take_zipWith.symm
      show Except.ok (f ((as.take narrow).zip (bs.take narrow))) = .ok ((f (as.zip bs)).take narrow)
      rw [hzip, hf]

theorem ofAdd_take (constants : Constants) (a b : Bus) (hpos : 0 < narrow) (hle : narrow ≤ wide) :
    ofAdd constants a b narrow = (ofAdd constants a b wide).map (take narrow) := by
  rw [ofAdd, ofAdd, requireWidth_pos hpos, requireWidth_pos (Nat.lt_of_lt_of_le hpos hle)]
  exact extend_both_take constants a b hpos hle add fun _ => rfl

theorem ofSubtract_take (constants : Constants) (a b : Bus) (hpos : 0 < narrow) (hle : narrow ≤ wide) :
    ofSubtract constants a b narrow = (ofSubtract constants a b wide).map (take narrow) := by
  rw [ofSubtract, ofSubtract, requireWidth_pos hpos, requireWidth_pos (Nat.lt_of_lt_of_le hpos hle)]
  exact extend_both_take constants a b hpos hle (subtract constants.one) fun _ => rfl

theorem ofIncrement_take (constants : Constants) (a : Bus) (seed : Signal) (hpos : 0 < narrow) (hle : narrow ≤ wide) :
    ofIncrement constants a seed narrow = (ofIncrement constants a seed wide).map (take narrow) := by
  rw [ofIncrement, ofIncrement, requireWidth_pos hpos, requireWidth_pos (Nat.lt_of_lt_of_le hpos hle),
    a.extend_take constants hpos hle]
  cases a.extend constants wide <;> rfl

end Ripple

/-- At a smaller width an operation has the same ripple, cut short, or the same error. -/
theorem Operation.ripple_take (op : Operation) (constants : Constants) (hpos : 0 < narrow) (hle : narrow ≤ wide) :
    op.ripple constants narrow = (op.ripple constants wide).map (Ripple.take narrow) := by
  cases op with
  | add a b => exact Ripple.ofAdd_take constants a b hpos hle
  | subtract a b => exact Ripple.ofSubtract_take constants a b hpos hle
  | increment a literal =>
    rw [ripple, ripple, Ripple.requireWidth_pos hpos, Ripple.requireWidth_pos (Nat.lt_of_lt_of_le hpos hle)]
    cases incrementSeed constants literal with
    | error e => rfl
    | ok seed => exact Ripple.ofIncrement_take constants a seed hpos hle

theorem Operation.exists_ripple_take (op : Operation) (constants : Constants) (hpos : 0 < narrow)
    (hle : narrow ≤ wide) : (∃ r, op.ripple constants narrow = .ok r) ↔ ∃ r, op.ripple constants wide = .ok r := by
  rw [op.ripple_take constants hpos hle]
  cases op.ripple constants wide with
  | error e => exact iff_of_false (by rintro ⟨_, h⟩; cases h) (by rintro ⟨_, h⟩; cases h)
  | ok r => exact iff_of_true ⟨_, rfl⟩ ⟨_, rfl⟩

theorem Descriptor.synthesize_take {op : Operation} {constants : Constants} {alloc after : Allocator} {n : Netlist}
    (hpos : 0 < narrow) (hle : narrow ≤ wide)
    (h : (synthesize constants ⟨op, wide⟩).run alloc = (.ok n, after)) :
    ∃ n' after', (synthesize constants ⟨op, narrow⟩).run alloc = (.ok n', after') ∧
      n'.gates <+: n.gates ∧ n'.resultBits = n.resultBits.take narrow := by
  obtain ⟨r, hr, rfl, -⟩ := synthesize_ok h
  have hr' : op.ripple constants narrow = .ok (r.take narrow) := by
    rw [op.ripple_take constants hpos hle, hr]
    rfl
  exact ⟨_, _, synthesize_eq (d := ⟨op, narrow⟩) hr' alloc, r.emit_take narrow alloc⟩

theorem Draft.place_take {ripple : Except SynthesisError Ripple} {draft after : Draft} {bits : List Signal}
    (h : (place ripple).run draft = (.ok bits, after)) (narrow : Nat) :
    ∃ after', (place (ripple.map (Ripple.take narrow))).run draft = (.ok (bits.take narrow), after') ∧
      after'.gates <+: after.gates := by
  cases ripple with
  | error e => cases congrArg Prod.fst h
  | ok r =>
    obtain ⟨hgates, hvalue⟩ := r.emit_take narrow draft.allocator
    cases h
    rw [← hvalue]
    exact ⟨_, rfl, (List.prefix_append_right_inj _).2 hgates⟩

end Narrower

/-! ## The lowest bit of a sum -/

/-- Adds the lowest bits of two buses with a half adder, and leaves the carry open. -/
def Draft.addLowest (constants : Constants) (a b : Bus) : Build (List Signal) := do
  let x ← check (a.bit constants 0)
  let y ← check (b.bit constants 0)
  let out ← perform (Emit.halfAdder x y)
  return [out.sum]

/-- Adding the lowest bits alone is a chain of one position. -/
theorem Draft.addLowest_eq (constants : Constants) (a b : Bus) :
    addLowest constants a b = (Call.add a b 1).placeInTurn constants := by
  show addLowest constants a b = sumsInTurn (readBoth constants a b) Ripple.numberedAddStage constants.zero 1
  rw [addLowest, sumsInTurn, Ripple.requireWidth_pos Nat.one_pos, show List.range 1 = [0] from rfl, chainInTurn,
    readBoth]
  cases a.bit constants 0 with
  | error e => rfl
  | ok x =>
    cases b.bit constants 0 with
    | error e => rfl
    | ok y => rfl

/-- A narrower result is the start of a wider one. At two widths, neither of them 0, an operation has a netlist
at both or at neither. The gates at the smaller width are the first gates at the greater one, and its result bits
are the first result bits, on the same signals. So it is with the lowest bits of two buses: to add them alone is
to stop the addition after position 0. -/
theorem narrower_is_start (constants : Constants) (op : Operation) (alloc : Allocator) (narrow wide : Nat)
    (hpos : 1 ≤ narrow) (hle : narrow ≤ wide) :
    ((∃ n after, (Descriptor.synthesize constants ⟨op, narrow⟩).run alloc = (.ok n, after)) ↔
      ∃ n after, (Descriptor.synthesize constants ⟨op, wide⟩).run alloc = (.ok n, after)) ∧
    (∀ low lowAfter n after, (Descriptor.synthesize constants ⟨op, narrow⟩).run alloc = (.ok low, lowAfter) →
      (Descriptor.synthesize constants ⟨op, wide⟩).run alloc = (.ok n, after) →
      low.gates <+: n.gates ∧ low.resultBits = n.resultBits.take narrow) ∧
    ∀ a b : Bus, Draft.addLowest constants a b = (Call.add a b 1).placeInTurn constants ∧
      ∀ draft bits after, ((Call.add a b wide).placeInTurn constants).run draft = (.ok bits, after) →
        ∃ lowAfter, (Draft.addLowest constants a b).run draft = (.ok (bits.take 1), lowAfter) ∧
          lowAfter.gates <+: after.gates := by
  refine ⟨?_, fun low lowAfter n after hlow h => ?_, fun a b => ⟨Draft.addLowest_eq constants a b, ?_⟩⟩
  · rw [Descriptor.exists_synthesize_iff, Descriptor.exists_synthesize_iff]
    exact op.exists_ripple_take constants hpos hle
  · obtain ⟨low', lowAfter', hlow', hstart⟩ := Descriptor.synthesize_take hpos hle h
    rw [hlow] at hlow'
    cases hlow'
    exact hstart
  · intro draft bits after h
    rw [Call.placeInTurn_eq] at h
    rw [Draft.addLowest_eq, Call.placeInTurn_eq, Call.place, Draft.add,
      Ripple.ofAdd_take constants a b Nat.one_pos (Nat.le_trans hpos hle)]
    exact Draft.place_take h 1

/-- A sum of three bits on an operand of two bits and its lowest bit, and the same sum of one bit. -/
theorem narrower_is_start_one_bit :
    let constants : Constants := ⟨⟨0⟩, ⟨1⟩⟩
    let op : Operation := .add ⟨[⟨2⟩, ⟨3⟩], true⟩ ⟨[⟨2⟩], false⟩
    ∃ low lowAfter n after, (Descriptor.synthesize constants ⟨op, 1⟩).run ⟨4⟩ = (.ok low, lowAfter) ∧
      (Descriptor.synthesize constants ⟨op, 3⟩).run ⟨4⟩ = (.ok n, after) ∧
      low.gates = [.halfAdder ⟨2⟩ ⟨2⟩ ⟨4⟩ ⟨5⟩] ∧ low.gates <+: n.gates ∧ low.resultBits = n.resultBits.take 1 := by
  intro constants op
  obtain ⟨n, after, h, -⟩ := Descriptor.synthesize_exact constants ⟨op, 3⟩ ⟨4⟩ (by decide) (by decide)
  obtain ⟨hboth, hstart, -⟩ := narrower_is_start constants op ⟨4⟩ 1 3 (by decide) (by decide)
  obtain ⟨low, lowAfter, hlow⟩ := hboth.2 ⟨n, after, h⟩
  refine ⟨low, lowAfter, n, after, hlow, h, ?_, hstart low lowAfter n after hlow h⟩
  cases hlow
  decide

end RippleCarry
