import RippleCarry.Proofs.Batches
import RippleCarry.Proofs.StraightLine
/-!
# Operations that fail

An operation is refused when its result or one of its operands has no bits, and for no other reason
(`Refused`). A bus without bits fails at every position and any other bus at none, so it is position 0
that decides (`Bus.bit_of_empty`).

An operation reads all of its positions before it places a gate. `Draft.chainInTurn` goes another way:
it places the gates of a position before it reads the next one, and a failure half way would leave them
behind. `Call.placeInTurn_eq`: the two ways come to the same.

`synthesis_all_or_nothing`: what fails, with which error, and that it leaves the draft and the allocator
as they were, on either way.
-/

namespace RippleCarry

/-! ## What is refused -/

/-- The error for a result of the given width on the given operands. A result without bits is noticed
before an operand without bits, and that at position 0. -/
def Refused (width : Nat) (buses : List Bus) (e : SynthesisError) : Prop :=
  (width = 0 ∧ e = .emptyResult) ∨ (0 < width ∧ (∃ bus ∈ buses, bus.bits = []) ∧ e = .emptyBus 0)

theorem eq_error_iff_refused {α : Type} {x : Except SynthesisError α} {width : Nat} {buses : List Bus}
    (hzero : width = 0 → x = .error .emptyResult)
    (hempty : 0 < width → (∃ bus ∈ buses, bus.bits = []) → x = .error (.emptyBus 0))
    (hok : 0 < width → (∀ bus ∈ buses, bus.bits ≠ []) → ∃ a, x = .ok a) (e : SynthesisError) :
    x = .error e ↔ Refused width buses e := by
  unfold Refused
  rcases Nat.eq_zero_or_pos width with hw | hw
  · rw [hzero hw]
    simp [hw, eq_comm]
  · by_cases hb : ∃ bus ∈ buses, bus.bits = []
    · rw [hempty hw hb]
      simp only [Except.error.injEq, hb, hw, true_and, Nat.ne_of_gt hw, false_and, false_or]
      exact eq_comm
    · obtain ⟨a, rfl⟩ := hok hw fun bus hm he => hb ⟨bus, hm, he⟩
      simp [hb, Nat.ne_of_gt hw]

theorem exists_refused_iff {width : Nat} {buses : List Bus} :
    (∃ e, Refused width buses e) ↔ width = 0 ∨ ∃ bus ∈ buses, bus.bits = [] := by
  constructor
  · rintro ⟨e, ⟨hw, -⟩ | ⟨-, hb, -⟩⟩
    · exact .inl hw
    · exact .inr hb
  · intro h
    rcases Nat.eq_zero_or_pos width with hw | hw
    · exact ⟨_, .inl ⟨hw, rfl⟩⟩
    · exact ⟨_, .inr ⟨hw, h.resolve_left (Nat.ne_of_gt hw), rfl⟩⟩

/-- The error of a refused operation is fixed by the width. -/
theorem Refused.eq {width : Nat} {buses : List Bus} {e : SynthesisError} (h : Refused width buses e) :
    e = if width = 0 then .emptyResult else .emptyBus 0 := by
  rcases h with ⟨hw, rfl⟩ | ⟨hw, -, rfl⟩
  · rw [if_pos hw]
  · rw [if_neg (Nat.ne_of_gt hw)]

theorem error_pair_iff {α β σ : Type} {e e' : SynthesisError} {s s' : σ} :
    ((.error e', s) : Except SynthesisError α × σ) = (.error e, s') ↔
      (.error e' : Except SynthesisError β) = .error e ∧ s' = s := by
  simp [eq_comm]

namespace Bus

theorem bit_of_empty {bus : Bus} (h : bus.bits = []) (constants : Constants) (position : Nat) :
    bus.bit constants position = .error (.emptyBus position) := by
  simp [bit, h]

theorem extend_of_empty {bus : Bus} (h : bus.bits = []) (constants : Constants) {width : Nat} (hw : 0 < width) :
    bus.extend constants width = .error (.emptyBus 0) := by
  obtain ⟨k, rfl⟩ := Nat.exists_eq_add_of_lt hw
  rw [extend, Nat.zero_add, List.range_succ_eq_map, List.mapM_cons, bit_of_empty h]
  rfl

end Bus

namespace Ripple

variable {constants : Constants} {a b : Bus} {width : Nat}

theorem extend_both_of_empty {f : List Signal → List Signal → Except SynthesisError Ripple} (hw : 0 < width)
    (h : a.bits = [] ∨ b.bits = []) :
    (do let as ← a.extend constants width; let bs ← b.extend constants width; f as bs) = .error (.emptyBus 0) := by
  by_cases ha : a.bits = []
  · rw [Bus.extend_of_empty ha constants hw]
    rfl
  · rw [Bus.extend_eq ha, Bus.extend_of_empty (h.resolve_left ha) constants hw]
    rfl

theorem ofAdd_of_empty (hw : 0 < width) (h : a.bits = [] ∨ b.bits = []) :
    ofAdd constants a b width = .error (.emptyBus 0) := by
  rw [ofAdd, requireWidth_pos hw]
  exact extend_both_of_empty hw h

theorem ofSubtract_of_empty (hw : 0 < width) (h : a.bits = [] ∨ b.bits = []) :
    ofSubtract constants a b width = .error (.emptyBus 0) := by
  rw [ofSubtract, requireWidth_pos hw]
  exact extend_both_of_empty hw h

theorem ofIncrement_of_empty {seed : Signal} (hw : 0 < width) (h : a.bits = []) :
    ofIncrement constants a seed width = .error (.emptyBus 0) := by
  rw [ofIncrement, requireWidth_pos hw, Bus.extend_of_empty h constants hw]
  rfl

end Ripple

/-- A call has no ripple exactly when it is refused. -/
theorem Call.ripple_eq_error_iff (constants : Constants) (c : Call) (e : SynthesisError) :
    c.ripple constants = .error e ↔ Refused c.width c.buses e := by
  apply eq_error_iff_refused
  · intro hw
    cases c <;> cases hw <;> rfl
  · intro hw hb
    cases c with
    | add a b width => exact Ripple.ofAdd_of_empty hw (by simpa [buses] using hb)
    | subtract a b width => exact Ripple.ofSubtract_of_empty hw (by simpa [buses] using hb)
    | increment a seed width => exact Ripple.ofIncrement_of_empty hw (by simpa [buses] using hb)
  · intro hw hb
    exact (exists_ripple_iff constants).2 ⟨hw, hb⟩

/-- An operation has no ripple exactly when it is refused. Its literal is read before its first operand,
but both fail alike. -/
theorem Operation.ripple_eq_error_iff (constants : Constants) (op : Operation) (width : Nat) (e : SynthesisError) :
    op.ripple constants width = .error e ↔ Refused width op.operands e := by
  apply eq_error_iff_refused
  · rintro rfl
    cases op <;> rfl
  · intro hw hb
    cases op with
    | add a b => exact Ripple.ofAdd_of_empty hw (by simpa [operands, first, second] using hb)
    | subtract a b => exact Ripple.ofSubtract_of_empty hw (by simpa [operands, first, second] using hb)
    | increment a literal =>
      rw [ripple, Ripple.requireWidth_pos hw]
      cases literal with
      | none =>
        have ha : a.bits = [] := by simpa [operands, first, second] using hb
        exact Ripple.ofIncrement_of_empty hw ha
      | some literal =>
        have hb : a.bits = [] ∨ literal.bits = [] := by simpa [operands, first, second] using hb
        by_cases hl : literal.bits = []
        · rw [incrementSeed, Bus.bit_of_empty hl]
          rfl
        · rw [incrementSeed_some hl]
          exact Ripple.ofIncrement_of_empty hw (hb.resolve_right hl)
  · exact exists_ripple constants

theorem Operation.fits_of_ripple {op : Operation} {constants : Constants} {width : Nat} {r : Ripple}
    (h : op.ripple constants width = .ok r) : 0 < width ∧ ∀ bus ∈ op.operands, bus.bits ≠ [] := by
  have hok : ¬ ∃ e, Refused width op.operands e := by
    rintro ⟨e, he⟩
    rw [(ripple_eq_error_iff constants op width e).2 he] at h
    cases h
  rw [exists_refused_iff, not_or, not_exists] at hok
  exact ⟨Nat.pos_of_ne_zero hok.1, fun bus hb he => hok.2 bus ⟨hb, he⟩⟩

/-! ## Positions in turn -/

namespace Draft

variable {α β : Type}

/-- Goes on with what was read, or fails. -/
def check (x : Except SynthesisError α) : Build α := ExceptT.mk (pure x)

/-- Runs a step of construction, which does not fail. -/
def perform (step : Emit α) : Build α := ExceptT.lift (run step)

/-- Reads the positions and places their stages in turn, each stage before the next position is read. A
stage is told the number of its position. -/
def chainInTurn (read : Nat → Except SynthesisError α) (stage : Nat → α → Signal → Emit Emit.SumCarry)
    (carry : Signal) : List Nat → Build (List Emit.SumCarry)
  | [] => return []
  | i :: rest => do
    let position ← check (read i)
    let out ← perform (stage i position carry)
    let outs ← chainInTurn read stage out.carry rest
    return out :: outs

/-- The sum bits of the stages at the first positions, read and placed in turn. -/
def sumsInTurn (read : Nat → Except SynthesisError α) (stage : Nat → α → Signal → Emit Emit.SumCarry)
    (carry : Signal) (width : Nat) : Build (List Signal) := do
  check (Ripple.requireWidth width)
  let outs ← chainInTurn read stage carry (List.range width)
  return outs.map Emit.SumCarry.sum

/-- The signals of two buses at a position, the first bus first. -/
def readBoth (constants : Constants) (a b : Bus) (position : Nat) : Except SynthesisError (Signal × Signal) := do
  let x ← a.bit constants position
  let y ← b.bit constants position
  return (x, y)

end Draft

/-- Adds the two signals of a position to the carry, of which there is none at position 0. -/
def Ripple.numberedAddStage (i : Nat) (position : Signal × Signal) (carry : Signal) : Emit Emit.SumCarry :=
  if i = 0 then Emit.halfAdder position.1 position.2 else addStage position carry

/-- Carries out the call position by position. -/
def Call.placeInTurn (constants : Constants) : Call → Build (List Signal)
  | add a b width => Draft.sumsInTurn (Draft.readBoth constants a b) Ripple.numberedAddStage constants.zero width
  | subtract a b width =>
    Draft.sumsInTurn (Draft.readBoth constants a b) (fun _ => Ripple.subtractStage) constants.one width
  | increment a seed width => Draft.sumsInTurn (a.bit constants) (fun _ => Ripple.incrementStage) seed width

/-- The netlist of a descriptor on an empty draft, position by position. -/
def Descriptor.synthesizeInTurn (constants : Constants) (d : Descriptor) : Build Netlist := do
  Draft.check (Ripple.requireWidth d.resultWidth)
  let bits ← match d.op with
    | .add a b => (Call.add a b d.resultWidth).placeInTurn constants
    | .subtract a b => (Call.subtract a b d.resultWidth).placeInTurn constants
    | .increment a literal => do
      let seed ← Draft.check (incrementSeed constants literal)
      (Call.increment a seed d.resultWidth).placeInTurn constants
  return ⟨(← get).gates, bits⟩

/-! ## In turn or all at once -/

namespace Draft

variable {α β : Type}

theorem perform_pure (a : α) : perform (pure a) = pure a := by
  funext d
  show (Except.ok a, Draft.mk d.allocator (d.gates ++ [])) = (Except.ok a, d)
  rw [List.append_nil]

theorem perform_bind (first : Emit α) (rest : α → Emit β) :
    perform (first >>= rest) = perform first >>= fun a => perform (rest a) := by
  funext d
  show (_, Draft.mk _ _) = (_, Draft.mk _ _)
  simp only [Emit.bind_apply, List.append_assoc]

theorem perform_map (f : α → β) (step : Emit α) : perform (f <$> step) = f <$> perform step := rfl

theorem place_ok (r : Ripple) : place (.ok r) = perform r.emit := rfl

/-- Where every position can be read, the stages come out as if all had been read before. -/
theorem chainInTurn_eq {read : Nat → Except SynthesisError α} {position : Nat → α}
    (h : ∀ i, read i = .ok (position i)) (stage : Nat → α → Signal → Emit Emit.SumCarry) (carry : Signal)
    (l : List Nat) :
    chainInTurn read stage carry l =
      perform (Ripple.chain (fun i => stage i (position i)) carry l) := by
  induction l generalizing carry with
  | nil => exact (perform_pure []).symm
  | cons i rest ih =>
    have hstep : chainInTurn read stage carry (i :: rest) = (do
        let out ← perform (stage i (position i) carry)
        let outs ← chainInTurn read stage out.carry rest
        return out :: outs) := by
      rw [chainInTurn, h i]
      rfl
    rw [hstep, Ripple.chain, perform_bind]
    congr 1
    funext out
    rw [ih, perform_map]
    rfl

theorem sumsInTurn_zero (read : Nat → Except SynthesisError α) (stage : Nat → α → Signal → Emit Emit.SumCarry)
    (carry : Signal) : sumsInTurn read stage carry 0 = throw .emptyResult := rfl

theorem sumsInTurn_eq {read : Nat → Except SynthesisError α} {position : Nat → α} {width : Nat} (hw : 0 < width)
    (h : ∀ i, read i = .ok (position i)) (stage : Nat → α → Signal → Emit Emit.SumCarry) (carry : Signal) :
    sumsInTurn read stage carry width =
      perform ((·.map Emit.SumCarry.sum) <$> Ripple.chain (fun i => stage i (position i)) carry (List.range width)) := by
  rw [sumsInTurn, Ripple.requireWidth_pos hw, chainInTurn_eq h]
  rfl

/-- It is the first position that fails, with no gate placed. -/
theorem sumsInTurn_error {read : Nat → Except SynthesisError α} {e : SynthesisError} {width : Nat} (hw : 0 < width)
    (h : read 0 = .error e) (stage : Nat → α → Signal → Emit Emit.SumCarry) (carry : Signal) :
    sumsInTurn read stage carry width = throw e := by
  obtain ⟨k, rfl⟩ := Nat.exists_eq_add_of_lt hw
  rw [sumsInTurn, Ripple.requireWidth_pos hw, Nat.zero_add, List.range_succ_eq_map, chainInTurn, h]
  rfl

end Draft

/-- The signal at a position of a bus that has bits. -/
def Bus.signalAt (bus : Bus) (constants : Constants) (position : Nat) : Signal :=
  bus.bits[position]?.getD (bus.fill constants)

theorem Bus.extend_eq_map {bus : Bus} (h : bus.bits ≠ []) (constants : Constants) (width : Nat) :
    bus.extend constants width = .ok ((List.range width).map (bus.signalAt constants)) := by
  rw [extend, funext (bit_eq h constants)]
  exact List.mapM_pure

namespace Draft

theorem readBoth_eq {a b : Bus} (ha : a.bits ≠ []) (hb : b.bits ≠ []) (constants : Constants) (i : Nat) :
    readBoth constants a b i = .ok (a.signalAt constants i, b.signalAt constants i) := by
  rw [readBoth, Bus.bit_eq ha, Bus.bit_eq hb]
  rfl

theorem readBoth_of_empty {a b : Bus} (h : a.bits = [] ∨ b.bits = []) (constants : Constants) (i : Nat) :
    readBoth constants a b i = .error (.emptyBus i) := by
  rw [readBoth]
  by_cases ha : a.bits = []
  · rw [Bus.bit_of_empty ha]
    rfl
  · rw [Bus.bit_eq ha, Bus.bit_of_empty (h.resolve_left ha)]
    rfl

end Draft

namespace Ripple

theorem chain_map {α β : Type} (stage : β → Signal → Emit Emit.SumCarry) (g : α → β) (carry : Signal) (l : List α) :
    chain stage carry (l.map g) = chain (fun x => stage (g x)) carry l := by
  induction l generalizing carry with
  | nil => rfl
  | cons x rest ih => simp only [List.map_cons, chain, ih]

theorem ofAdd_eq {a b : Bus} {width : Nat} (constants : Constants) (hw : 0 < width) (ha : a.bits ≠ [])
    (hb : b.bits ≠ []) :
    ofAdd constants a b width =
      .ok (.add ((List.range width).map fun i => (a.signalAt constants i, b.signalAt constants i))) := by
  rw [ofAdd, requireWidth_pos hw, Bus.extend_eq_map ha, Bus.extend_eq_map hb, ← List.zip_map']
  rfl

theorem ofSubtract_eq {a b : Bus} {width : Nat} (constants : Constants) (hw : 0 < width) (ha : a.bits ≠ [])
    (hb : b.bits ≠ []) :
    ofSubtract constants a b width = .ok (.subtract constants.one
      ((List.range width).map fun i => (a.signalAt constants i, b.signalAt constants i))) := by
  rw [ofSubtract, requireWidth_pos hw, Bus.extend_eq_map ha, Bus.extend_eq_map hb, ← List.zip_map']
  rfl

theorem ofIncrement_eq {a : Bus} {width : Nat} (constants : Constants) (seed : Signal) (hw : 0 < width)
    (ha : a.bits ≠ []) :
    ofIncrement constants a seed width = .ok (.increment seed ((List.range width).map (a.signalAt constants))) := by
  rw [ofIncrement, requireWidth_pos hw, Bus.extend_eq_map ha]
  rfl

/-- The stages of an addition by number: a half adder at position 0, so that the carry is first used at
position 1. -/
theorem stages_add_eq (position : Nat → Signal × Signal) (carry : Signal) {width : Nat} (hw : 0 < width) :
    (add ((List.range width).map position)).stages =
      chain (fun i => numberedAddStage i (position i)) carry (List.range width) := by
  obtain ⟨k, rfl⟩ := Nat.exists_eq_add_of_lt hw
  rw [Nat.zero_add, List.range_succ_eq_map, List.map_cons, stages, chain]
  simp only [List.map_map, chain_map]
  rfl

end Ripple

namespace Call

theorem placeInTurn_of_refused {c : Call} {e : SynthesisError} (h : Refused c.width c.buses e)
    (constants : Constants) : c.placeInTurn constants = throw e := by
  rcases h with ⟨hw, rfl⟩ | ⟨hw, hb, rfl⟩
  · cases c <;> cases hw <;> exact Draft.sumsInTurn_zero _ _ _
  · cases c with
    | add a b width =>
      exact Draft.sumsInTurn_error hw (Draft.readBoth_of_empty (by simpa [buses] using hb) constants 0) _ _
    | subtract a b width =>
      exact Draft.sumsInTurn_error hw (Draft.readBoth_of_empty (by simpa [buses] using hb) constants 0) _ _
    | increment a seed width =>
      exact Draft.sumsInTurn_error hw (Bus.bit_of_empty (by simpa [buses] using hb) constants 0) _ _

theorem placeInTurn_of_fits {c : Call} (h : c.Fits) (constants : Constants) :
    c.placeInTurn constants = c.place constants := by
  obtain ⟨hw, hb⟩ := h
  rw [place_eq]
  cases c with
  | add a b width =>
    have hw : 0 < width := hw
    have ha : a.bits ≠ [] := hb a (by simp [buses])
    have hb : b.bits ≠ [] := hb b (by simp [buses])
    rw [ripple, Ripple.ofAdd_eq constants hw ha hb, Draft.place_ok, Ripple.emit,
      Ripple.stages_add_eq _ constants.zero hw]
    exact Draft.sumsInTurn_eq hw (Draft.readBoth_eq ha hb constants) _ _
  | subtract a b width =>
    have hw : 0 < width := hw
    have ha : a.bits ≠ [] := hb a (by simp [buses])
    have hb : b.bits ≠ [] := hb b (by simp [buses])
    rw [ripple, Ripple.ofSubtract_eq constants hw ha hb, Draft.place_ok, Ripple.emit, Ripple.stages, Ripple.chain_map]
    exact Draft.sumsInTurn_eq hw (Draft.readBoth_eq ha hb constants) _ _
  | increment a seed width =>
    have hw : 0 < width := hw
    have ha : a.bits ≠ [] := hb a (by simp [buses])
    rw [ripple, Ripple.ofIncrement_eq constants seed hw ha, Draft.place_ok, Ripple.emit, Ripple.stages,
      Ripple.chain_map]
    exact Draft.sumsInTurn_eq hw (Bus.bit_eq ha constants) _ _

/-- Position by position, a call does what it does all at once. -/
theorem placeInTurn_eq (constants : Constants) (c : Call) : c.placeInTurn constants = c.place constants := by
  cases hr : c.ripple constants with
  | ok r => exact placeInTurn_of_fits ((exists_ripple_iff constants).1 ⟨r, hr⟩) constants
  | error e =>
    rw [placeInTurn_of_refused ((ripple_eq_error_iff constants c e).1 hr), place_eq, hr]
    rfl

theorem place_error_iff (constants : Constants) (c : Call) (draft after : Draft) (e : SynthesisError) :
    (c.place constants).run draft = (.error e, after) ↔ Refused c.width c.buses e ∧ after = draft := by
  rw [← ripple_eq_error_iff constants, place_eq]
  cases c.ripple constants with
  | ok r => exact iff_of_false (fun h => by cases congrArg Prod.fst h) (by simp)
  | error e' => exact error_pair_iff

end Call

namespace Descriptor

theorem synthesize_error_iff (constants : Constants) (d : Descriptor) (alloc after : Allocator) (e : SynthesisError) :
    (d.synthesize constants).run alloc = (.error e, after) ↔ Refused d.resultWidth d.op.operands e ∧ after = alloc := by
  rw [← Operation.ripple_eq_error_iff constants]
  cases hr : d.op.ripple constants d.resultWidth with
  | ok r =>
    rw [synthesize_eq hr]
    exact iff_of_false (fun h => by cases congrArg Prod.fst h) (by simp)
  | error e' =>
    rw [synthesize_error hr]
    exact error_pair_iff

theorem synthesizeInTurn_eq_place (constants : Constants) (d : Descriptor) :
    d.synthesizeInTurn constants = (do
      let bits ← Draft.place (d.op.ripple constants d.resultWidth)
      return ⟨(← get).gates, bits⟩) := by
  obtain ⟨op, width⟩ := d
  unfold synthesizeInTurn
  simp only [Call.placeInTurn_eq]
  cases width with
  | zero => cases op <;> rfl
  | succ k =>
    cases op with
    | add a b => rfl
    | subtract a b => rfl
    | increment a literal =>
      simp only [Operation.ripple]
      cases incrementSeed constants literal <;> rfl

/-- On an empty draft, position by position, a descriptor gets the netlist or the error that it gets all
at once, and takes the same ids. -/
theorem synthesizeInTurn_eq (constants : Constants) (d : Descriptor) (alloc : Allocator) :
    Prod.map id Draft.allocator ((d.synthesizeInTurn constants).run ⟨alloc, []⟩) =
      (d.synthesize constants).run alloc := by
  rw [synthesizeInTurn_eq_place, synthesize]
  cases d.op.ripple constants d.resultWidth <;> rfl

end Descriptor

/-- Synthesis fails exactly where bits are missing, and then changes nothing. A descriptor has no netlist
exactly when its result or one of its operands has no bits; the error names the result if that is it, and
otherwise position 0 of an operand; and the allocator stays where it was. A call on a draft, whatever gates
are on it, fails likewise and leaves the gates and the allocator as they were. Both hold as well when every
stage is placed before the next position is read. -/
theorem synthesis_all_or_nothing (constants : Constants) (d : Descriptor) (alloc : Allocator) (c : Call)
    (draft : Draft) :
    ((∃ e after, (d.synthesize constants).run alloc = (.error e, after)) ↔
      d.resultWidth = 0 ∨ ∃ bus ∈ d.op.operands, bus.bits = []) ∧
    (∀ e after, (d.synthesize constants).run alloc = (.error e, after) →
      e = (if d.resultWidth = 0 then .emptyResult else .emptyBus 0) ∧ after = alloc) ∧
    ((∃ e after, (c.place constants).run draft = (.error e, after)) ↔
      c.width = 0 ∨ ∃ bus ∈ c.buses, bus.bits = []) ∧
    (∀ e after, (c.place constants).run draft = (.error e, after) →
      e = (if c.width = 0 then .emptyResult else .emptyBus 0) ∧ after = draft) ∧
    Prod.map id Draft.allocator ((d.synthesizeInTurn constants).run ⟨alloc, []⟩) = (d.synthesize constants).run alloc ∧
    c.placeInTurn constants = c.place constants := by
  refine ⟨?_, fun e after h => ?_, ?_, fun e after h => ?_, d.synthesizeInTurn_eq constants alloc,
    c.placeInTurn_eq constants⟩
  · simp only [Descriptor.synthesize_error_iff, exists_and_left, exists_eq, and_true]
    exact exists_refused_iff
  · obtain ⟨hr, hafter⟩ := (d.synthesize_error_iff constants alloc after e).1 h
    exact ⟨hr.eq, hafter⟩
  · simp only [Call.place_error_iff, exists_and_left, exists_eq, and_true]
    exact exists_refused_iff
  · obtain ⟨hr, hafter⟩ := (c.place_error_iff constants draft after e).1 h
    exact ⟨hr.eq, hafter⟩

/-- A difference whose second operand has no bits, on a draft with a gate: the first operand reads at every
position, and still nothing is placed. -/
theorem synthesis_all_or_nothing_second_empty :
    let constants : Constants := ⟨⟨0⟩, ⟨1⟩⟩
    let c : Call := .subtract ⟨[⟨2⟩, ⟨3⟩], true⟩ ⟨[], false⟩ 3
    let draft : Draft := ⟨⟨5⟩, [.not ⟨2⟩ ⟨4⟩]⟩
    (c.place constants).run draft = (.error (.emptyBus 0), draft) ∧
      (c.placeInTurn constants).run draft = (.error (.emptyBus 0), draft) := by
  intro constants c draft
  obtain ⟨-, -, hfails, herror, -, hturn⟩ :=
    synthesis_all_or_nothing constants ⟨.increment ⟨[⟨2⟩], false⟩ none, 0⟩ ⟨5⟩ c draft
  obtain ⟨e, after, h⟩ := hfails.2 (.inr ⟨⟨[], false⟩, by decide, rfl⟩)
  obtain ⟨rfl, rfl⟩ := herror e after h
  rw [hturn]
  exact ⟨h, h⟩

end RippleCarry
