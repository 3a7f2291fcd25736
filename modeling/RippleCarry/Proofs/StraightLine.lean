import RippleCarry.Proofs.Layout
import RippleCarry.Proofs.Operations
/-!
# Straight-line programs

A program allocates primary signals and calls for sums, differences and increments, all on one draft
and in any order. A call may use any signal that is there by then, the results of earlier calls
included. A `History` is what a program leaves behind.

`History.run_inv` is what every legal program keeps, by `History.step_inv` step by step.
`straightLine_exact`: while the ids handed out are new, the netlist of the whole draft evaluates, and
in that one evaluation every call returns the integer that it stands for.
-/

namespace RippleCarry

/-- A call for gates on a draft. -/
inductive Call where
  | add (a b : Bus) (width : Nat)
  | subtract (a b : Bus) (width : Nat)
  | increment (a : Bus) (seed : Signal) (width : Nat)
deriving DecidableEq, Repr

namespace Call

def place (constants : Constants) : Call → Build (List Signal)
  | add a b width => Draft.add constants a b width
  | subtract a b width => Draft.subtract constants a b width
  | increment a seed width => Draft.increment constants a seed width

def buses : Call → List Bus
  | add a b _ => [a, b]
  | subtract a b _ => [a, b]
  | increment a _ _ => [a]

/-- The signals that the caller hands in. -/
def signals : Call → List Signal
  | add a b _ => a.bits ++ b.bits
  | subtract a b _ => a.bits ++ b.bits
  | increment a seed _ => seed :: a.bits

def width : Call → Nat
  | add _ _ width => width
  | subtract _ _ width => width
  | increment _ _ width => width

/-- The integer that the call stands for. -/
def value (σ : Assignment) : Call → Int
  | add a b _ => a.value σ + b.value σ
  | subtract a b _ => a.value σ - b.value σ
  | increment a seed _ => a.value σ + (σ seed).toNat

/-- The result and the operands all have bits. -/
def Fits (c : Call) : Prop := 0 < c.width ∧ ∀ bus ∈ c.buses, bus.bits ≠ []

instance (c : Call) : Decidable c.Fits :=
  inferInstanceAs (Decidable (0 < c.width ∧ ∀ bus ∈ c.buses, bus.bits ≠ []))

end Call

/-- A call that was carried out, with the bits that it returned. -/
structure Outcome where
  call : Call
  bits : List Signal
deriving DecidableEq, Repr

inductive Instruction where
  | allocate (count : Nat)
  | call (c : Call)
deriving DecidableEq, Repr

/-- Not a call that fails. -/
def Instruction.Fits : Instruction → Prop
  | allocate _ => True
  | call c => c.Fits

instance : (i : Instruction) → Decidable i.Fits
  | .allocate _ => .isTrue trivial
  | .call c => inferInstanceAs (Decidable c.Fits)

/-- The call that the instruction gets carried out, if it does. -/
def Instruction.fitting : Instruction → Option Call
  | allocate _ => none
  | call c => if c.Fits then some c else none

/-- What a program leaves: the draft, the primaries allocated, and the calls carried out. -/
structure History where
  draft : Draft
  primaries : List Signal
  outcomes : List Outcome
deriving DecidableEq, Repr

namespace History

def start (alloc : Allocator) : History := ⟨⟨alloc, []⟩, [], []⟩

/-- The bits that calls returned. -/
def returned (h : History) : List Signal := h.outcomes.flatMap Outcome.bits

/-- Every signal that a call may use. -/
def available (constants : Constants) (h : History) : List Signal :=
  constants.zero :: constants.one :: (h.primaries ++ h.returned)

/-- The number of ids handed out: one per primary and one per signal that a gate drives. -/
def count (h : History) : Nat := h.primaries.length + (drivenBy h.draft.gates).length

/-- The ids handed out since the allocator stood at `alloc`. `Inv.ids` says what became of them. -/
def issued (alloc : Allocator) (h : History) : List Signal := alloc.block h.count

/-- Carries out an instruction. What a call leaves on the draft stays, also when it fails. -/
def step (constants : Constants) (h : History) : Instruction → History
  | .allocate count =>
    let (signals, draft) := Draft.run (Emit.freshList count) h.draft
    ⟨draft, h.primaries ++ signals, h.outcomes⟩
  | .call c =>
    match (c.place constants).run h.draft with
    | (.ok bits, draft) => ⟨draft, h.primaries, h.outcomes ++ [⟨c, bits⟩]⟩
    | (.error _, draft) => ⟨draft, h.primaries, h.outcomes⟩

def run (constants : Constants) (h : History) (program : List Instruction) : History :=
  program.foldl (step constants) h

end History

/-- The instruction uses only signals that are there. -/
def Instruction.Legal (constants : Constants) (h : History) : Instruction → Prop
  | allocate _ => True
  | call c => c.signals ⊆ h.available constants

/-- Every instruction uses only signals that are there when its turn comes. -/
def Legal (constants : Constants) : History → List Instruction → Prop
  | _, [] => True
  | h, i :: rest => i.Legal constants h ∧ Legal constants (h.step constants i) rest

instance (constants : Constants) (h : History) : (i : Instruction) → Decidable (i.Legal constants h)
  | .allocate _ => .isTrue trivial
  | .call c => inferInstanceAs (Decidable (∀ s ∈ c.signals, s ∈ h.available constants))

instance decidableLegal (constants : Constants) : (h : History) → (program : List Instruction) →
    Decidable (Legal constants h program)
  | _, [] => .isTrue trivial
  | h, i :: rest =>
    have := decidableLegal constants (h.step constants i) rest
    inferInstanceAs (Decidable (i.Legal constants h ∧ Legal constants (h.step constants i) rest))

/-! ## Calls -/

namespace Call

/-- The ripple of a call. -/
def ripple (constants : Constants) : Call → Except SynthesisError Ripple
  | add a b width => Ripple.ofAdd constants a b width
  | subtract a b width => Ripple.ofSubtract constants a b width
  | increment a seed width => Ripple.ofIncrement constants a seed width

theorem place_eq (constants : Constants) (c : Call) : c.place constants = Draft.place (c.ripple constants) := by
  cases c <;> rfl

theorem ripple_computes {constants : Constants} {c : Call} {r : Ripple} (h : c.ripple constants = .ok r) :
    r.Computes constants c.width fun σ => c.value σ := by
  cases c with
  | add a b width => exact Ripple.ofAdd_computes h
  | subtract a b width => exact Ripple.ofSubtract_computes h
  | increment a seed width => exact Ripple.ofIncrement_computes h

theorem ripple_inputs {constants : Constants} {c : Call} {r : Ripple} (h : c.ripple constants = .ok r) :
    r.inputs ⊆ constants.zero :: constants.one :: c.signals := by
  cases c with
  | add a b width =>
    refine List.Subset.trans (Ripple.ofAdd_inputs h) fun s hs => ?_
    rcases List.mem_cons.1 hs with rfl | hs
    · exact List.mem_cons_self
    · exact List.mem_cons_of_mem _ (List.mem_cons_of_mem _ hs)
  | subtract a b width =>
    refine List.Subset.trans (Ripple.ofSubtract_inputs h) fun s hs => ?_
    simp only [signals, List.mem_cons] at hs ⊢
    rcases hs with hs | hs | hs
    · exact .inr (.inl hs)
    · exact .inl hs
    · exact .inr (.inr hs)
  | increment a seed width =>
    refine List.Subset.trans (Ripple.ofIncrement_inputs h) fun s hs => ?_
    simp only [signals, List.mem_cons] at hs ⊢
    rcases hs with hs | hs | hs
    · exact .inr (.inr (.inl hs))
    · exact .inl hs
    · exact .inr (.inr (.inr hs))

/-- A call is carried out exactly when the result and the operands have bits. -/
theorem exists_ripple_iff (constants : Constants) {c : Call} : (∃ r, c.ripple constants = .ok r) ↔ c.Fits := by
  constructor
  · rintro ⟨r, h⟩
    cases c with
    | add a b width =>
      obtain ⟨hw, as, bs, ha, hb, -⟩ := Ripple.ofAdd_ok h
      exact ⟨hw, by simp [buses, Bus.nonempty_of_extend ha hw, Bus.nonempty_of_extend hb hw]⟩
    | subtract a b width =>
      obtain ⟨hw, as, bs, ha, hb, -⟩ := Ripple.ofSubtract_ok h
      exact ⟨hw, by simp [buses, Bus.nonempty_of_extend ha hw, Bus.nonempty_of_extend hb hw]⟩
    | increment a seed width =>
      obtain ⟨hw, as, ha, -⟩ := Ripple.ofIncrement_ok h
      exact ⟨hw, by simp [buses, Bus.nonempty_of_extend ha hw]⟩
  · rintro ⟨hw, hb⟩
    cases c with
    | add a b width => exact Ripple.exists_ofAdd constants hw (hb a (by simp [buses])) (hb b (by simp [buses]))
    | subtract a b width =>
      exact Ripple.exists_ofSubtract constants hw (hb a (by simp [buses])) (hb b (by simp [buses]))
    | increment a seed width => exact Ripple.exists_ofIncrement constants seed hw (hb a (by simp [buses]))

end Call

/-! ## What an instruction does -/

namespace History

theorem run_cons (constants : Constants) (h : History) (i : Instruction) (rest : List Instruction) :
    h.run constants (i :: rest) = (h.step constants i).run constants rest := rfl

theorem step_allocate (constants : Constants) (h : History) (count : Nat) :
    h.step constants (.allocate count) =
      ⟨⟨h.draft.allocator.skip count, h.draft.gates⟩, h.primaries ++ h.draft.allocator.block count, h.outcomes⟩ := by
  rw [step, Draft.run, Emit.freshList_apply, List.append_nil]

theorem step_call {constants : Constants} (h : History) {c : Call} {r : Ripple} (hr : c.ripple constants = .ok r) :
    h.step constants (.call c) =
      ⟨⟨(r.emit h.draft.allocator).allocator, h.draft.gates ++ (r.emit h.draft.allocator).gates⟩, h.primaries,
        h.outcomes ++ [⟨c, (r.emit h.draft.allocator).value⟩]⟩ := by
  rw [step, Call.place_eq, hr]
  rfl

/-- A call that is not carried out leaves everything as it was. -/
theorem step_unfit {constants : Constants} (h : History) {c : Call} (hc : ¬ c.Fits) :
    h.step constants (.call c) = h := by
  cases hr : c.ripple constants with
  | ok r => exact absurd ((Call.exists_ripple_iff constants).1 ⟨r, hr⟩) hc
  | error e =>
    rw [step, Call.place_eq, hr]
    rfl

/-- Calls that fail can be left out of a program. -/
theorem run_filter (constants : Constants) (h : History) (program : List Instruction) :
    h.run constants (program.filter fun i => i.Fits) = h.run constants program := by
  induction program generalizing h with
  | nil => rfl
  | cons i rest ih =>
    rw [List.filter_cons, run_cons]
    by_cases hf : i.Fits
    · rw [if_pos (decide_eq_true hf)]
      exact ih (h.step constants i)
    · rw [if_neg (by simpa using hf), ih]
      cases i with
      | allocate count => exact absurd trivial hf
      | call c => rw [step_unfit h hf]

/-- The calls carried out are those whose result and operands have bits, in order. -/
theorem run_outcomes (constants : Constants) (h : History) (program : List Instruction) :
    (h.run constants program).outcomes.map Outcome.call =
      h.outcomes.map Outcome.call ++ program.filterMap Instruction.fitting := by
  induction program generalizing h with
  | nil => simp [run]
  | cons i rest ih =>
    rw [run_cons, ih]
    cases i with
    | allocate count => rw [step_allocate, List.filterMap_cons]; rfl
    | call c =>
      by_cases hc : c.Fits
      · obtain ⟨r, hr⟩ := (Call.exists_ripple_iff constants).2 hc
        simp [step_call h hr, Instruction.fitting, hc]
      · simp [step_unfit h hc, Instruction.fitting, hc]

end History

/-! ## The invariant -/

/-- The gates of the call are among the given ones, and its bits are what they return. -/
def Outcome.Placed (constants : Constants) (gates : List Gate) (o : Outcome) : Prop :=
  ∃ r alloc, o.call.ripple constants = .ok r ∧ o.bits = (r.emit alloc).value ∧ (r.emit alloc).gates ⊆ gates

theorem Outcome.Placed.mono {constants : Constants} {p q : List Gate} {o : Outcome}
    (h : o.Placed constants p) (hs : p ⊆ q) : o.Placed constants q := by
  obtain ⟨r, alloc, hr, hb, hg⟩ := h
  exact ⟨r, alloc, hr, hb, List.Subset.trans hg hs⟩

theorem Outcome.Placed.driven {constants : Constants} {gates : List Gate} {o : Outcome}
    (h : o.Placed constants gates) : o.bits ⊆ drivenBy gates := by
  obtain ⟨r, alloc, -, hb, hg⟩ := h
  intro s hs
  rw [hb] at hs
  obtain ⟨g, hm, hs⟩ := List.mem_flatMap.1 (r.emit_drives alloc hs)
  exact List.mem_flatMap.2 ⟨g, hg hm, hs⟩

/-- In a solution of the gates a placed call returns the integer that it stands for. -/
theorem Outcome.Placed.exact {constants : Constants} {gates : List Gate} {o : Outcome} {σ : Assignment}
    (h : o.Placed constants gates) (hs : Satisfies σ gates) (hz : σ constants.zero = false)
    (ho : σ constants.one = true) :
    o.bits.length = o.call.width ∧ (bitsToNat (o.bits.map σ) : Int) = o.call.value σ % 2 ^ o.call.width := by
  obtain ⟨r, alloc, hr, hb, hg⟩ := h
  obtain ⟨hwidth, htotal⟩ := Call.ripple_computes hr
  rw [hb, Ripple.length_emit, Ripple.emit_value r alloc (hs.mono hg), hwidth, ← htotal σ hz ho]
  exact ⟨rfl, rfl⟩

namespace History

/-- What a legal program keeps: gates read what is there before them, every id handed out is a primary
or driven by a gate, the allocator stands right behind these ids, and every call carried out has its
gates on the draft. -/
structure Inv (constants : Constants) (alloc : Allocator) (h : History) : Prop where
  reads : Reads (constants.zero :: constants.one :: h.primaries) h.draft.gates
  ids : (h.primaries ++ drivenBy h.draft.gates).Perm (h.issued alloc)
  next : h.draft.allocator = alloc.skip h.count
  placed : ∀ o ∈ h.outcomes, o.Placed constants h.draft.gates

variable {constants : Constants} {alloc : Allocator} {h : History}

theorem start_inv (constants : Constants) (alloc : Allocator) : (start alloc).Inv constants alloc :=
  ⟨trivial, .refl _, alloc.skip_zero.symm, fun _ ho => by cases ho⟩

theorem Inv.returned_driven (hi : h.Inv constants alloc) : h.returned ⊆ drivenBy h.draft.gates := by
  intro s hs
  obtain ⟨o, ho, hs⟩ := List.mem_flatMap.1 hs
  exact (hi.placed o ho).driven hs

/-- What a call may use is there for a gate to read. -/
theorem Inv.available_known (hi : h.Inv constants alloc) :
    h.available constants ⊆ (constants.zero :: constants.one :: h.primaries) ++ drivenBy h.draft.gates := by
  intro s hs
  simp only [available, List.cons_append, List.mem_cons, List.mem_append] at hs ⊢
  rcases hs with hs | hs | hs | hs
  · exact .inl hs
  · exact .inr (.inl hs)
  · exact .inr (.inr (.inl hs))
  · exact .inr (.inr (.inr (hi.returned_driven hs)))

theorem allocate_inv (hi : h.Inv constants alloc) (count : Nat) :
    (h.step constants (.allocate count)).Inv constants alloc := by
  rw [step_allocate]
  have hcount : (h.primaries ++ h.draft.allocator.block count).length + (drivenBy h.draft.gates).length =
      h.count + count := by
    rw [History.count, List.length_append, Allocator.length_block]
    omega
  refine ⟨hi.reads.mono fun s hs => ?_, ?_, ?_, hi.placed⟩
  · rw [← List.cons_append, ← List.cons_append]
    exact List.mem_append_left _ hs
  · rw [issued, History.count, hcount, Allocator.block_append, ← hi.next]
    calc
      List.Perm ((h.primaries ++ h.draft.allocator.block count) ++ drivenBy h.draft.gates)
          (h.primaries ++ (drivenBy h.draft.gates ++ h.draft.allocator.block count)) := by
        rw [List.append_assoc]
        exact List.perm_append_comm.append_left _
      _ = (h.primaries ++ drivenBy h.draft.gates) ++ h.draft.allocator.block count :=
        (List.append_assoc ..).symm
      List.Perm _ (h.issued alloc ++ h.draft.allocator.block count) := hi.ids.append_right _
  · rw [History.count, hcount, hi.next, Allocator.skip_skip]

theorem call_inv (hi : h.Inv constants alloc) {c : Call} (hl : c.signals ⊆ h.available constants) :
    (h.step constants (.call c)).Inv constants alloc := by
  by_cases hc : c.Fits
  · obtain ⟨r, hr⟩ := (Call.exists_ripple_iff constants).2 hc
    obtain ⟨hdriven, hnext⟩ := r.emit_takes h.draft.allocator
    have hcount : h.primaries.length +
        (drivenBy (h.draft.gates ++ (r.emit h.draft.allocator).gates)).length = h.count + r.size := by
      rw [History.count, drivenBy_append, List.length_append, hdriven, Allocator.length_block]
      omega
    rw [step_call h hr]
    refine ⟨?_, ?_, ?_, ?_⟩
    -- The new gates read what the call uses and the constants, all of it there before them.
    · refine reads_append.2 ⟨hi.reads, (r.emit_reads _).mono ?_⟩
      refine List.Subset.trans (Call.ripple_inputs hr) (List.Subset.trans ?_ hi.available_known)
      intro s hs
      simp only [List.mem_cons] at hs
      rcases hs with rfl | rfl | hs
      · exact List.mem_cons_self
      · exact List.mem_cons_of_mem _ List.mem_cons_self
      · exact hl hs
    -- They drive the ids that come next.
    · rw [issued, History.count, hcount, Allocator.block_append, ← hi.next, ← hdriven, drivenBy_append,
        ← List.append_assoc]
      exact hi.ids.append_right _
    · rw [History.count, hcount, hnext, hi.next, Allocator.skip_skip]
    · intro o ho
      rcases List.mem_append.1 ho with ho | ho
      · exact (hi.placed o ho).mono (List.subset_append_left _ _)
      · rw [List.mem_singleton.1 ho]
        exact ⟨r, _, hr, rfl, List.subset_append_right _ _⟩
  · rw [step_unfit h hc]
    exact hi

/-- A legal instruction keeps the invariant. -/
theorem step_inv (hi : h.Inv constants alloc) {i : Instruction} (hl : i.Legal constants h) :
    (h.step constants i).Inv constants alloc := by
  cases i with
  | allocate count => exact allocate_inv hi count
  | call c => exact call_inv hi hl

/-- A legal program keeps the invariant. -/
theorem run_inv (hi : h.Inv constants alloc) {program : List Instruction} (hl : Legal constants h program) :
    (h.run constants program).Inv constants alloc := by
  induction program generalizing h with
  | nil => exact hi
  | cons i rest ih => exact ih (step_inv hi hl.1) hl.2

/-- As long as the ids handed out are new, the draft makes a sound netlist, whatever bits returned by
calls are its result. -/
theorem Inv.sound (hi : h.Inv constants alloc) (hn : (h.issued alloc).Nodup)
    (hz : constants.zero ∉ h.issued alloc) (ho : constants.one ∉ h.issued alloc) {bits : List Signal}
    (hb : bits ⊆ h.returned) :
    (h.draft.finish bits).1.Sound (constants.zero :: constants.one :: h.primaries) := by
  have hids : ∀ s ∈ drivenBy h.draft.gates, s ∈ h.issued alloc := fun s hs =>
    hi.ids.subset (List.mem_append_right _ hs)
  obtain ⟨-, honce, hdisjoint⟩ := List.nodup_append.1 (hi.ids.nodup_iff.2 hn)
  refine ⟨hi.reads, honce, fun s hs hk => ?_, fun s hs => ?_⟩
  · simp only [List.mem_cons] at hk
    rcases hk with rfl | rfl | hk
    · exact hz (hids _ hs)
    · exact ho (hids _ hs)
    · exact hdisjoint s hk s hs rfl
  · exact List.mem_append_right _ (hi.returned_driven (hb hs))

/-- As long as the draft makes sound netlists, the signals have values by which it evaluates and every call
returns the integer that it stands for. -/
theorem Inv.exact (hi : h.Inv constants alloc)
    (hsound : ∀ bits ⊆ h.returned, (h.draft.finish bits).1.Sound (constants.zero :: constants.one :: h.primaries))
    {v : Valuation} (hv : v.Ready constants h.primaries) :
    ∃ σ : Assignment,
      (∀ s ∈ constants.zero :: constants.one :: h.primaries, v.get? s = some (σ s)) ∧
      (∀ bits ⊆ h.returned, (h.draft.finish bits).1.eval v = .ok (bits.map σ)) ∧
      ∀ o ∈ h.outcomes, o.bits.length = o.call.width ∧
        (bitsToNat (o.bits.map σ) : Int) = o.call.value σ % 2 ^ o.call.width := by
  -- The gates do not depend on the bits that close the draft, so one solution serves all of them.
  have hopen := hsound [] (List.nil_subset _)
  have hσ := hopen.solves hv
  refine ⟨(settle h.draft.gates v).bit, fun s hs => ?_, fun bits hb => ?_, fun o ho => ?_⟩
  · have hkeep : (settle h.draft.gates v).bit s = v.bit s :=
      bit_settle_other fun hd => hopen.undriven s hd hs
    rw [hkeep, hv.binds.get? hs]
  · exact Netlist.eval_eq_settle hi.reads hv.binds (hsound bits hb).results
  · exact (hi.placed o ho).exact hσ.satisfies hσ.zero hσ.one

end History

/-- Straight-line programs are exact. Take any program in which every call uses only constants,
primaries and bits that earlier calls returned, and no id is handed out that is a constant or was
handed out before. Then exactly the calls whose result and operands have bits are carried out, and
all is as if the others were not there. In any valuation of the constants and the primaries the
signals have values `σ` such that the whole draft evaluates, closed with any of the bits returned, to
their values under `σ`; and the bits of each call are the integer that it stands for under `σ`, modulo
2 to its width. -/
theorem straightLine_exact (constants : Constants) (alloc : Allocator) (program : List Instruction)
    {h : History} (hrun : (History.start alloc).run constants program = h)
    (hlegal : Legal constants (History.start alloc) program) (hnew : (h.issued alloc).Nodup)
    (hzero : constants.zero ∉ h.issued alloc) (hone : constants.one ∉ h.issued alloc) :
    (History.start alloc).run constants (program.filter fun i => i.Fits) = h ∧
      h.outcomes.map Outcome.call = program.filterMap Instruction.fitting ∧
      ∀ v : Valuation, v.Ready constants h.primaries →
        ∃ σ : Assignment,
          (∀ s ∈ constants.zero :: constants.one :: h.primaries, v.get? s = some (σ s)) ∧
          (∀ bits ⊆ h.returned, (h.draft.finish bits).1.eval v = .ok (bits.map σ)) ∧
          ∀ o ∈ h.outcomes, o.bits.length = o.call.width ∧
            (bitsToNat (o.bits.map σ) : Int) = o.call.value σ % 2 ^ o.call.width := by
  have hi : h.Inv constants alloc := hrun ▸ History.run_inv (History.start_inv constants alloc) hlegal
  refine ⟨?_, ?_, fun v hv => ?_⟩
  · rw [History.run_filter, hrun]
  · rw [← hrun]
    exact History.run_outcomes constants (History.start alloc) program
  · exact hi.exact (fun bits hb => hi.sound hnew hzero hone hb) hv

/-- A sum is stored, a call without operand bits fails, and slices of the sum are subtracted and
incremented together with a primary allocated later. The primaries at 2, 3 and 11 carry 1, 1 and 0. -/
theorem straightLine_exact_feedback :
    let constants : Constants := ⟨⟨0⟩, ⟨1⟩⟩
    let sum := Call.add ⟨[⟨2⟩, ⟨3⟩], true⟩ ⟨[⟨2⟩], false⟩ 2
    let difference := Call.subtract ⟨[⟨8⟩, ⟨11⟩], true⟩ ⟨[⟨4⟩, ⟨4⟩], false⟩ 3
    let next := Call.increment ⟨[⟨8⟩], true⟩ ⟨3⟩ 1
    let program : List Instruction :=
      [.allocate 2, .call sum, .call (.add ⟨[], false⟩ ⟨[⟨2⟩], false⟩ 2), .allocate 1, .call difference, .call next]
    let h := (History.start ⟨2⟩).run constants program
    let v := (Valuation.empty.bindConstants constants).bindBits ⟨h.primaries, false⟩ [true, true, false]
    Legal constants (History.start ⟨2⟩) program ∧ v.Ready constants h.primaries ∧
      h.outcomes.map Outcome.call = [sum, difference, next] ∧
        ∃ σ : Assignment,
          (∀ s ∈ constants.zero :: constants.one :: h.primaries, v.get? s = some (σ s)) ∧
          (∀ bits ⊆ h.returned, (h.draft.finish bits).1.eval v = .ok (bits.map σ)) ∧
          ∀ o ∈ h.outcomes, o.bits.length = o.call.width ∧
            (bitsToNat (o.bits.map σ) : Int) = o.call.value σ % 2 ^ o.call.width := by
  intro constants sum difference next program h v
  have hlegal : Legal constants (History.start ⟨2⟩) program := by decide
  have hready : v.Ready constants h.primaries := by decide
  obtain ⟨-, hcalls, hexact⟩ :=
    straightLine_exact constants ⟨2⟩ program rfl hlegal (by decide) (by decide) (by decide)
  exact ⟨hlegal, hready, hcalls, hexact v hready⟩

end RippleCarry
