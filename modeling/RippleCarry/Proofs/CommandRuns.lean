import RippleCarry.CommandLine.Run
import RippleCarry.Proofs.Budget
import RippleCarry.Proofs.Integers
/-!
# Runs of the command

A run mints its constants and operands on an allocator that starts at 0 and synthesizes behind them, so that
all of its signals are one block of ids (`Options.primaries_eq`, `Options.design_eq`). While that block does
not come around, its signals are distinct, the netlist is clean and computing does not stop
(`Options.design_cases`, `Design.compute_ok`).

`command_exact`: a run has no use for the errors that stand for a broken netlist; and with all widths between
1 and 64 it prints the integer that its options ask for.
-/

namespace RippleCarry

namespace Descriptor

variable {constants : Constants} {d : Descriptor} {alloc after : Allocator} {n : Netlist}

/-- Signals that were minted one after the other, and those of the gates right behind them, are all
distinct while the block does not come around; and then the netlist has no defect. -/
theorem synthesize_clean {start : Allocator} {count : Nat} (hp : primaries constants d.op.operands = start.block count)
    (h : (d.synthesize constants).run (start.skip count) = (.ok n, after))
    (hcount : count + d.op.kind.size d.resultWidth ≤ 2 ^ 64) :
    (primaries constants d.op.operands).Nodup ∧ n.defectsFor constants d = [] := by
  have hdriven := synthesize_size h
  have hall : (primaries constants d.op.operands ++ n.driven).Nodup := by
    rw [hp, hdriven, ← Allocator.block_append]
    exact start.block_nodup hcount
  obtain ⟨hprimaries, honce, hapart⟩ := List.nodup_append.1 hall
  refine ⟨hprimaries, Netlist.defects_eq_nil_iff.2 ⟨synthesize_reads h, honce, fun s hs hk => ?_, ?_⟩⟩
  · exact hapart s hk s hs rfl
  · exact List.Subset.trans (synthesize_results h) (List.subset_append_right _ _)

/-- A clean netlist on distinct primaries computes the operation, or refuses the first width that does not
fit. -/
theorem compute_clean (h : (d.synthesize constants).run alloc = (.ok n, after))
    (hclean : n.defectsFor constants d = []) (hd : (primaries constants d.op.operands).Nodup) (x y : UInt64) :
    (∃ width, firstTooWide d.widths = some width ∧ n.compute constants d x y = .error (.tooWide width)) ∨
      ∃ z : UInt64, firstTooWide d.widths = none ∧ n.compute constants d x y = .ok z ∧
        (z.toNat : Int) = d.op.integer x.toNat y.toNat % 2 ^ d.resultWidth := by
  obtain ⟨r, hr, rfl, -⟩ := synthesize_ok h
  have hready := Valuation.ofNumbers_ready (by rwa [d.op.map_fst_numbers x y])
  rw [d.op.map_fst_numbers x y] at hready
  obtain ⟨bits, heval, hlen, hval⟩ := emit_exact hr alloc hclean hready
  rw [Netlist.compute_of_eval heval hlen]
  cases hfits : firstTooWide d.widths with
  | some width => exact .inl ⟨width, rfl, rfl⟩
  | none =>
    have hsmall : bits.length ≤ 64 := hlen ▸ le_of_firstTooWide hfits (by simp [widths])
    refine .inr ⟨_, rfl, rfl, ?_⟩
    rw [toNat_bitsToNat hsmall, hval, Operation.value_ofNumbers hd (Operation.fits_of_ripple hr).2]

end Descriptor

/-! ## The design of a run -/

namespace CommandLine

/-- Where a run starts to mint its signals. -/
def firstAllocator : Allocator := ⟨0⟩

/-- The constants of a run. -/
def mintedConstants : Constants := ⟨⟨0⟩, ⟨1⟩⟩

namespace Options

/-- The first operand, behind the constants. -/
def first (o : Options) : Bus := ⟨(firstAllocator.skip 2).block o.aWidth, o.aSigned⟩

/-- The second operand, behind the first. -/
def second (o : Options) (width : Nat) : Bus := ⟨(firstAllocator.skip (2 + o.aWidth)).block width, o.bSigned⟩

/-- The operation that is asked for. An increment has no second operand, whatever width is given for one. -/
def operation? (o : Options) : Option Operation :=
  match o.op, o.bWidth with
  | .increment, _ => some (.increment o.first none)
  | .add, some width => some (.add o.first (o.second width))
  | .subtract, some width => some (.subtract o.first (o.second width))
  | _, none => none

/-- The number of signals on the second operand. -/
def secondWidth (o : Options) : Nat :=
  match o.op with
  | .increment => 0
  | _ => o.bWidth.getD 0

/-- The number of signals on the constants and the operands. -/
def minted (o : Options) : Nat := 2 + o.aWidth + o.secondWidth

theorem operation?_kind {o : Options} {op : Operation} (h : o.operation? = some op) : op.kind = o.op := by
  unfold operation? at h
  split at h <;> cases h <;> simp_all [Operation.kind]

theorem primaries_eq {o : Options} {op : Operation} (h : o.operation? = some op) :
    primaries mintedConstants op.operands = firstAllocator.block o.minted := by
  have hconstants : firstAllocator.block 2 = [mintedConstants.zero, mintedConstants.one] := rfl
  rw [minted, Allocator.block_append, Allocator.block_append, hconstants]
  unfold operation? at h
  split at h <;> cases h <;>
    simp_all [primaries, Operation.operands, Operation.first, Operation.second, first, second, secondWidth,
      Allocator.block]

theorem bus_apply (width : Nat) (signed : Bool) (alloc : Allocator) :
    Emit.bus width signed alloc = ⟨⟨alloc.block width, signed⟩, [], alloc.skip width⟩ := by
  rw [Emit.bus, Emit.map_apply, Emit.freshList_apply]

theorem constants_apply : Emit.constants firstAllocator = ⟨mintedConstants, [], firstAllocator.skip 2⟩ := rfl

/-- The design for an operation: its netlist, which must pass the check. -/
def designOf (o : Options) (op : Operation) : Except RunError Design := do
  let d : Descriptor := ⟨op, o.resultWidth⟩
  let netlist ← ((d.synthesize mintedConstants).run (firstAllocator.skip o.minted)).1.mapError RunError.synthesis
  match netlist.defectsFor mintedConstants d with
  | [] => return ⟨mintedConstants, d, netlist⟩
  | defects => throw (.defective defects)

theorem design_of_setup {o : Options} {step : Emit (Constants × Operation)} {op : Operation} (hs : o.setup = .ok step)
    (h : step firstAllocator = ⟨(mintedConstants, op), [], firstAllocator.skip o.minted⟩) :
    o.design = o.designOf op := by
  have hstep : step ⟨0⟩ = _ := h
  rw [design, hs]
  simp only [bind, Except.bind, hstep]
  rfl

theorem mint_one (o : Options) (make : Bus → Operation) :
    (do
      let constants ← Emit.constants
      let a ← Emit.bus o.aWidth o.aSigned
      return (constants, make a) : Emit (Constants × Operation)) firstAllocator =
      ⟨(mintedConstants, make o.first), [], firstAllocator.skip (2 + o.aWidth)⟩ := by
  simp [constants_apply, bus_apply, first, Allocator.skip_skip]

theorem mint_two (o : Options) (make : Bus → Bus → Operation) (bWidth : Nat) :
    (do
      let constants ← Emit.constants
      let a ← Emit.bus o.aWidth o.aSigned
      let b ← Emit.bus bWidth o.bSigned
      return (constants, make a b) : Emit (Constants × Operation)) firstAllocator =
      ⟨(mintedConstants, make o.first (o.second bWidth)), [], firstAllocator.skip (2 + o.aWidth + bWidth)⟩ := by
  simp [constants_apply, bus_apply, first, second, Allocator.skip_skip]

/-- A run designs the operation that is asked for, if there is one. -/
theorem design_eq (o : Options) :
    o.design = match o.operation? with
      | none => .error .missingOperand
      | some op => o.designOf op := by
  cases hop : o.op with
  | increment =>
    have hminted : o.minted = 2 + o.aWidth := by simp [minted, secondWidth, hop]
    have hstep := o.mint_one (.increment · none)
    rw [← hminted] at hstep
    rw [design_of_setup (by simp only [setup, hop]) hstep]
    simp [operation?, hop]
  | add =>
    cases hb : o.bWidth with
    | none => simp [design, setup, operation?, hop, hb, bind, Except.bind]
    | some bWidth =>
      have hminted : o.minted = 2 + o.aWidth + bWidth := by simp [minted, secondWidth, hop, hb]
      have hstep := o.mint_two .add bWidth
      rw [← hminted] at hstep
      rw [design_of_setup (by simp only [setup, hop, hb]) hstep]
      simp [operation?, hop, hb]
  | subtract =>
    cases hb : o.bWidth with
    | none => simp [design, setup, operation?, hop, hb, bind, Except.bind]
    | some bWidth =>
      have hminted : o.minted = 2 + o.aWidth + bWidth := by simp [minted, secondWidth, hop, hb]
      have hstep := o.mint_two .subtract bWidth
      rw [← hminted] at hstep
      rw [design_of_setup (by simp only [setup, hop, hb]) hstep]
      simp [operation?, hop, hb]

/-- The number of signals in a run: the constants, the operands, and what the gates drive. -/
def signalCount (o : Options) : Nat := 2 + o.aWidth + o.secondWidth + o.op.size o.resultWidth

/-- What a design is known to be: the operation that is asked for, on distinct signals, with its netlist, which
is clean. -/
structure Designs (o : Options) (d : Design) : Prop where
  op : o.operation? = some d.descriptor.op
  width : d.descriptor.resultWidth = o.resultWidth
  made : ∃ alloc after, (d.descriptor.synthesize d.constants).run alloc = (.ok d.netlist, after)
  clean : d.netlist.defectsFor d.constants d.descriptor = []
  distinct : (primaries d.constants d.descriptor.op.operands).Nodup

/-- While the ids do not come around, a design fails only for want of an operand or of bits. -/
theorem design_cases (o : Options) (h : o.signalCount ≤ 2 ^ 64) :
    (o.operation? = none ∧ o.design = .error .missingOperand) ∨
      (∃ op e, o.operation? = some op ∧ Refused o.resultWidth op.operands e ∧ o.design = .error (.synthesis e)) ∨
      ∃ d, o.design = .ok d ∧ o.Designs d := by
  rw [design_eq]
  cases hop : o.operation? with
  | none => exact .inl ⟨rfl, rfl⟩
  | some op =>
    have hcount : o.minted + op.kind.size o.resultWidth ≤ 2 ^ 64 := by
      rw [operation?_kind hop]
      exact h
    simp only [designOf]
    cases hrun : (Descriptor.synthesize mintedConstants ⟨op, o.resultWidth⟩).run (firstAllocator.skip o.minted) with
    | mk result after =>
      cases result with
      | error e =>
        have hrefused := ((Descriptor.synthesize_error_iff _ _ _ _ _).1 hrun).1
        exact .inr (.inl ⟨op, e, rfl, hrefused, rfl⟩)
      | ok netlist =>
        obtain ⟨hdistinct, hclean⟩ := Descriptor.synthesize_clean (primaries_eq hop) hrun hcount
        refine .inr (.inr ⟨⟨mintedConstants, ⟨op, o.resultWidth⟩, netlist⟩, ?_, ⟨hop, rfl, ⟨_, _, hrun⟩, hclean, hdistinct⟩⟩)
        simp only [Except.mapError, bind, Except.bind, hclean]
        rfl

end Options

/-! ## Computing -/

namespace Design

variable {o : Options} {d : Design} {text : String}

/-- Computing fails only on the numerals or on a width. -/
theorem compute_error (hd : o.Designs d) {e : RunError} (h : d.compute text = .error e) :
    (∃ fault, e = .numeral fault) ∨ ∃ width, e = .simulation (.tooWide width) := by
  unfold compute at h
  cases hp : Numeral.parsePair text.toList with
  | error fault =>
    rw [hp] at h
    cases h
    exact .inl ⟨fault, rfl⟩
  | ok pair =>
    obtain ⟨x, y⟩ := pair
    obtain ⟨alloc, after, hrun⟩ := hd.made
    rw [hp] at h
    rcases Descriptor.compute_clean hrun hd.clean hd.distinct x y with ⟨width, -, hc⟩ | ⟨z, -, hc, -⟩
    · simp only [Except.mapError, bind, Except.bind, hc] at h
      cases h
      exact .inr ⟨width, rfl⟩
    · simp only [Except.mapError, bind, Except.bind, hc] at h
      cases h

theorem compute_ok (hd : o.Designs d) (hfits : firstTooWide d.descriptor.widths = none) {x y : UInt64}
    (hp : Numeral.parsePair text.toList = .ok (x, y)) :
    d.compute text =
      .ok (toString (d.descriptor.op.integer x.toNat y.toNat % 2 ^ o.resultWidth).toNat ++ "\n") := by
  obtain ⟨alloc, after, hrun⟩ := hd.made
  rcases Descriptor.compute_clean hrun hd.clean hd.distinct x y with ⟨width, hw, -⟩ | ⟨z, -, hc, hz⟩
  · rw [hfits] at hw
    cases hw
  · rw [← hd.width, ← hz, Int.toNat_natCast]
    simp only [compute, hp, Except.mapError, bind, Except.bind, hc]
    rfl

end Design

/-! ## The integers that options ask for -/

/-- The low bits of a number, extended: in two's complement when they are signed. -/
def extended (signed : Bool) (width number : Nat) : Int :=
  let low := number % 2 ^ width
  if signed ∧ 2 ^ (width - 1) ≤ low then low - 2 ^ width else low

theorem integer_eq_extended {bus : Bus} (h : 0 < bus.width) (number : Nat) :
    bus.integer number = extended bus.signed bus.width number := by
  have hpow : 2 ^ bus.width = 2 * 2 ^ (bus.width - 1) := by
    rw [← Nat.pow_succ', Nat.succ_eq_add_one, Nat.sub_add_cancel h]
  unfold Bus.integer extended
  cases bus.signed with
  | false => simp
  | true =>
    simp only [if_true, true_and, Int.bmod_def]
    -- Half of the range is the weight of the sign bit.
    have hcast : ((2 : Int) ^ bus.width) = ((2 ^ bus.width : Nat) : Int) := by push_cast; rfl
    rw [hcast, hpow]
    generalize 2 ^ (bus.width - 1) = half
    split <;> split <;> omega

namespace Options

/-- The integer that the options ask for: the operation on the extended low bits of two numbers. -/
def integer (o : Options) (x y : Nat) : Int :=
  match o.op with
  | .add => extended o.aSigned o.aWidth x + extended o.bSigned (o.bWidth.getD 0) y
  | .subtract => extended o.aSigned o.aWidth x - extended o.bSigned (o.bWidth.getD 0) y
  | .increment => extended o.aSigned o.aWidth x + 1

/-- All widths that count are between 1 and 64. An increment has no second operand to count. -/
def InRange (o : Options) : Prop :=
  (1 ≤ o.aWidth ∧ o.aWidth ≤ 64) ∧ (1 ≤ o.resultWidth ∧ o.resultWidth ≤ 64) ∧
    (o.op = .increment ∨ ∃ width, o.bWidth = some width ∧ 1 ≤ width ∧ width ≤ 64)

theorem width_first (o : Options) : o.first.width = o.aWidth := Allocator.length_block _ _

theorem width_second (o : Options) (width : Nat) : (o.second width).width = width := Allocator.length_block _ _

theorem integer_first {o : Options} (h : 1 ≤ o.aWidth) (x : Nat) :
    o.first.integer x = extended o.aSigned o.aWidth x := by
  rw [integer_eq_extended (by rwa [width_first]), width_first]
  rfl

theorem integer_second {o : Options} {width : Nat} (h : 1 ≤ width) (y : Nat) :
    (o.second width).integer y = extended o.bSigned width y := by
  rw [integer_eq_extended (by rwa [width_second]), width_second]
  rfl

theorem InRange.operation {o : Options} (h : o.InRange) :
    ∃ op, o.operation? = some op ∧ (∀ bus ∈ op.operands, 1 ≤ bus.width ∧ bus.width ≤ 64) ∧
      ∀ x y, op.integer x y = o.integer x y := by
  obtain ⟨ha, -, hb⟩ := h
  cases hop : o.op with
  | increment =>
    refine ⟨.increment o.first none, by simp [operation?, hop], ?_, fun x y => ?_⟩
    · simpa [Operation.operands, Operation.first, Operation.second, width_first] using ha
    · simp [Operation.integer, integer, hop, integer_first ha.1]
  | add =>
    obtain ⟨width, hw, hb⟩ := hb.resolve_left (by simp [hop])
    refine ⟨.add o.first (o.second width), by simp [operation?, hop, hw], ?_, fun x y => ?_⟩
    · simpa [Operation.operands, Operation.first, Operation.second, width_first, width_second] using ⟨ha, hb⟩
    · simp [Operation.integer, integer, hop, hw, integer_first ha.1, integer_second hb.1]
  | subtract =>
    obtain ⟨width, hw, hb⟩ := hb.resolve_left (by simp [hop])
    refine ⟨.subtract o.first (o.second width), by simp [operation?, hop, hw], ?_, fun x y => ?_⟩
    · simpa [Operation.operands, Operation.first, Operation.second, width_first, width_second] using ⟨ha, hb⟩
    · simp [Operation.integer, integer, hop, hw, integer_first ha.1, integer_second hb.1]

theorem InRange.signalCount_le {o : Options} (h : o.InRange) : o.signalCount ≤ 2 ^ 64 := by
  obtain ⟨ha, hw, hb⟩ := h
  have hsecond : o.secondWidth ≤ 64 := by
    rcases hb with hop | ⟨width, hbw, hb⟩
    · simp [secondWidth, hop]
    · cases hop : o.op <;> simp [secondWidth, hop, hbw] <;> omega
  have hsize : o.op.size o.resultWidth ≤ 6 * 64 := by
    cases o.op <;> simp only [OpKind.size] <;> omega
  unfold signalCount
  omega

/-- Options with widths in range have a design, of the integer that they ask for. -/
theorem InRange.design {o : Options} (h : o.InRange) :
    ∃ d, o.design = .ok d ∧ o.Designs d ∧ firstTooWide d.descriptor.widths = none ∧
      ∀ x y, d.descriptor.op.integer x y = o.integer x y := by
  have hcount := h.signalCount_le
  obtain ⟨op, hop, hwidths, hinteger⟩ := h.operation
  obtain ⟨-, hw, -⟩ := h
  rcases o.design_cases hcount with ⟨hnone, -⟩ | ⟨op', e, hop', hrefused, -⟩ | ⟨d, hd, hdesigns⟩
  · rw [hop] at hnone
    cases hnone
  · -- An operand without bits would have width 0.
    rw [hop] at hop'
    cases hop'
    rcases hrefused with ⟨hzero, -⟩ | ⟨-, ⟨bus, hb, hempty⟩, -⟩
    · omega
    · have := (hwidths bus hb).1
      rw [Bus.width, hempty] at this
      cases this
  · have hsame : d.descriptor.op = op := by
      have := hdesigns.op
      rw [hop] at this
      exact (Option.some.inj this).symm
    refine ⟨d, hd, hdesigns, ?_, by rwa [hsame]⟩
    unfold firstTooWide Descriptor.widths
    rw [List.find?_eq_none, hsame, hdesigns.width]
    intro width hm
    rcases List.mem_append.1 hm with hm | hm
    · obtain ⟨bus, hb, rfl⟩ := List.mem_map.1 hm
      have := (hwidths bus hb).2
      simpa using this
    · rw [List.mem_singleton.1 hm]
      simpa using hw.2

end Options

/-! ## Runs -/

theorem loadConfig_error {readFile : ReadFile} {path : Option String} {e : RunError}
    (h : loadConfig readFile path = .error e) :
    (∃ p reason, e = .unreadableConfig p reason) ∨ ∃ p, e = .invalidConfig p := by
  unfold loadConfig at h
  cases path with
  | none => cases h
  | some path =>
    cases hr : readFile path with
    | error reason =>
      simp only [hr, Except.mapError, bind, Except.bind] at h
      cases h
      exact .inl ⟨path, reason, rfl⟩
    | ok bytes =>
      simp only [hr, Except.mapError, bind, Except.bind] at h
      split at h
      · cases h
        exact .inl ⟨path, .notText, rfl⟩
      · split at h
        · cases h
          exact .inr ⟨path, rfl⟩
        · cases h

/-- The netlist of the run is broken. -/
def RunError.Internal : RunError → Prop
  | defective _ => True
  | simulation (.unboundInput _ _) => True
  | simulation (.unboundResult _) => True
  | _ => False

/-- While the ids do not come around, no run fails on its netlist. -/
theorem Options.not_internal {o : Options} (h : o.signalCount ≤ 2 ^ 64) {readFile : ReadFile} {e : RunError}
    (he : o.output readFile = .error e) : ¬ e.Internal := by
  unfold output at he
  cases hc : loadConfig readFile o.config with
  | error e' =>
    rw [hc] at he
    cases he
    rcases loadConfig_error hc with ⟨p, reason, rfl⟩ | ⟨p, rfl⟩ <;> exact id
  | ok config =>
    simp only [hc, bind, Except.bind] at he
    rcases o.design_cases h with ⟨-, hd⟩ | ⟨op, e', -, -, hd⟩ | ⟨d, hd, hdesigns⟩
    · simp only [hd] at he
      cases he
      exact id
    · simp only [hd] at he
      cases he
      exact id
    · simp only [hd] at he
      split at he
      · rcases Design.compute_error hdesigns he with ⟨fault, rfl⟩ | ⟨width, rfl⟩ <;> exact id
      · cases he

theorem Options.run_ok {o : Options} {readFile : ReadFile} {text : String} (h : o.output readFile = .ok text) :
    o.run readFile = ⟨0, text, ""⟩ := by
  rw [run, h]

/-- The command computes what it says. While all signals of a run have ids of their own, no run fails on its
netlist: not in the check, nor at an input or a result that has no value. With every width between 1 and 64, and
a configuration that can be read if one is named, a run that is given two numbers exits with 0 and prints the
operation on their low bits, each extended by its own signedness, modulo 2 to the result width. The format, the
module name and the configuration have no part in that; nor, for an increment, the second number and what is
said of a second operand. -/
theorem command_exact (o : Options) (readFile : ReadFile) :
    (o.signalCount ≤ 2 ^ 64 →
      (∀ d, o.design = .ok d → d.netlist.driven.length = o.op.size o.resultWidth) ∧
      (∀ defects, o.output readFile ≠ .error (.defective defects)) ∧
      (∀ index s, o.output readFile ≠ .error (.simulation (.unboundInput index s))) ∧
      ∀ s, o.output readFile ≠ .error (.simulation (.unboundResult s))) ∧
    (o.InRange → ∀ config text x y, loadConfig readFile o.config = .ok config → o.eval = some text →
      Numeral.parsePair text.toList = .ok (x, y) →
      o.run readFile = ⟨0, toString (o.integer x.toNat y.toNat % 2 ^ o.resultWidth).toNat ++ "\n", ""⟩) := by
  constructor
  · intro h
    refine ⟨fun d hd => ?_, fun defects he => Options.not_internal h he trivial,
      fun index s he => Options.not_internal h he trivial, fun s he => Options.not_internal h he trivial⟩
    rcases o.design_cases h with ⟨-, hd'⟩ | ⟨op, e, -, -, hd'⟩ | ⟨d', hd', hdesigns⟩
    · rw [hd] at hd'
      cases hd'
    · rw [hd] at hd'
      cases hd'
    · rw [hd] at hd'
      cases hd'
      obtain ⟨alloc, after, hrun⟩ := hdesigns.made
      rw [Descriptor.synthesize_size hrun, Allocator.length_block, Options.operation?_kind hdesigns.op, hdesigns.width]
  · intro h config text x y hconfig heval hpair
    obtain ⟨d, hd, hdesigns, hfits, hinteger⟩ := h.design
    apply Options.run_ok
    rw [← hinteger, ← Design.compute_ok hdesigns hfits hpair]
    simp only [Options.output, hconfig, hd, heval, bind, Except.bind]

/-- A four-bit -2 less a two-bit -1, to six bits, is -1: all ones. -/
theorem command_exact_signed_difference :
    let args := ["--op=sub", "--a-width=4", "--a-signed=true", "--b-width", "2", "--b-signed=true", "--result-width=6",
      "--eval=-2,-1"]
    ∃ o, Options.ofArgs? args = some o ∧ o.InRange ∧ o.signalCount ≤ 2 ^ 64 ∧ ∀ readFile,
      (∀ defects, o.output readFile ≠ .error (.defective defects)) ∧ o.run readFile = ⟨0, "63\n", ""⟩ := by
  intro args
  let o : Options := ⟨.subtract, 4, true, some 2, true, 6, none, none, none, some "-2,-1"⟩
  have hargs : Options.ofArgs? args = some o := rfl
  have hrange : o.InRange := ⟨by decide, by decide, .inr ⟨2, rfl, by decide, by decide⟩⟩
  have hcount : o.signalCount ≤ 2 ^ 64 := by decide
  have hpair : Numeral.parsePair "-2,-1".toList = .ok (-2, -1) := rfl
  have hvalue : (o.integer (-2 : UInt64).toNat (-1 : UInt64).toNat % 2 ^ o.resultWidth).toNat = 63 := by decide
  refine ⟨o, hargs, hrange, hcount, fun readFile => ?_⟩
  obtain ⟨hsound, hexact⟩ := command_exact o readFile
  have hrun := hexact hrange .empty "-2,-1" (-2) (-1) rfl rfl hpair
  rw [hvalue] at hrun
  exact ⟨(hsound hcount).2.1, hrun⟩

end CommandLine

end RippleCarry
