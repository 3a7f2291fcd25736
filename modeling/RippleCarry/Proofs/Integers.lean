import RippleCarry.Proofs.Operations
/-!
# Operations on integers

`Bus.integer` is the integer that a number gives a bus: its low bits, in two's complement when the bus is
signed. Computing on numbers binds the constants and then the operands, one signal after the other. While
these signals are all distinct, no binding overwrites another one, and every bus carries its integer
(`Valuation.value_ofNumbers`).

`compute_exact`: the netlist of a descriptor computes the operation on these integers, or refuses the first
width that does not fit in 64 bits.
-/

namespace RippleCarry

/-! ## Two's complement -/

/-- Bits read in two's complement are the balanced residue of the number that they stand for. -/
theorem bitsToInt_true (bits : List Bool) : bitsToInt true bits = Int.bmod (bitsToNat bits) (2 ^ bits.length) := by
  rcases List.eq_nil_or_concat bits with rfl | ⟨low, top, rfl⟩
  · rfl
  · have hlow := bitsToNat_lt low
    have hnat : bitsToNat (low ++ [top]) = bitsToNat low + 2 ^ low.length * top.toNat := bitsToNat_append low [top]
    have hpow : 2 ^ (low ++ [top]).length = 2 * 2 ^ low.length := by
      rw [List.length_append, List.length_singleton, Nat.pow_succ, Nat.mul_comm]
    have hint : bitsToInt true (low ++ [top]) =
        bitsToNat (low ++ [top]) - if top then ((2 ^ (low ++ [top]).length : Nat) : Int) else 0 := by
      simp [bitsToInt]
    rw [List.concat_eq_append, hint, Int.bmod_def, hnat, hpow]
    -- The top bit weighs half of the range, so it alone decides on which side of the middle the number is.
    generalize 2 ^ low.length = half at hlow ⊢
    cases top
    · rw [if_neg Bool.false_ne_true, Bool.toNat_false, Nat.mul_zero, Nat.add_zero, Int.sub_zero,
        Int.emod_eq_of_lt (by omega) (by omega), if_pos (by omega)]
    · rw [if_pos rfl, Bool.toNat_true, Nat.mul_one, Int.emod_eq_of_lt (by omega) (by omega), if_neg (by omega)]

/-- The integer that a number gives the bus: its low bits, in two's complement when the bus is signed. -/
def Bus.integer (bus : Bus) (number : Nat) : Int :=
  if bus.signed then Int.bmod number (2 ^ bus.width) else number % 2 ^ bus.width

theorem bitsToInt_natBits (bus : Bus) (number : Nat) :
    bitsToInt bus.signed (natBits bus.width number) = bus.integer number := by
  cases hs : bus.signed
  · simp [bitsToInt, bitsToNat_natBits, Bus.integer, hs]
  · rw [bitsToInt_true, bitsToNat_natBits, length_natBits, Bus.integer, hs, if_pos rfl, Int.natCast_emod]
    exact Int.emod_bmod _ _

/-! ## Numbers on buses -/

theorem SignalMap.get?_insertAll_of_nodup {α : Type} {pairs : List (Signal × α)} (m : SignalMap α)
    (hn : (pairs.map Prod.fst).Nodup) {s : Signal} {b : α} (h : (s, b) ∈ pairs) :
    (m.insertAll pairs).get? s = some b := by
  induction pairs generalizing m with
  | nil => cases h
  | cons p rest ih =>
    obtain ⟨hp, hn⟩ := List.nodup_cons.1 hn
    rcases List.mem_cons.1 h with rfl | h
    · rw [show m.insertAll ((s, b) :: rest) = (m.insert s b).insertAll rest from rfl,
        get?_insertAll_of_not_mem rest _ s hp, get?_insert, if_pos rfl]
    · exact ih (m.insert p.1 p.2) hn h

theorem Bus.length_natBits_width (bus : Bus) (number : Nat) : (natBits bus.width number).length = bus.bits.length :=
  length_natBits bus.width number

/-- What the numbers bind the signals of their buses to. -/
def numberBindings (numbers : List (Bus × UInt64)) : List (Signal × Bool) :=
  numbers.flatMap fun p => p.1.bits.zip (natBits p.1.width p.2.toNat)

theorem numberBindings_cons (p : Bus × UInt64) (rest : List (Bus × UInt64)) :
    numberBindings (p :: rest) = p.1.bits.zip (natBits p.1.width p.2.toNat) ++ numberBindings rest := rfl

theorem map_fst_numberBindings (numbers : List (Bus × UInt64)) :
    (numberBindings numbers).map Prod.fst = (numbers.map Prod.fst).flatMap Bus.bits := by
  induction numbers with
  | nil => rfl
  | cons p rest ih =>
    rw [numberBindings_cons, List.map_append, ih, List.map_cons, List.flatMap_cons,
      List.map_fst_zip (Nat.le_of_eq (p.1.length_natBits_width _).symm)]

/-- Binds every bus to its number, in order, up to the first that does not fit. -/
def Valuation.bindAll (v : Valuation) : List (Bus × UInt64) → Except SimulationError Valuation
  | [] => return v
  | p :: rest => do
    let v ← v.bindNumber p.1 p.2
    v.bindAll rest

/-- The operands with their numbers. A literal is given 1. -/
def Operation.numbers (x y : UInt64) : Operation → List (Bus × UInt64)
  | add a b => [(a, x), (b, y)]
  | subtract a b => [(a, x), (b, y)]
  | increment a none => [(a, x)]
  | increment a (some literal) => [(a, x), (literal, 1)]

theorem Operation.map_fst_numbers (op : Operation) (x y : UInt64) : (op.numbers x y).map Prod.fst = op.operands := by
  cases op with
  | add a b => rfl
  | subtract a b => rfl
  | increment a literal => cases literal <;> rfl

theorem Operation.first_mem_numbers (op : Operation) (x y : UInt64) : (op.first, x) ∈ op.numbers x y := by
  cases op with
  | add a b => exact List.mem_cons_self
  | subtract a b => exact List.mem_cons_self
  | increment a literal => cases literal <;> exact List.mem_cons_self

theorem Netlist.compute_eq (n : Netlist) (constants : Constants) (d : Descriptor) (x y : UInt64) :
    n.compute constants d x y =
      (Valuation.empty.bindConstants constants).bindAll (d.op.numbers x y) >>= fun v => n.eval v >>= packBits := by
  obtain ⟨op, width⟩ := d
  cases op with
  | add a b => simp [compute, Operation.numbers, Operation.first, Valuation.bindAll]
  | subtract a b => simp [compute, Operation.numbers, Operation.first, Valuation.bindAll]
  | increment a literal =>
    cases literal <;> simp [compute, Operation.numbers, Operation.first, Valuation.bindAll]

/-! ## Widths, and values without an overwrite -/

/-- The first of the widths that does not fit in 64 bits. -/
def firstTooWide (widths : List Nat) : Option Nat := widths.find? (64 < ·)

theorem firstTooWide_append (p q : List Nat) : firstTooWide (p ++ q) = (firstTooWide p).or (firstTooWide q) :=
  List.find?_append

theorem le_of_firstTooWide {widths : List Nat} (h : firstTooWide widths = none) {width : Nat} (hm : width ∈ widths) :
    width ≤ 64 := by
  simpa using List.find?_eq_none.1 h width hm

namespace Valuation

theorem bindNumber_eq (v : Valuation) (bus : Bus) (number : UInt64) :
    v.bindNumber bus number =
      if 64 < bus.width then .error (.tooWide bus.width)
      else .ok (v.insertAll (bus.bits.zip (natBits bus.width number.toNat))) := by
  rw [bindNumber, requireFits, maxWidth]
  split <;> rfl

/-- The run of bindings stops at the first bus that is too wide, or binds everything. -/
theorem bindAll_eq (v : Valuation) (numbers : List (Bus × UInt64)) :
    v.bindAll numbers = match firstTooWide (numbers.map (·.1.width)) with
      | some width => .error (.tooWide width)
      | none => .ok (v.insertAll (numberBindings numbers)) := by
  induction numbers generalizing v with
  | nil => rfl
  | cons p rest ih =>
    rw [bindAll, bindNumber_eq, List.map_cons, firstTooWide, List.find?_cons]
    by_cases hw : 64 < p.1.width
    · simp only [hw, if_true, decide_true]
      rfl
    · simp only [hw, if_false, decide_false]
      show bindAll _ rest = _
      rw [ih, numberBindings_cons, SignalMap.insertAll_append]
      rfl

/-- Signals that are bound to bits, one to one, carry these bits. -/
theorem map_bit_of_zip {v : Valuation} {l : List Signal} {bits : List Bool} (hl : bits.length = l.length)
    (h : ∀ p ∈ l.zip bits, v.get? p.1 = some p.2) : l.map v.bit = bits := by
  calc
    l.map v.bit = ((l.zip bits).map Prod.fst).map v.bit := by rw [List.map_fst_zip (Nat.le_of_eq hl.symm)]
    _ = (l.zip bits).map Prod.snd := by
      rw [List.map_map]
      exact List.map_congr_left fun p hp => bit_eq (h p hp)
    _ = bits := List.map_snd_zip (Nat.le_of_eq hl)

/-- The constants, and every bus with its number. -/
def ofNumbers (constants : Constants) (numbers : List (Bus × UInt64)) : Valuation :=
  (empty.bindConstants constants).insertAll (numberBindings numbers)

section Distinct

variable {constants : Constants} {numbers : List (Bus × UInt64)}

/-- Distinct signals all keep the value that they are bound to. -/
theorem get?_ofNumbers (hd : (primaries constants (numbers.map Prod.fst)).Nodup) {s : Signal} {b : Bool}
    (h : (s, b) ∈ (constants.zero, false) :: (constants.one, true) :: numberBindings numbers) :
    (ofNumbers constants numbers).get? s = some b := by
  refine SignalMap.get?_insertAll_of_nodup SignalMap.empty ?_ h
  rwa [List.map_cons, List.map_cons, map_fst_numberBindings]

theorem ofNumbers_ready (hd : (primaries constants (numbers.map Prod.fst)).Nodup) :
    (ofNumbers constants numbers).Ready constants ((numbers.map Prod.fst).flatMap Bus.bits) := by
  refine ⟨get?_ofNumbers hd (by simp), get?_ofNumbers hd (by simp), fun s hs => ?_⟩
  rw [← map_fst_numberBindings] at hs
  obtain ⟨⟨s, b⟩, hm, rfl⟩ := List.mem_map.1 hs
  rw [get?_ofNumbers hd (List.mem_cons_of_mem _ (List.mem_cons_of_mem _ hm))]
  rfl

theorem map_bit_ofNumbers (hd : (primaries constants (numbers.map Prod.fst)).Nodup) {bus : Bus} {number : UInt64}
    (h : (bus, number) ∈ numbers) :
    bus.bits.map (ofNumbers constants numbers).bit = natBits bus.width number.toNat := by
  refine map_bit_of_zip (bus.length_natBits_width number.toNat) fun p hp => get?_ofNumbers hd ?_
  exact List.mem_cons_of_mem _ (List.mem_cons_of_mem _ (List.mem_flatMap.2 ⟨_, h, hp⟩))

/-- Every bus carries the integer of its number. -/
theorem value_ofNumbers (hd : (primaries constants (numbers.map Prod.fst)).Nodup) {bus : Bus} {number : UInt64}
    (h : (bus, number) ∈ numbers) : bus.value (ofNumbers constants numbers).bit = bus.integer number.toNat := by
  rw [Bus.value, map_bit_ofNumbers hd h, bitsToInt_natBits]

end Distinct

end Valuation

/-! ## Operations -/

namespace Operation

/-- The operation on the integers of two numbers. The second has no part in an increment. -/
def integer (x y : Nat) : Operation → Int
  | add a b => a.integer x + b.integer y
  | subtract a b => a.integer x - b.integer y
  | increment a _ => a.integer x + 1

theorem value_ofNumbers {op : Operation} {constants : Constants} (hd : (primaries constants op.operands).Nodup)
    (ho : ∀ bus ∈ op.operands, bus.bits ≠ []) (x y : UInt64) :
    op.value (Valuation.ofNumbers constants (op.numbers x y)).bit = op.integer x.toNat y.toNat := by
  rw [← op.map_fst_numbers x y] at hd
  have hfirst : op.first.value (Valuation.ofNumbers constants (op.numbers x y)).bit = op.first.integer x.toNat :=
    Valuation.value_ofNumbers hd (op.first_mem_numbers x y)
  cases op with
  | add a b =>
    have hsecond : b.value _ = b.integer y.toNat := Valuation.value_ofNumbers hd (by simp [numbers])
    exact congrArg₂ (· + ·) hfirst hsecond
  | subtract a b =>
    have hsecond : b.value _ = b.integer y.toNat := Valuation.value_ofNumbers hd (by simp [numbers])
    exact congrArg₂ (· - ·) hfirst hsecond
  | increment a literal =>
    cases literal with
    | none => exact congrArg (· + 1) hfirst
    | some literal =>
      -- The literal carries the number 1, so the bit that is added is set.
      have hmem : (literal, (1 : UInt64)) ∈ (increment a (some literal)).numbers x y := by simp [numbers]
      have hbits := Valuation.map_bit_ofNumbers hd hmem
      obtain ⟨width, hw⟩ := Nat.exists_eq_succ_of_ne_zero
        (mt List.length_eq_zero_iff.1 (ho literal (by simp [operands, second])))
      rw [Bus.width, hw] at hbits
      rw [value, hbits]
      exact congrArg (· + 1) hfirst

end Operation

/-! ## Computing -/

theorem packBits_eq (bits : List Bool) :
    packBits bits = if 64 < bits.length then .error (.tooWide bits.length) else .ok (bitsToNat bits).toUInt64 := by
  rw [packBits, requireFits, maxWidth]
  split <;> rfl

theorem toNat_bitsToNat {bits : List Bool} (h : bits.length ≤ 64) :
    (bitsToNat bits).toUInt64.toNat = bitsToNat bits := by
  have hlt : bitsToNat bits < 2 ^ 64 :=
    Nat.lt_of_lt_of_le (bitsToNat_lt bits) (Nat.pow_le_pow_right (by decide) h)
  rw [Nat.toUInt64_eq, UInt64.toNat_ofNat', Nat.mod_eq_of_lt hlt]

/-- The widths of a computation, in the order in which they are looked at. -/
def Descriptor.widths (d : Descriptor) : List Nat := d.op.operands.map Bus.width ++ [d.resultWidth]

/-- Where the netlist evaluates to a result of the right width, computing refuses the first width that does
not fit, or packs the result. -/
theorem Netlist.compute_of_eval {n : Netlist} {constants : Constants} {d : Descriptor} {x y : UInt64}
    {bits : List Bool} (heval : n.eval (Valuation.ofNumbers constants (d.op.numbers x y)) = .ok bits)
    (hlen : bits.length = d.resultWidth) :
    n.compute constants d x y = match firstTooWide d.widths with
      | some width => .error (.tooWide width)
      | none => .ok (bitsToNat bits).toUInt64 := by
  have hwidths : (d.op.numbers x y).map (·.1.width) = d.op.operands.map Bus.width := by
    rw [← d.op.map_fst_numbers x y, List.map_map]
    rfl
  rw [n.compute_eq, Valuation.bindAll_eq, hwidths, Descriptor.widths, firstTooWide_append]
  cases firstTooWide (d.op.operands.map Bus.width) with
  | some width => rfl
  | none =>
    show n.eval (Valuation.ofNumbers constants (d.op.numbers x y)) >>= packBits = _
    rw [heval, Option.none_or]
    show packBits bits = _
    rw [packBits_eq, hlen, firstTooWide, List.find?_singleton]
    by_cases hw : 64 < d.resultWidth <;> simp [hw]

/-- Computing on numbers is exact. Take a descriptor with operands and a result that have bits, and with
distinct signals on the constants and all operands. If its netlist has no defects, then on any two numbers
it refuses the first width over 64, of the operands in order and then of the result; and if all widths fit,
it computes the operation on the integers that the numbers give the operands, modulo 2 to the result
width. -/
theorem compute_exact (constants : Constants) (d : Descriptor) (alloc : Allocator) (hw : 0 < d.resultWidth)
    (ho : ∀ bus ∈ d.op.operands, bus.bits ≠ []) (hd : (primaries constants d.op.operands).Nodup) :
    ∃ n after, (d.synthesize constants).run alloc = (.ok n, after) ∧
      (n.defectsFor constants d = [] → ∀ x y : UInt64,
        match firstTooWide d.widths with
        | some width => n.compute constants d x y = .error (.tooWide width)
        | none => ∃ z : UInt64, n.compute constants d x y = .ok z ∧
            (z.toNat : Int) = d.op.integer x.toNat y.toNat % 2 ^ d.resultWidth) := by
  obtain ⟨n, after, hrun, hexact⟩ := Descriptor.synthesize_exact constants d alloc hw ho
  refine ⟨n, after, hrun, fun hclean x y => ?_⟩
  have hready := Valuation.ofNumbers_ready (by rwa [d.op.map_fst_numbers x y])
  rw [d.op.map_fst_numbers x y] at hready
  obtain ⟨bits, heval, hlen, hval⟩ := hexact hclean _ hready
  rw [Netlist.compute_of_eval heval hlen]
  cases hfits : firstTooWide d.widths with
  | some width => rfl
  | none =>
    have hsmall : bits.length ≤ 64 := hlen ▸ le_of_firstTooWide hfits (by simp [Descriptor.widths])
    refine ⟨_, rfl, ?_⟩
    rw [toNat_bitsToNat hsmall, hval, Operation.value_ofNumbers hd ho]

/-- A signed number on three bits, of which it has more, and an unsigned one on two, subtracted to five
bits: 13 is -3 on the first bus, 6 is 2 on the second. -/
theorem compute_exact_difference :
    let constants : Constants := ⟨⟨0⟩, ⟨1⟩⟩
    let d : Descriptor := ⟨.subtract ⟨[⟨2⟩, ⟨3⟩, ⟨4⟩], true⟩ ⟨[⟨5⟩, ⟨6⟩], false⟩, 5⟩
    ∃ n after, (d.synthesize constants).run ⟨7⟩ = (.ok n, after) ∧ n.defectsFor constants d = [] ∧
      ∃ z : UInt64, n.compute constants d 13 6 = .ok z ∧ (z.toNat : Int) = (-3 - 2) % 2 ^ 5 := by
  intro constants d
  obtain ⟨n, after, hrun, hexact⟩ := compute_exact constants d ⟨7⟩ (by decide) (by decide) (by decide)
  have hclean : n.defectsFor constants d = [] := by
    cases hrun
    decide
  exact ⟨n, after, hrun, hclean, hexact hclean 13 6⟩

end RippleCarry
