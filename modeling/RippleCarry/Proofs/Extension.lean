import Mathlib.Algebra.BigOperators.Group.Finset.Basic
import RippleCarry.Proofs.Footprint
/-!
# Buses without end

A bus that has bits has a signal at every position, and so under a valuation it is an endless row of bits. Cut
at any width, the row stands for the integer on the bus modulo 2 to that width, whether the cut is below the
width of the bus, at it or above it.

`bitsToNat_map_range` weighs the bits of a number by their positions. `Bus.value_eq_sum` is the integer on a bus
in the same terms, and `extension_exact` puts them together.
-/

namespace RippleCarry

/-- The bit at a position weighs 2 to the position. -/
theorem bitsToNat_map_range (x : Nat → Bool) (width : Nat) :
    bitsToNat ((List.range width).map x) = ∑ i ∈ Finset.range width, (x i).toNat * 2 ^ i := by
  induction width with
  | zero => rfl
  | succ width ih =>
    rw [List.range_succ, List.map_append, bitsToNat_append, ih, List.length_map, List.length_range,
      Finset.sum_range_succ, Nat.mul_comm (2 ^ width)]
    rfl

namespace Bus

variable {bus : Bus} {constants : Constants}

theorem signalAt_of_getElem? (constants : Constants) {position : Nat} {s : Signal}
    (h : bus.bits[position]? = some s) : bus.signalAt constants position = s := by
  rw [signalAt, h]
  rfl

/-- Up to its width a bus is the row of its positions. -/
theorem bits_eq_map (bus : Bus) (constants : Constants) :
    bus.bits = (List.range bus.width).map (bus.signalAt constants) := by
  refine List.ext_getElem? fun i => ?_
  rw [List.getElem?_map]
  by_cases hi : i < bus.width
  · have hget : bus.bits[i]? = some bus.bits[i] := List.getElem?_eq_getElem hi
    rw [List.getElem?_range hi, Option.map_some, signalAt_of_getElem? constants hget, hget]
  · have hle : bus.width ≤ i := Nat.le_of_not_lt hi
    rw [List.getElem?_eq_none (l := List.range bus.width) (by rwa [List.length_range]), List.getElem?_eq_none hle]
    rfl

/-- The integer on a bus, by the bits at its positions. Twice the weight of the top bit is taken off when the bus
is signed, so that it counts negative. -/
theorem value_eq_sum (h : bus.bits ≠ []) (constants : Constants) (σ : Assignment) :
    bus.value σ = ((∑ i ∈ Finset.range bus.width, (σ (bus.signalAt constants i)).toNat * 2 ^ i : Nat) : Int) -
      if bus.signed then 2 ^ bus.width * ((σ (bus.signalAt constants (bus.width - 1))).toNat : Int) else 0 := by
  have htop : (bus.bits.map σ).getLastD false = σ (bus.signalAt constants (bus.width - 1)) := by
    have hget : bus.bits[bus.width - 1]? = some (bus.bits.getLast h) := by
      rw [width, ← List.getLast?_eq_getElem?, List.getLast?_eq_some_getLast h]
    rw [signalAt_of_getElem? constants hget, List.getLastD_eq_getLast?, List.getLast?_map,
      List.getLast?_eq_some_getLast h]
    rfl
  have hbits : bitsToNat (bus.bits.map σ) =
      ∑ i ∈ Finset.range bus.width, (σ (bus.signalAt constants i)).toNat * 2 ^ i := by
    rw [← bitsToNat_map_range fun i => σ (bus.signalAt constants i)]
    nth_rewrite 1 [bus.bits_eq_map constants]
    rw [List.map_map]
    rfl
  rw [value, bitsToInt, htop, hbits, List.length_map]
  cases bus.signed with
  | false => rfl
  | true => cases σ (bus.signalAt constants (bus.width - 1)) <;> simp [width]

/-- The first positions of a bus, as many as there may be, weigh as much as the bus up to a multiple of 2 to
their number. -/
theorem sum_signalAt (h : bus.bits ≠ []) {σ : Assignment} (hz : σ constants.zero = false) (width : Nat) :
    ((∑ i ∈ Finset.range width, (σ (bus.signalAt constants i)).toNat * 2 ^ i : Nat) : Int) =
      bus.value σ % 2 ^ width := by
  rcases Nat.eq_zero_or_pos width with rfl | hw
  · rw [pow_zero, Int.emod_one]
    rfl
  · rw [← value_of_extend (extend_eq_map h constants width) hw hz, List.map_map,
      ← bitsToNat_map_range fun i => σ (bus.signalAt constants i)]
    rfl

theorem mem_of_bit {position : Nat} {s : Signal} (h : bus.bit constants position = .ok s) :
    s ∈ bus.bits ∨ (s = constants.zero ∧ bus.signed = false ∧ bus.width ≤ position) := by
  have hmem : s ∈ bus.reach constants (position + 1) := mem_reach.2 ⟨position, Nat.lt_succ_self position, h⟩
  rcases mem_of_mem_reach hmem with hbit | ⟨hzero, hunsigned, hlt⟩
  · exact .inl (List.mem_of_mem_take hbit)
  · exact .inr ⟨hzero, hunsigned, Nat.le_of_lt_succ hlt⟩

theorem signalAt_bound {v : Valuation} (h : bus.bits ≠ []) (hz : v.get? constants.zero = some false)
    (hb : v.Binds bus.bits) (position : Nat) :
    v.get? (bus.signalAt constants position) = some (v.bit (bus.signalAt constants position)) := by
  rcases mem_of_bit (bit_eq h constants position) with hmem | ⟨hzero, -, -⟩
  · exact hb.get? hmem
  · have hsignal : bus.signalAt constants position = constants.zero := hzero
    rw [hsignal, hz, Valuation.bit_eq hz]

theorem bit_error_iff (bus : Bus) (constants : Constants) (position : Nat) (e : SynthesisError) :
    bus.bit constants position = .error e ↔ bus.width = 0 ∧ e = .emptyBus position := by
  by_cases h : bus.bits = []
  · rw [bit_of_empty h, Except.error.injEq, eq_comm]
    simp [width, h]
  · rw [bit_eq h]
    simp [width, h]

end Bus

/-- A bus is extended without end. A position of it fails exactly when the bus has no bits, and the error names
the position; otherwise it holds a bit of the bus, or the zero net, and that only past the width of an unsigned
bus. With the zero net at 0 and the bus bound, its positions carry an endless row of bits that starts with the
bits of the bus; and at every width the row, by the weights of its positions, is the integer on the bus modulo 2
to the width. -/
theorem extension_exact (constants : Constants) (bus : Bus) :
    (∀ position e, bus.bit constants position = .error e ↔ bus.width = 0 ∧ e = .emptyBus position) ∧
    (∀ position s, bus.bit constants position = .ok s →
      s ∈ bus.bits ∨ (s = constants.zero ∧ bus.signed = false ∧ bus.width ≤ position)) ∧
    (1 ≤ bus.width → ∀ v : Valuation, v.get? constants.zero = some false → v.Binds bus.bits →
      ∃ x : Nat → Bool,
        (∀ i, ∃ s, bus.bit constants i = .ok s ∧ v.get? s = some (x i)) ∧
        (∀ i s, bus.bits[i]? = some s → v.get? s = some (x i)) ∧
        ∀ width, ((∑ i ∈ Finset.range width, (x i).toNat * 2 ^ i : Nat) : Int) =
          (((∑ i ∈ Finset.range bus.width, (x i).toNat * 2 ^ i : Nat) : Int) -
            if bus.signed then 2 ^ bus.width * ((x (bus.width - 1)).toNat : Int) else 0) % 2 ^ width) := by
  refine ⟨bus.bit_error_iff constants, fun _ _ => Bus.mem_of_bit, fun hw v hz hb => ?_⟩
  have hne : bus.bits ≠ [] := List.ne_nil_of_length_pos hw
  have hbound := Bus.signalAt_bound hne hz hb
  refine ⟨fun i => v.bit (bus.signalAt constants i), fun i => ⟨_, Bus.bit_eq hne constants i, hbound i⟩,
    fun i s hs => ?_, fun width => ?_⟩
  · obtain rfl := Bus.signalAt_of_getElem? constants hs
    exact hbound i
  · rw [Bus.sum_signalAt hne (Valuation.bit_eq hz), Bus.value_eq_sum hne constants]

/-- A signed bus with one signal at both of its positions carries -1, which is 7 at three bits and 1 at one. -/
theorem extension_exact_shared_sign :
    let constants : Constants := ⟨⟨0⟩, ⟨1⟩⟩
    let bus : Bus := ⟨[⟨2⟩, ⟨2⟩], true⟩
    let v := (Valuation.empty.bindConstants constants).bindBits bus [false, true]
    1 ≤ bus.width ∧ v.get? constants.zero = some false ∧ v.Binds bus.bits ∧
      ∃ x : Nat → Bool, (∀ i, ∃ s, bus.bit constants i = .ok s ∧ v.get? s = some (x i)) ∧
        ∑ i ∈ Finset.range 3, (x i).toNat * 2 ^ i = 7 ∧ ∑ i ∈ Finset.range 1, (x i).toNat * 2 ^ i = 1 := by
  intro constants bus v
  obtain ⟨-, -, hvalue⟩ := extension_exact constants bus
  have hz : v.get? constants.zero = some false := by decide
  have hb : v.Binds bus.bits := by decide
  have hset : v.get? ⟨2⟩ = some true := by decide
  obtain ⟨x, hbit, hbits, hsum⟩ := hvalue (by decide) v hz hb
  have h0 : x 0 = true := Option.some.inj ((hbits 0 ⟨2⟩ rfl).symm.trans hset)
  have h1 : x 1 = true := Option.some.inj ((hbits 1 ⟨2⟩ rfl).symm.trans hset)
  have hwidth : ∑ i ∈ Finset.range bus.width, (x i).toNat * 2 ^ i = 3 := by
    rw [show bus.width = 2 from rfl, Finset.sum_range_succ, Finset.sum_range_succ, h0, h1]
    rfl
  rw [hwidth, show x (bus.width - 1) = true from h1] at hsum
  exact ⟨by decide, hz, hb, x, hbit, Int.ofNat_inj.1 (hsum 3), Int.ofNat_inj.1 (hsum 1)⟩

end RippleCarry
