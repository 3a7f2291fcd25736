import Mathlib.Algebra.Group.Int.Defs
import Mathlib.Algebra.Group.Nat.Defs
import RippleCarry.Bits
import RippleCarry.Proofs.Soundness
/-!
# The integers on buses

`bitsToNat` is linear in its bits, and the low bits of a number are the number modulo a power of 2
(`bitsToNat_natBits`, `bitsToNat_take`).

`Bus.value` is the integer that a bus carries under an assignment, in two's complement when the bus
is signed. `Bus.value_of_extend`: the first `width` positions of a bus, extended as they may be, carry
that integer modulo `2 ^ width`.
-/

namespace RippleCarry

theorem bitsToNat_natBits (width n : Nat) : bitsToNat (natBits width n) = n % 2 ^ width := by
  induction width generalizing n with
  | zero => simp [natBits, bitsToNat, Nat.mod_one]
  | succ width ih =>
    have low : (n % 2 == 1).toNat = n % 2 := by
      rcases Nat.mod_two_eq_zero_or_one n with h | h <;> simp [h]
    rw [natBits, bitsToNat, ih, low, Nat.pow_succ, Nat.mul_comm (2 ^ width), Nat.mod_mul]

theorem bitsToNat_lt (bits : List Bool) : bitsToNat bits < 2 ^ bits.length := by
  induction bits with
  | nil => simp [bitsToNat]
  | cons b rest ih =>
    have := Bool.toNat_le b
    simp only [bitsToNat, List.length_cons, Nat.pow_succ]
    omega

theorem bitsToNat_append (p q : List Bool) :
    bitsToNat (p ++ q) = bitsToNat p + 2 ^ p.length * bitsToNat q := by
  induction p with
  | nil => simp [bitsToNat]
  | cons b p ih =>
    rw [List.cons_append, bitsToNat, bitsToNat, ih, List.length_cons, Nat.pow_succ, Nat.mul_add,
      ← Nat.mul_assoc, Nat.mul_comm 2 (2 ^ p.length), Nat.add_assoc]

theorem bitsToNat_take (bits : List Bool) (width : Nat) :
    bitsToNat (bits.take width) = bitsToNat bits % 2 ^ width := by
  rcases Nat.le_total bits.length width with h | h
  · have hlt : bitsToNat bits < 2 ^ width :=
      Nat.lt_of_lt_of_le (bitsToNat_lt bits) (Nat.pow_le_pow_right (by decide) h)
    rw [List.take_of_length_le h, Nat.mod_eq_of_lt hlt]
  · have hlen : (bits.take width).length = width := List.length_take_of_le h
    have hlt := bitsToNat_lt (bits.take width)
    have hsplit := bitsToNat_append (bits.take width) (bits.drop width)
    rw [hlen] at hlt hsplit
    rw [List.take_append_drop] at hsplit
    rw [hsplit, Nat.add_mul_mod_self_left, Nat.mod_eq_of_lt hlt]

theorem bitsToNat_replicate (width : Nat) (b : Bool) :
    bitsToNat (List.replicate width b) = if b then 2 ^ width - 1 else 0 := by
  induction width with
  | zero => cases b <;> rfl
  | succ width ih =>
    have hpos : 0 < 2 ^ width := Nat.two_pow_pos width
    rw [List.replicate_succ, bitsToNat, ih, Nat.pow_succ]
    cases b
    · rfl
    · simp only [Bool.toNat_true, if_true]
      omega

/-- A number and its inverse add up to all ones. -/
theorem bitsToNat_not (bits : List Bool) :
    bitsToNat (bits.map (!·)) + bitsToNat bits + 1 = 2 ^ bits.length := by
  induction bits with
  | nil => rfl
  | cons b rest ih =>
    rw [List.map_cons, bitsToNat, bitsToNat, List.length_cons, Nat.pow_succ, ← ih]
    cases b <;> simp only [Bool.not_true, Bool.not_false, Bool.toNat_true, Bool.toNat_false] <;> omega

/-- The integer with the given bits; the last one counts negative when it is signed. -/
def bitsToInt (signed : Bool) (bits : List Bool) : Int :=
  bitsToNat bits - if signed && bits.getLastD false then 2 ^ bits.length else 0

namespace Bus

/-- The integer on the bus. -/
def value (σ : Assignment) (bus : Bus) : Int := bitsToInt bus.signed (bus.bits.map σ)

theorem value_congr {bus : Bus} {σ τ : Assignment} (h : ∀ s ∈ bus.bits, σ s = τ s) :
    bus.value σ = bus.value τ := by
  rw [value, value, List.map_congr_left h]

/-- The signal at every position past the width. -/
def fill (bus : Bus) (constants : Constants) : Signal :=
  if bus.signed then bus.bits.getLastD constants.zero else constants.zero

theorem bit_eq {bus : Bus} (h : bus.bits ≠ []) (constants : Constants) (position : Nat) :
    bus.bit constants position = .ok (bus.bits[position]?.getD (bus.fill constants)) := by
  have ht : bus.bits.getLast? = some (bus.bits.getLastD constants.zero) := by
    rw [List.getLastD_eq_getLast?, List.getLast?_eq_some_getLast h]
    rfl
  rw [bit, ht, fill]
  cases hp : bus.bits[position]? with
  | none => rfl
  | some s => rfl

theorem extend_eq {bus : Bus} (h : bus.bits ≠ []) (constants : Constants) (width : Nat) :
    bus.extend constants width =
      .ok ((bus.bits ++ List.replicate width (bus.fill constants)).take width) := by
  rw [extend, funext (bit_eq h constants)]
  refine List.mapM_pure.trans (congrArg Except.ok (List.ext_getElem? fun i => ?_))
  rw [List.getElem?_map, List.getElem?_take]
  by_cases hi : i < width
  · rw [List.getElem?_range hi, if_pos hi]
    by_cases hb : i < bus.bits.length
    · simp [List.getElem?_append_left hb, hb]
    · have hr : i - bus.bits.length < width := by omega
      simp [List.getElem?_append_right (Nat.le_of_not_lt hb), hr, hb]
  · rw [if_neg hi, List.getElem?_eq_none (by simpa using hi)]
    rfl

theorem nonempty_of_extend {bus : Bus} {constants : Constants} {width : Nat} {l : List Signal}
    (h : bus.extend constants width = .ok l) (hw : 0 < width) : bus.bits ≠ [] := by
  intro he
  obtain ⟨k, rfl⟩ := Nat.exists_eq_add_of_lt hw
  rw [extend, Nat.zero_add, List.range_succ_eq_map, List.mapM_cons] at h
  simp [bit, he, bind, Except.bind] at h

theorem length_of_extend {bus : Bus} {constants : Constants} {width : Nat} {l : List Signal}
    (h : bus.extend constants width = .ok l) (hw : 0 < width) : l.length = width := by
  rw [extend_eq (nonempty_of_extend h hw)] at h
  cases h
  rw [List.length_take, List.length_append, List.length_replicate]
  omega

theorem extend_subset {bus : Bus} {constants : Constants} {width : Nat} {l : List Signal}
    (h : bus.extend constants width = .ok l) (hw : 0 < width) : l ⊆ constants.zero :: bus.bits := by
  have hb := nonempty_of_extend h hw
  have hf : bus.fill constants ∈ constants.zero :: bus.bits := by
    rw [fill, List.getLastD_eq_getLast?, List.getLast?_eq_some_getLast hb]
    split
    · exact List.mem_cons_of_mem _ (List.getLast_mem hb)
    · exact List.mem_cons_self
  rw [extend_eq hb] at h
  cases h
  intro s hs
  rcases List.mem_append.1 (List.mem_of_mem_take hs) with hs | hs
  · exact List.mem_cons_of_mem _ hs
  · rwa [List.eq_of_mem_replicate hs]

/-- The fill bit repeats the sign. -/
theorem fill_value {bus : Bus} {constants : Constants} {σ : Assignment} (hz : σ constants.zero = false) :
    σ (bus.fill constants) = (bus.signed && (bus.bits.map σ).getLastD false) := by
  cases hs : bus.signed
  · simp [fill, hs, hz]
  · cases hl : bus.bits.getLast? <;> simp [fill, hs, hl, hz]

/-- The positions of an extended bus carry the integer on the bus, as far as they go. -/
theorem value_of_extend {bus : Bus} {constants : Constants} {width : Nat} {l : List Signal} {σ : Assignment}
    (h : bus.extend constants width = .ok l) (hw : 0 < width) (hz : σ constants.zero = false) :
    (bitsToNat (l.map σ) : Int) = bus.value σ % 2 ^ width := by
  have hb := nonempty_of_extend h hw
  rw [extend_eq hb] at h
  cases h
  rw [List.map_take, List.map_append, List.map_replicate, bitsToNat_take, bitsToNat_append, bitsToNat_replicate,
    fill_value hz, value, bitsToInt, Int.natCast_emod]
  split
  · -- the ones past the top weigh `2 ^ (w + width) - 2 ^ w`, which is `-2 ^ w` modulo `2 ^ width`
    have hpos : 1 ≤ 2 ^ width := Nat.two_pow_pos width
    have hfill : ∀ n w : Int, n + w * (2 ^ width - 1) = n - w + 2 ^ width * w := fun n w => by
      rw [Int.mul_sub, Int.mul_comm w (2 ^ width), Int.mul_one]
      omega
    push_cast [hpos]
    rw [hfill, Int.add_mul_emod_self_left]
  · simp

end Bus
end RippleCarry
