/-!
# Bit lists

Numbers as lists of bits, least significant first. `natBits_bitsToNat`: the bits of the number that a
list stands for are the list again.
-/

namespace RippleCarry

/-- The low bits of a number. -/
def natBits : (width : Nat) → Nat → List Bool
  | 0, _ => []
  | width + 1, n => (n % 2 == 1) :: natBits width (n / 2)

/-- The number with the given bits. -/
def bitsToNat : List Bool → Nat
  | [] => 0
  | b :: rest => b.toNat + 2 * bitsToNat rest

@[simp] theorem length_natBits (width n : Nat) : (natBits width n).length = width := by
  induction width generalizing n with
  | zero => rfl
  | succ width ih => simp [natBits, ih]

theorem natBits_bitsToNat (bits : List Bool) : natBits bits.length (bitsToNat bits) = bits := by
  induction bits with
  | nil => rfl
  | cons b rest ih =>
    have small := Bool.toNat_lt b
    have half : (b.toNat + 2 * bitsToNat rest) / 2 = bitsToNat rest := by omega
    have low : ((b.toNat + 2 * bitsToNat rest) % 2 == 1) = b := by
      rw [Nat.add_mul_mod_self_left]
      cases b <;> rfl
    simp only [List.length_cons, natBits, bitsToNat, half, low, ih]

end RippleCarry
