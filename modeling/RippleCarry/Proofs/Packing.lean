import RippleCarry.Proofs.Extension
import RippleCarry.Proofs.Integers
/-!
# Numbers to bits and back

A number binds the signals of a bus, and a list of bits packs into a number. Both go through the number's bits by
position (`natBits_eq_map`). `Valuation.bindInTurn` and `packInTurn` do the same on machine words, one position
after the other: they test a bit by a shift, and set one by a shift and an OR. At the last position, 63, nothing
is shifted out (`Valuation.bindInTurn_run`, `packInTurn_eq`).

`numbers_lossless`: what binding leaves on every signal, what packing gives for every list, and that either one
undoes the other as far as the width of the bus goes.
-/

namespace RippleCarry

/-! ## Bits by position -/

theorem natBits_eq_map (width n : Nat) : natBits width n = (List.range width).map n.testBit := by
  induction width generalizing n with
  | zero => rfl
  | succ width ih =>
    have hlow : (n % 2 == 1) = n.testBit 0 := by
      rw [Nat.testBit_zero]
      rfl
    have hrest : (n / 2).testBit = n.testBit ∘ Nat.succ := funext fun i => (n.testBit_succ i).symm
    rw [natBits, ih, List.range_succ_eq_map, List.map_cons, List.map_map, hlow, hrest]

theorem zip_natBits (l : List Signal) (n : Nat) :
    l.zip (natBits l.length n) = l.zipIdx.map fun p => (p.1, n.testBit p.2) := by
  rw [natBits_eq_map, List.zipIdx_eq_zip_range', ← List.range_eq_range', List.zip_map_right]
  rfl

theorem bitsToNat_eq_sum (bits : List Bool) :
    bitsToNat bits = ∑ i ∈ Finset.range bits.length, (bits.getD i false).toNat * 2 ^ i := by
  have hbits : (List.range bits.length).map (bits.getD · false) = bits := by
    refine List.ext_getElem (by simp) fun i hi hi' => ?_
    rw [List.getElem_map, List.getElem_range, List.getD_eq_getElem?_getD, List.getElem?_eq_getElem hi', Option.getD_some]
  rw [← bitsToNat_map_range, hbits]

/-! ## One position after the other -/

/-- The bit of a word at a position. -/
def wordBit (word : UInt64) (position : Nat) : Bool := (word >>> UInt64.ofNat position) &&& 1 == 1

/-- The word with a bit set at a position, if the bit is. -/
def joinBit (word : UInt64) (bit : Bool) (position : Nat) : UInt64 :=
  word ||| (bit.toUInt64 <<< UInt64.ofNat position)

/-- Binds the signals of a bus in place, one after the other, each to its bit of the word. -/
def Valuation.bindInTurn (bus : Bus) (word : UInt64) : ExceptT SimulationError (StateM Valuation) Unit := do
  ExceptT.mk (pure (requireFits bus.width))
  bus.bits.zipIdx.forM fun p => modify fun v : Valuation => v.insert p.1 (wordBit word p.2)

/-- Packs bits into a word, one after the other. -/
def packInTurn (bits : List Bool) : Except SimulationError UInt64 := do
  requireFits bits.length
  return bits.zipIdx.foldl (fun word p => joinBit word p.1 p.2) 0

theorem toNat_position {position : Nat} (h : position < 64) : (UInt64.ofNat position).toNat % 64 = position := by
  rw [UInt64.toNat_ofNat']
  omega

theorem wordBit_eq (word : UInt64) {position : Nat} (h : position < 64) :
    wordBit word position = word.toNat.testBit position := by
  have hnat : ((word >>> UInt64.ofNat position) &&& 1).toNat = word.toNat / 2 ^ position % 2 := by
    rw [UInt64.toNat_and, UInt64.toNat_shiftRight, toNat_position h, Nat.shiftRight_eq_div_pow]
    exact Nat.and_one_is_mod _
  rw [wordBit, Nat.testBit_eq_decide_div_mod_eq, ← hnat, beq_eq_decide]
  exact decide_eq_decide.2 UInt64.toNat_inj.symm

/-- A bit above all the others of a word adds its weight, and stays inside the word. -/
theorem toNat_joinBit {word : UInt64} {position : Nat} (hw : word.toNat < 2 ^ position) (hp : position < 64)
    (bit : Bool) : (joinBit word bit position).toNat = word.toNat + 2 ^ position * bit.toNat := by
  have hbit : bit.toUInt64.toNat = bit.toNat := by cases bit <;> rfl
  have hsmall : bit.toNat * 2 ^ position < 2 ^ 64 :=
    calc bit.toNat * 2 ^ position ≤ 1 * 2 ^ position := Nat.mul_le_mul_right _ (Bool.toNat_le bit)
      _ = 2 ^ position := Nat.one_mul _
      _ < 2 ^ 64 := Nat.pow_lt_pow_right (by decide) hp
  rw [joinBit, UInt64.toNat_or, UInt64.toNat_shiftLeft, toNat_position hp, hbit, Nat.shiftLeft_eq,
    Nat.mod_eq_of_lt hsmall, Nat.or_comm, Nat.mul_comm, ← Nat.two_pow_add_eq_or_of_lt hw, Nat.add_comm]

/-- The bits packed so far stay below the position of the next one. -/
theorem toNat_joinBits (bits : List Bool) {word : UInt64} {position : Nat} (hw : word.toNat < 2 ^ position)
    (hp : position + bits.length ≤ 64) :
    ((bits.zipIdx position).foldl (fun word p => joinBit word p.1 p.2) word).toNat =
      word.toNat + 2 ^ position * bitsToNat bits := by
  induction bits generalizing word position with
  | nil => rfl
  | cons bit rest ih =>
    rw [List.length_cons] at hp
    have hjoin := toNat_joinBit hw (by omega) bit
    have hnext : (joinBit word bit position).toNat < 2 ^ (position + 1) := by
      have hbit := Nat.mul_le_mul_left (2 ^ position) (Bool.toNat_le bit)
      rw [hjoin, Nat.pow_succ]
      omega
    rw [List.zipIdx_cons, List.foldl_cons, ih hnext (by omega), hjoin, bitsToNat, Nat.mul_add, Nat.pow_succ,
      Nat.mul_assoc, Nat.add_assoc]

theorem packInTurn_eq (bits : List Bool) : packInTurn bits = packBits bits := by
  rw [packInTurn, packBits, requireFits, maxWidth]
  split
  · rfl
  · next h =>
    have hlen : bits.length ≤ 64 := Nat.le_of_not_lt h
    refine congrArg Except.ok (UInt64.toNat_inj.1 ?_)
    rw [toNat_joinBits bits (by decide) (by omega), toNat_bitsToNat hlen]
    show 0 + 2 ^ 0 * bitsToNat bits = bitsToNat bits
    omega

theorem tooWide_iff {α : Type} (width : Nat) (a : α) (e : SimulationError) :
    (if 64 < width then .error (.tooWide width) else .ok a : Except SimulationError α) = .error e ↔
      64 < width ∧ e = .tooWide width := by
  by_cases hw : 64 < width
  · simp [hw, eq_comm]
  · simp [hw]

namespace Valuation

theorem bindEach_run (positions : List (Signal × Nat)) (bit : Nat → Bool) (v : Valuation) :
    (positions.forM fun p => modify fun v : Valuation => v.insert p.1 (bit p.2) :
        ExceptT SimulationError (StateM Valuation) Unit).run v =
      (.ok (), v.insertAll (positions.map fun p => (p.1, bit p.2))) := by
  induction positions generalizing v with
  | nil => rfl
  | cons p rest ih => exact ih (v.insert p.1 (bit p.2))

/-- In place a bus is bound as it is all at once, and what is refused leaves the valuation as it was. -/
theorem bindInTurn_run (v : Valuation) (bus : Bus) (word : UInt64) :
    (bindInTurn bus word).run v = match v.bindNumber bus word with
      | .ok w => (.ok (), w)
      | .error e => (.error e, v) := by
  rw [bindInTurn, bindNumber, requireFits, maxWidth]
  split
  · rfl
  · next h =>
    have hbits : (bus.bits.zipIdx.map fun p => (p.1, wordBit word p.2)) =
        bus.bits.zip (natBits bus.width word.toNat) := by
      rw [Bus.width, zip_natBits]
      refine List.map_congr_left fun p hp => ?_
      have hlt := List.snd_lt_of_mem_zipIdx hp
      rw [wordBit_eq word (by unfold Bus.width at h; omega)]
    show ((bus.bits.zipIdx.forM fun p => modify fun v : Valuation => v.insert p.1 (wordBit word p.2)) :
      ExceptT SimulationError (StateM Valuation) Unit).run v = _
    rw [bindEach_run, hbits]
    rfl

theorem bindNumber_error_iff (v : Valuation) (bus : Bus) (number : UInt64) (e : SimulationError) :
    v.bindNumber bus number = .error e ↔ 64 < bus.width ∧ e = .tooWide bus.width := by
  rw [bindNumber_eq]
  exact tooWide_iff bus.width _ e

theorem bindNumber_ok (v : Valuation) {bus : Bus} (h : bus.width ≤ 64) (number : UInt64) :
    v.bindNumber bus number = .ok (v.bindBits bus (natBits bus.width number.toNat)) := by
  rw [bindNumber_eq, if_neg (Nat.not_lt.2 h), bindBits]

end Valuation

theorem packBits_error_iff (bits : List Bool) (e : SimulationError) :
    packBits bits = .error e ↔ 64 < bits.length ∧ e = .tooWide bits.length := by
  rw [packBits_eq]
  exact tooWide_iff bits.length _ e

theorem packBits_ok {bits : List Bool} (h : bits.length ≤ 64) : packBits bits = .ok (bitsToNat bits).toUInt64 := by
  rw [packBits_eq, if_neg (Nat.not_lt.2 h)]

/-! ## What is bound -/

/-- The position is the last one of the bus at which the signal stands. -/
def Bus.LastAt (bus : Bus) (s : Signal) (position : Nat) : Prop :=
  bus.bits[position]? = some s ∧ ∀ later, position < later → bus.bits[later]? ≠ some s

theorem Bus.exists_lastAt {bus : Bus} {s : Signal} (h : s ∈ bus.bits) : ∃ position, bus.LastAt s position := by
  -- The first occurrence from the other end.
  obtain ⟨after, before, hsplit, hnot⟩ := List.eq_append_cons_of_mem (List.mem_reverse.2 h)
  have hbits : bus.bits = before.reverse ++ s :: after.reverse := by
    rw [← bus.bits.reverse_reverse, hsplit, List.reverse_append, List.reverse_cons, List.append_assoc,
      List.singleton_append]
  refine ⟨before.reverse.length, ?_, fun later hlater hs => hnot ?_⟩
  · rw [hbits, List.getElem?_append_right (Nat.le_refl _), Nat.sub_self]
    rfl
  · obtain ⟨k, rfl⟩ := Nat.exists_eq_add_of_lt hlater
    rw [hbits, List.getElem?_append_right (by omega), Nat.add_assoc, Nat.add_sub_cancel_left,
      List.getElem?_cons_succ] at hs
    exact List.mem_reverse.1 (List.mem_of_getElem? hs)

/-- Of the pairs for a signal the last one counts. -/
theorem SignalMap.get?_insertAll_last {α : Type} {pairs : List (Signal × α)} {position : Nat} {s : Signal} {b : α}
    (m : SignalMap α) (h : pairs[position]? = some (s, b))
    (hlast : ∀ later, position < later → (pairs.map Prod.fst)[later]? ≠ some s) :
    (m.insertAll pairs).get? s = some b := by
  obtain ⟨hlt, hget⟩ := List.getElem?_eq_some_iff.1 h
  have hsplit : pairs = pairs.take position ++ (s, b) :: pairs.drop (position + 1) := by
    rw [← hget, ← List.drop_eq_getElem_cons hlt, List.take_append_drop]
  have hafter : s ∉ (pairs.drop (position + 1)).map Prod.fst := by
    intro hs
    rw [List.map_drop] at hs
    obtain ⟨k, hk⟩ := List.mem_iff_getElem?.1 hs
    rw [List.getElem?_drop] at hk
    exact hlast _ (by omega) hk
  rw [hsplit, insertAll_append]
  exact (get?_insertAll_of_not_mem _ _ s hafter).trans (by rw [get?_insert, if_pos rfl])

namespace Valuation

section Bits

variable {bus : Bus} {bits : List Bool} (v : Valuation) (hl : bits.length = bus.width)

include hl

theorem map_fst_zip_bits : (bus.bits.zip bits).map Prod.fst = bus.bits :=
  List.map_fst_zip (Nat.le_of_eq hl.symm)

theorem get?_bindBits_other {s : Signal} (h : s ∉ bus.bits) : (v.bindBits bus bits).get? s = v.get? s :=
  SignalMap.get?_insertAll_of_not_mem _ v s (by rwa [map_fst_zip_bits hl])

theorem get?_bindBits_last {s : Signal} {position : Nat} (h : bus.LastAt s position) :
    (v.bindBits bus bits).get? s = bits[position]? := by
  obtain ⟨hlt, -⟩ := List.getElem?_eq_some_iff.1 h.1
  obtain ⟨b, hb⟩ : ∃ b, bits[position]? = some b := ⟨_, List.getElem?_eq_getElem (hl ▸ hlt)⟩
  rw [hb]
  refine SignalMap.get?_insertAll_last v (List.getElem?_zip_eq_some.2 ⟨h.1, hb⟩) ?_
  rw [map_fst_zip_bits hl]
  exact h.2

/-- On distinct signals the bits are read back. -/
theorem read_bindBits (hn : bus.bits.Nodup) : (v.bindBits bus bits).read bus.bits = .ok bits := by
  have hkeys : (bus.bits.zip bits).map Prod.fst = bus.bits := map_fst_zip_bits hl
  have hbinds : (v.bindBits bus bits).Binds bus.bits := fun s hs =>
    SignalMap.isSome_get?_insertAll _ v s (.inl (by rwa [hkeys]))
  have hbits : bus.bits.map (v.bindBits bus bits).bit = bits :=
    map_bit_of_zip hl fun p hp => SignalMap.get?_insertAll_of_nodup v (by rwa [hkeys]) hp
  rw [read_eq hbinds, hbits]

end Bits

theorem get?_bindNumber_last (v : Valuation) (number : Nat) {bus : Bus} {s : Signal} {position : Nat}
    (h : bus.LastAt s position) :
    (v.bindBits bus (natBits bus.width number)).get? s = some (number.testBit position) := by
  have hlt : position < bus.width := (List.getElem?_eq_some_iff.1 h.1).1
  rw [get?_bindBits_last v (length_natBits _ _) h, natBits_eq_map, List.getElem?_map, List.getElem?_range hlt]
  rfl

end Valuation

/-- Numbers go to bits and come back without loss.

Binding a bus to a number fails exactly when the bus has more than 64 bits, and done in place it then leaves the
valuation as it was. Otherwise a signal that is not on the bus keeps what it had, and one that is on it gets the
number's bit at the last position where it stands. Packing fails exactly on more than 64 bits, and otherwise gives
the sum of the bits by their weights. Both come to the same on machine words, one position after the other.

So on a bus of distinct signals that fits, a number that is bound, read back and packed is the number modulo 2 to
the width; and a list of as many bits, packed and bound, is read back as it was. -/
theorem numbers_lossless (v : Valuation) (bus : Bus) (number : UInt64) (bits : List Bool) :
    (∀ e, v.bindNumber bus number = .error e ↔ 64 < bus.width ∧ e = .tooWide bus.width) ∧
    ((Valuation.bindInTurn bus number).run v = match v.bindNumber bus number with
      | .ok w => (.ok (), w)
      | .error e => (.error e, v)) ∧
    (bus.width ≤ 64 → ∃ w, v.bindNumber bus number = .ok w ∧
      (∀ s, s ∉ bus.bits → w.get? s = v.get? s) ∧
      ∀ s ∈ bus.bits, ∃ position, bus.LastAt s position ∧ w.get? s = some (number.toNat.testBit position)) ∧
    (∀ e, packBits bits = .error e ↔ 64 < bits.length ∧ e = .tooWide bits.length) ∧
    packInTurn bits = packBits bits ∧
    (bits.length ≤ 64 → ∃ z, packBits bits = .ok z ∧
      z.toNat = ∑ i ∈ Finset.range bits.length, (bits.getD i false).toNat * 2 ^ i) ∧
    (bus.width ≤ 64 → bus.bits.Nodup →
      (∃ w low z, v.bindNumber bus number = .ok w ∧ w.read bus.bits = .ok low ∧ packBits low = .ok z ∧
        z.toNat = number.toNat % 2 ^ bus.width) ∧
      (bits.length = bus.width → ∃ z w, packBits bits = .ok z ∧ v.bindNumber bus z = .ok w ∧
        w.read bus.bits = .ok bits)) := by
  refine ⟨v.bindNumber_error_iff bus number, v.bindInTurn_run bus number, fun hw => ?_, packBits_error_iff bits,
    packInTurn_eq bits, fun hb => ?_, fun hw hn => ⟨?_, fun hl => ?_⟩⟩
  · refine ⟨_, v.bindNumber_ok hw number, fun s hs => v.get?_bindBits_other (length_natBits _ _) hs, fun s hs => ?_⟩
    obtain ⟨position, hlast⟩ := Bus.exists_lastAt hs
    exact ⟨position, hlast, v.get?_bindNumber_last number.toNat hlast⟩
  · exact ⟨_, packBits_ok hb, by rw [toNat_bitsToNat hb, bitsToNat_eq_sum]⟩
  · have hlen : (natBits bus.width number.toNat).length ≤ 64 := by rwa [length_natBits]
    refine ⟨_, _, _, v.bindNumber_ok hw number, v.read_bindBits (length_natBits _ _) hn, packBits_ok hlen, ?_⟩
    rw [toNat_bitsToNat hlen, bitsToNat_natBits]
  · have hlen : bits.length ≤ 64 := hl ▸ hw
    refine ⟨_, _, packBits_ok hlen, v.bindNumber_ok hw _, ?_⟩
    rw [toNat_bitsToNat hlen, ← hl, natBits_bitsToNat]
    exact v.read_bindBits hl hn

/-- The number 3 on a bus that ends with its first signal: the bit at position 2 counts there, which is not set,
and a signal off the bus stays. On two distinct signals 13 comes back as 1, and the bits of 2 as they are. -/
theorem numbers_lossless_last_position :
    let v : Valuation := SignalMap.insert Valuation.empty ⟨7⟩ true
    let repeated : Bus := ⟨[⟨2⟩, ⟨3⟩, ⟨2⟩], true⟩
    let distinct : Bus := ⟨[⟨2⟩, ⟨3⟩], false⟩
    (∃ w, v.bindNumber repeated 3 = .ok w ∧ w.get? ⟨7⟩ = some true ∧ w.get? ⟨2⟩ = some false) ∧
      distinct.width ≤ 64 ∧ distinct.bits.Nodup ∧
      (∃ w low z, v.bindNumber distinct 13 = .ok w ∧ w.read distinct.bits = .ok low ∧ packBits low = .ok z ∧
        z.toNat = 1) ∧
      ∃ z w, packBits [false, true] = .ok z ∧ v.bindNumber distinct z = .ok w ∧
        w.read distinct.bits = .ok [false, true] := by
  intro v repeated distinct
  obtain ⟨-, -, hbind, -⟩ := numbers_lossless v repeated 3 []
  obtain ⟨-, -, -, -, -, -, hback⟩ := numbers_lossless v distinct 13 [false, true]
  obtain ⟨w, hw, hother, hlast⟩ := hbind (by decide)
  obtain ⟨⟨w', low, z, hbound, hread, hpack, hz⟩, hup⟩ := hback (by decide) (by decide)
  refine ⟨⟨w, hw, ?_, ?_⟩, by decide, by decide, ⟨w', low, z, hbound, hread, hpack, hz.trans (by decide)⟩, hup rfl⟩
  · rw [hother ⟨7⟩ (by decide)]
    decide
  · obtain ⟨position, ⟨hat, hlater⟩, hget⟩ := hlast ⟨2⟩ (by decide)
    have hposition : position = 2 := by
      have h2 : ¬ position < 2 := fun h => hlater 2 h rfl
      have h3 : position < 3 := (List.getElem?_eq_some_iff.1 hat).1
      omega
    rw [hget, hposition]
    decide

end RippleCarry
