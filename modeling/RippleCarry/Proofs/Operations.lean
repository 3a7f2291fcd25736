import RippleCarry.Synthesis
import RippleCarry.Proofs.Stages
/-!
# Operations are exact

`Operation.value` is the integer that an operation stands for. `Descriptor.synthesize_exact`: the
netlist of a descriptor on operands with bits is made, and if it has no defects it evaluates to that
integer modulo 2 to the result width. From it follow addition and subtraction (`addition_exact`,
`subtraction_exact`) and the equality of an increment with the addition of its seed
(`increment_eq_addition`).
-/

namespace RippleCarry

/-- A run of two steps succeeds only when both do. -/
theorem ok_of_bind {ε α β : Type} {x : Except ε α} {f : α → Except ε β} {b : β} (h : x >>= f = .ok b) :
    ∃ a, x = .ok a ∧ f a = .ok b := by
  cases x with
  | error e => cases h
  | ok a => exact ⟨a, rfl, h⟩

theorem bitsToNat_inj {p q : List Bool} (hl : p.length = q.length) (h : bitsToNat p = bitsToNat q) : p = q := by
  rw [← natBits_bitsToNat p, ← natBits_bitsToNat q, hl, h]

namespace Ripple

/-- The ripple has the given width and, with the constants at 0 and 1, adds up to the given integer
as far as the width goes. -/
structure Computes (r : Ripple) (constants : Constants) (width : Nat) (x : Assignment → Int) : Prop where
  width_eq : r.width = width
  total_eq : ∀ σ : Assignment, σ constants.zero = false → σ constants.one = true →
    (r.total σ : Int) % 2 ^ width = x σ % 2 ^ width

theorem requireWidth_pos {width : Nat} (h : 0 < width) : requireWidth width = .ok () :=
  if_neg (Nat.ne_of_gt h)

theorem pos_of_requireWidth {width : Nat} {u : Unit} (h : requireWidth width = .ok u) : 0 < width := by
  rw [requireWidth] at h
  split at h
  · cases h
  · omega

theorem ofAdd_ok {constants : Constants} {a b : Bus} {width : Nat} {r : Ripple}
    (h : ofAdd constants a b width = .ok r) :
    0 < width ∧ ∃ as bs, a.extend constants width = .ok as ∧ b.extend constants width = .ok bs ∧
      r = .add (as.zip bs) := by
  obtain ⟨_, hw, h⟩ := ok_of_bind h
  obtain ⟨as, ha, h⟩ := ok_of_bind h
  obtain ⟨bs, hb, h⟩ := ok_of_bind h
  cases h
  exact ⟨pos_of_requireWidth hw, as, bs, ha, hb, rfl⟩

theorem ofSubtract_ok {constants : Constants} {a b : Bus} {width : Nat} {r : Ripple}
    (h : ofSubtract constants a b width = .ok r) :
    0 < width ∧ ∃ as bs, a.extend constants width = .ok as ∧ b.extend constants width = .ok bs ∧
      r = .subtract constants.one (as.zip bs) := by
  obtain ⟨_, hw, h⟩ := ok_of_bind h
  obtain ⟨as, ha, h⟩ := ok_of_bind h
  obtain ⟨bs, hb, h⟩ := ok_of_bind h
  cases h
  exact ⟨pos_of_requireWidth hw, as, bs, ha, hb, rfl⟩

theorem ofIncrement_ok {constants : Constants} {a : Bus} {seed : Signal} {width : Nat} {r : Ripple}
    (h : ofIncrement constants a seed width = .ok r) :
    0 < width ∧ ∃ as, a.extend constants width = .ok as ∧ r = .increment seed as := by
  obtain ⟨_, hw, h⟩ := ok_of_bind h
  obtain ⟨as, ha, h⟩ := ok_of_bind h
  cases h
  exact ⟨pos_of_requireWidth hw, as, ha, rfl⟩

theorem exists_ofAdd (constants : Constants) {a b : Bus} {width : Nat} (hw : 0 < width) (ha : a.bits ≠ [])
    (hb : b.bits ≠ []) : ∃ r, ofAdd constants a b width = .ok r :=
  ⟨_, by rw [ofAdd, requireWidth_pos hw, Bus.extend_eq ha, Bus.extend_eq hb]; rfl⟩

theorem exists_ofSubtract (constants : Constants) {a b : Bus} {width : Nat} (hw : 0 < width)
    (ha : a.bits ≠ []) (hb : b.bits ≠ []) : ∃ r, ofSubtract constants a b width = .ok r :=
  ⟨_, by rw [ofSubtract, requireWidth_pos hw, Bus.extend_eq ha, Bus.extend_eq hb]; rfl⟩

theorem exists_ofIncrement (constants : Constants) {a : Bus} (seed : Signal) {width : Nat} (hw : 0 < width)
    (ha : a.bits ≠ []) : ∃ r, ofIncrement constants a seed width = .ok r :=
  ⟨_, by rw [ofIncrement, requireWidth_pos hw, Bus.extend_eq ha]; rfl⟩

/-! ## The integer that a ripple adds up to -/

/-- Two buses extended to one width, side by side. -/
theorem map_zip_of_extend {constants : Constants} {a b : Bus} {width : Nat} {as bs : List Signal} (σ : Assignment)
    (hw : 0 < width) (ha : a.extend constants width = .ok as) (hb : b.extend constants width = .ok bs) :
    (as.zip bs).map (σ ·.1) = as.map σ ∧ (as.zip bs).map (σ ·.2) = bs.map σ := by
  have hla := Bus.length_of_extend ha hw
  have hlb := Bus.length_of_extend hb hw
  have hfst : (as.zip bs).map Prod.fst = as := List.map_fst_zip (by omega)
  have hsnd : (as.zip bs).map Prod.snd = bs := List.map_snd_zip (by omega)
  refine ⟨?_, ?_⟩
  · rw [← congrArg (List.map σ) hfst, List.map_map, Function.comp_def]
  · rw [← congrArg (List.map σ) hsnd, List.map_map, Function.comp_def]

/-- Two buses extended to one width, position by position. -/
theorem zip_of_extend {constants : Constants} {a b : Bus} {width : Nat} {as bs : List Signal} (σ : Assignment)
    (hw : 0 < width) (ha : a.extend constants width = .ok as) (hb : b.extend constants width = .ok bs)
    (hz : σ constants.zero = false) :
    (as.zip bs).length = width ∧
      (bitsToNat ((as.zip bs).map (σ ·.1)) : Int) = a.value σ % 2 ^ width ∧
      (bitsToNat ((as.zip bs).map (σ ·.2)) : Int) = b.value σ % 2 ^ width := by
  have hla := Bus.length_of_extend ha hw
  have hlb := Bus.length_of_extend hb hw
  obtain ⟨hfst, hsnd⟩ := map_zip_of_extend σ hw ha hb
  refine ⟨by rw [List.length_zip]; omega, ?_, ?_⟩
  · rw [hfst, Bus.value_of_extend ha hw hz]
  · rw [hsnd, Bus.value_of_extend hb hw hz]

theorem ofAdd_computes {constants : Constants} {a b : Bus} {width : Nat} {r : Ripple}
    (h : ofAdd constants a b width = .ok r) :
    r.Computes constants width fun σ => a.value σ + b.value σ := by
  obtain ⟨hw, as, bs, ha, hb, rfl⟩ := ofAdd_ok h
  refine ⟨(zip_of_extend (fun _ => false) hw ha hb rfl).1, fun σ hz _ => ?_⟩
  obtain ⟨-, hx, hy⟩ := zip_of_extend σ hw ha hb hz
  rw [total, Int.natCast_add, hx, hy]
  exact (Int.add_emod _ _ _).symm

/-- The inverse of `b` with the first carry is `-b` modulo 2 to the width. -/
theorem ofSubtract_computes {constants : Constants} {a b : Bus} {width : Nat} {r : Ripple}
    (h : ofSubtract constants a b width = .ok r) :
    r.Computes constants width fun σ => a.value σ - b.value σ := by
  obtain ⟨hw, as, bs, ha, hb, rfl⟩ := ofSubtract_ok h
  refine ⟨(zip_of_extend (fun _ => false) hw ha hb rfl).1, fun σ hz ho => ?_⟩
  obtain ⟨hl, hx, hy⟩ := zip_of_extend σ hw ha hb hz
  have hnot := bitsToNat_not ((as.zip bs).map (σ ·.2))
  rw [List.map_map, List.length_map, hl, Function.comp_def] at hnot
  have hpow : ((2 ^ width : Nat) : Int) = 2 ^ width := Int.natCast_pow 2 width
  have htotal : ((total σ (subtract constants.one (as.zip bs)) : Nat) : Int) =
      a.value σ % 2 ^ width - b.value σ % 2 ^ width + 2 ^ width := by
    rw [← hx, ← hy, total, ho, Bool.toNat_true]
    omega
  rw [htotal, Int.add_emod_right, ← Int.sub_emod]

theorem ofIncrement_computes {constants : Constants} {a : Bus} {seed : Signal} {width : Nat} {r : Ripple}
    (h : ofIncrement constants a seed width = .ok r) :
    r.Computes constants width fun σ => a.value σ + (σ seed).toNat := by
  obtain ⟨hw, as, ha, rfl⟩ := ofIncrement_ok h
  refine ⟨Bus.length_of_extend ha hw, fun σ hz _ => ?_⟩
  rw [total, Int.natCast_add, Bus.value_of_extend ha hw hz, Int.emod_add_emod]

/-! ## The signals that a ripple reads -/

theorem zip_inputs {constants : Constants} {a b : Bus} {width : Nat} {as bs : List Signal}
    (hw : 0 < width) (ha : a.extend constants width = .ok as) (hb : b.extend constants width = .ok bs) :
    (as.zip bs).flatMap (fun p => [p.1, p.2]) ⊆ constants.zero :: (a.bits ++ b.bits) := by
  intro s hs
  obtain ⟨⟨x, y⟩, hp, hs⟩ := List.mem_flatMap.1 hs
  obtain ⟨hx, hy⟩ := List.of_mem_zip hp
  have hx := Bus.extend_subset ha hw hx
  have hy := Bus.extend_subset hb hw hy
  simp only [List.mem_cons, List.not_mem_nil, or_false, List.mem_append] at hs hx hy ⊢
  rcases hs with rfl | rfl
  · exact hx.imp_right .inl
  · exact hy.imp_right .inr

theorem ofAdd_inputs {constants : Constants} {a b : Bus} {width : Nat} {r : Ripple}
    (h : ofAdd constants a b width = .ok r) : r.inputs ⊆ constants.zero :: (a.bits ++ b.bits) := by
  obtain ⟨hw, as, bs, ha, hb, rfl⟩ := ofAdd_ok h
  exact zip_inputs hw ha hb

theorem ofSubtract_inputs {constants : Constants} {a b : Bus} {width : Nat} {r : Ripple}
    (h : ofSubtract constants a b width = .ok r) :
    r.inputs ⊆ constants.one :: constants.zero :: (a.bits ++ b.bits) := by
  obtain ⟨hw, as, bs, ha, hb, rfl⟩ := ofSubtract_ok h
  exact List.cons_subset_cons _ (zip_inputs hw ha hb)

theorem ofIncrement_inputs {constants : Constants} {a : Bus} {seed : Signal} {width : Nat} {r : Ripple}
    (h : ofIncrement constants a seed width = .ok r) : r.inputs ⊆ seed :: constants.zero :: a.bits := by
  obtain ⟨hw, as, ha, rfl⟩ := ofIncrement_ok h
  refine List.cons_subset_cons _ fun s hs => ?_
  obtain ⟨t, ht, hs⟩ := List.mem_flatMap.1 hs
  rw [List.mem_singleton.1 hs]
  exact Bus.extend_subset ha hw ht

end Ripple

/-! ## Operations -/

theorem incrementSeed_some {constants : Constants} {literal : Bus} (h : literal.bits ≠ []) :
    incrementSeed constants (some literal) = .ok (literal.bits.head h) := by
  rw [incrementSeed, Bus.bit_eq h, ← List.head?_eq_getElem?, List.head?_eq_some_head h]
  rfl

namespace Operation

/-- The integer that the operation stands for. -/
def value (σ : Assignment) : Operation → Int
  | add a b => a.value σ + b.value σ
  | subtract a b => a.value σ - b.value σ
  | increment a none => a.value σ + 1
  | increment a (some literal) => a.value σ + ((literal.bits.map σ).headD false).toNat

theorem ripple_computes {op : Operation} {constants : Constants} {width : Nat} {r : Ripple}
    (h : op.ripple constants width = .ok r) : r.Computes constants width fun σ => op.value σ := by
  cases op with
  | add a b => exact Ripple.ofAdd_computes h
  | subtract a b => exact Ripple.ofSubtract_computes h
  | increment a literal =>
    obtain ⟨_, _, h⟩ := ok_of_bind h
    obtain ⟨seed, hs, h⟩ := ok_of_bind h
    obtain ⟨hwidth, htotal⟩ := Ripple.ofIncrement_computes h
    refine ⟨hwidth, fun σ hz ho => ?_⟩
    rw [htotal σ hz ho]
    cases literal with
    | none =>
      cases hs
      rw [ho]
      rfl
    | some literal =>
      have hl : literal.bits ≠ [] := fun he => by simp [incrementSeed, Bus.bit, he] at hs
      rw [incrementSeed_some hl] at hs
      cases hs
      obtain ⟨s, rest, hb⟩ := List.exists_cons_of_ne_nil hl
      simp [value, hb]

theorem exists_ripple {op : Operation} (constants : Constants) {width : Nat} (hw : 0 < width)
    (ho : ∀ bus ∈ op.operands, bus.bits ≠ []) : ∃ r, op.ripple constants width = .ok r := by
  have hfirst : op.first.bits ≠ [] := ho _ (by simp [operands])
  cases op with
  | add a b => exact Ripple.exists_ofAdd constants hw hfirst (ho b (by simp [operands, second]))
  | subtract a b => exact Ripple.exists_ofSubtract constants hw hfirst (ho b (by simp [operands, second]))
  | increment a literal =>
    obtain ⟨seed, hs⟩ : ∃ seed, incrementSeed constants literal = .ok seed := by
      cases literal with
      | none => exact ⟨_, rfl⟩
      | some literal => exact ⟨_, incrementSeed_some (ho literal (by simp [operands, second]))⟩
    rw [ripple, Ripple.requireWidth_pos hw, hs]
    exact Ripple.exists_ofIncrement constants seed hw hfirst

/-- Only the values on the operands matter. -/
theorem value_congr {op : Operation} {σ τ : Assignment} (h : ∀ s ∈ op.operands.flatMap Bus.bits, σ s = τ s) :
    op.value σ = op.value τ := by
  have hbus : ∀ bus ∈ op.operands, ∀ s ∈ bus.bits, σ s = τ s := fun bus hb s hs =>
    h s (List.mem_flatMap.2 ⟨bus, hb, hs⟩)
  cases op with
  | add a b =>
    have ha := Bus.value_congr (hbus a (by simp [operands, first]))
    have hb := Bus.value_congr (hbus b (by simp [operands, second]))
    rw [value, value, ha, hb]
  | subtract a b =>
    have ha := Bus.value_congr (hbus a (by simp [operands, first]))
    have hb := Bus.value_congr (hbus b (by simp [operands, second]))
    rw [value, value, ha, hb]
  | increment a literal =>
    have ha := Bus.value_congr (hbus a (by simp [operands, first]))
    cases literal with
    | none => rw [value, value, ha]
    | some literal =>
      have hl := List.map_congr_left (hbus literal (by simp [operands, second]))
      rw [value, value, ha, hl]

end Operation

/-! ## Netlists of descriptors -/

namespace Descriptor

theorem synthesize_eq {d : Descriptor} {constants : Constants} {r : Ripple}
    (h : d.op.ripple constants d.resultWidth = .ok r) (alloc : Allocator) :
    (d.synthesize constants).run alloc =
      (.ok ⟨(r.emit alloc).gates, (r.emit alloc).value⟩, (r.emit alloc).allocator) := by
  rw [synthesize, h]
  rfl

/-- The netlist of a descriptor, without defects, evaluates wherever the operands have values, and to the
integer that the operation stands for. -/
theorem emit_exact {d : Descriptor} {constants : Constants} {r : Ripple}
    (hr : d.op.ripple constants d.resultWidth = .ok r) (alloc : Allocator)
    (hclean : Netlist.defectsFor ⟨(r.emit alloc).gates, (r.emit alloc).value⟩ constants d = [])
    {v : Valuation} (hv : v.Ready constants (d.op.operands.flatMap Bus.bits)) :
    ∃ bits, Netlist.eval ⟨(r.emit alloc).gates, (r.emit alloc).value⟩ v = .ok bits ∧
      bits.length = d.resultWidth ∧ (bitsToNat bits : Int) = d.op.value v.bit % 2 ^ d.resultWidth := by
  obtain ⟨hwidth, htotal⟩ := Operation.ripple_computes hr
  obtain ⟨σ, hσ, heval⟩ := Netlist.solution_of_clean hclean hv
  refine ⟨_, heval, ?_, ?_⟩
  · rw [List.length_map, Ripple.length_emit, hwidth]
  · rw [Ripple.emit_value r alloc hσ.satisfies, hwidth, ← Operation.value_congr hσ.keeps,
      ← htotal σ hσ.zero hσ.one]
    rfl

/-- A descriptor on operands with bits gets a netlist, exact if it has no defects. -/
theorem synthesize_exact (constants : Constants) (d : Descriptor) (alloc : Allocator)
    (hw : 0 < d.resultWidth) (ho : ∀ bus ∈ d.op.operands, bus.bits ≠ []) :
    ∃ n after, (d.synthesize constants).run alloc = (.ok n, after) ∧
      (n.defectsFor constants d = [] →
        ∀ v : Valuation, v.Ready constants (d.op.operands.flatMap Bus.bits) →
          ∃ bits, n.eval v = .ok bits ∧ bits.length = d.resultWidth ∧
            (bitsToNat bits : Int) = d.op.value v.bit % 2 ^ d.resultWidth) := by
  obtain ⟨r, hr⟩ := Operation.exists_ripple constants hw ho
  exact ⟨_, _, synthesize_eq hr alloc, fun hclean _ hv => emit_exact hr alloc hclean hv⟩

end Descriptor

/-- Addition is exact: a result of any width is the sum of the integers on the operands, each read by
its own signedness, modulo 2 to that width. -/
theorem addition_exact (constants : Constants) (a b : Bus) (width : Nat) (alloc : Allocator)
    (ha : a.bits ≠ []) (hb : b.bits ≠ []) (hw : 0 < width) :
    ∃ n after, (Descriptor.synthesize constants ⟨.add a b, width⟩).run alloc = (.ok n, after) ∧
      (n.defectsFor constants ⟨.add a b, width⟩ = [] →
        ∀ v : Valuation, v.Ready constants (a.bits ++ b.bits) →
          ∃ bits, n.eval v = .ok bits ∧ bits.length = width ∧
            (bitsToNat bits : Int) = (a.value v.bit + b.value v.bit) % 2 ^ width) := by
  have h := Descriptor.synthesize_exact constants ⟨.add a b, width⟩ alloc hw
    (by simp [Operation.operands, Operation.first, Operation.second, ha, hb])
  simpa [Operation.operands, Operation.first, Operation.second, Operation.value] using h

/-- A signed bus at -1 and a one-bit bus on its top bit, added to four bits. -/
theorem addition_exact_shared_bit :
    let constants : Constants := ⟨⟨0⟩, ⟨1⟩⟩
    let a : Bus := ⟨[⟨2⟩, ⟨3⟩], true⟩
    let b : Bus := ⟨[⟨3⟩], false⟩
    let v := (Valuation.empty.bindConstants constants).bindBits a [true, true]
    ∃ n after, (Descriptor.synthesize constants ⟨.add a b, 4⟩).run ⟨4⟩ = (.ok n, after) ∧
      n.defectsFor constants ⟨.add a b, 4⟩ = [] ∧ v.Ready constants (a.bits ++ b.bits) ∧
      ∃ bits, n.eval v = .ok bits ∧ bits.length = 4 ∧ (bitsToNat bits : Int) = (-1 + 1) % 2 ^ 4 := by
  intro constants a b v
  obtain ⟨n, after, hrun, hexact⟩ :=
    addition_exact constants a b 4 ⟨4⟩ (by decide) (by decide) (by decide)
  have hclean : n.defectsFor constants ⟨.add a b, 4⟩ = [] := by
    cases hrun
    decide
  exact ⟨n, after, hrun, hclean, by decide, hexact hclean v (by decide)⟩

/-- Subtraction is exact: a result of any width is the difference of the integers on the operands,
each read by its own signedness, modulo 2 to that width. -/
theorem subtraction_exact (constants : Constants) (a b : Bus) (width : Nat) (alloc : Allocator)
    (ha : a.bits ≠ []) (hb : b.bits ≠ []) (hw : 0 < width) :
    ∃ n after, (Descriptor.synthesize constants ⟨.subtract a b, width⟩).run alloc = (.ok n, after) ∧
      (n.defectsFor constants ⟨.subtract a b, width⟩ = [] →
        ∀ v : Valuation, v.Ready constants (a.bits ++ b.bits) →
          ∃ bits, n.eval v = .ok bits ∧ bits.length = width ∧
            (bitsToNat bits : Int) = (a.value v.bit - b.value v.bit) % 2 ^ width) := by
  have h := Descriptor.synthesize_exact constants ⟨.subtract a b, width⟩ alloc hw
    (by simp [Operation.operands, Operation.first, Operation.second, ha, hb])
  simpa [Operation.operands, Operation.first, Operation.second, Operation.value] using h

/-- An unsigned 1 less a signed -2, to four bits. -/
theorem subtraction_exact_mixed_signs :
    let constants : Constants := ⟨⟨0⟩, ⟨1⟩⟩
    let a : Bus := ⟨[⟨2⟩], false⟩
    let b : Bus := ⟨[⟨3⟩, ⟨2⟩], true⟩
    let v := (Valuation.empty.bindConstants constants).bindBits b [false, true]
    ∃ n after, (Descriptor.synthesize constants ⟨.subtract a b, 4⟩).run ⟨4⟩ = (.ok n, after) ∧
      n.defectsFor constants ⟨.subtract a b, 4⟩ = [] ∧ v.Ready constants (a.bits ++ b.bits) ∧
      ∃ bits, n.eval v = .ok bits ∧ bits.length = 4 ∧ (bitsToNat bits : Int) = (1 - -2) % 2 ^ 4 := by
  intro constants a b v
  obtain ⟨n, after, hrun, hexact⟩ :=
    subtraction_exact constants a b 4 ⟨4⟩ (by decide) (by decide) (by decide)
  have hclean : n.defectsFor constants ⟨.subtract a b, 4⟩ = [] := by
    cases hrun
    decide
  exact ⟨n, after, hrun, hclean, by decide, hexact hclean v (by decide)⟩

/-! ## Increments -/

theorem value_single (s : Signal) (σ : Assignment) : Bus.value σ ⟨[s], false⟩ = (σ s).toNat := by
  simp [Bus.value, bitsToInt, bitsToNat]

section Seed

variable {constants : Constants} {literal : Option Bus} {seed : Signal}

theorem seed_mem (h : literal.elim (some constants.one) (·.bits.head?) = some seed) :
    seed ∈ constants.one :: literal.elim [] Bus.bits := by
  cases literal with
  | none => cases h; exact List.mem_cons_self
  | some bus => exact List.mem_cons_of_mem _ (List.mem_of_head? h)

theorem value_increment (a : Bus) (h : literal.elim (some constants.one) (·.bits.head?) = some seed)
    {σ : Assignment} (ho : σ constants.one = true) :
    (Operation.increment a literal).value σ = a.value σ + (σ seed).toNat := by
  cases literal with
  | none =>
    cases h
    rw [Operation.value, ho]
    rfl
  | some bus =>
    have hb : bus.bits.head? = some seed := h
    simp [Operation.value, List.headD_eq_head?_getD, hb]

theorem bits_increment (a : Bus) (literal : Option Bus) :
    (Operation.increment a literal).operands.flatMap Bus.bits = a.bits ++ literal.elim [] Bus.bits := by
  cases literal <;> simp [Operation.operands, Operation.first, Operation.second]

theorem nonempty_increment {a : Bus} (ha : a.bits ≠ [])
    (h : literal.elim (some constants.one) (·.bits.head?) = some seed) :
    ∀ bus ∈ (Operation.increment a literal).operands, bus.bits ≠ [] := by
  intro bus hb
  rcases List.mem_cons.1 hb with rfl | hb
  · exact ha
  · cases literal with
    | none => cases hb
    | some literal =>
      rw [List.mem_singleton.1 hb]
      exact List.ne_nil_of_mem (List.mem_of_head? h)

end Seed

/-- An increment adds its seed, bit 0 of the literal or the constant 1 without one, whatever the seed's
value is; and it gives the bits that the addition of a one-bit bus on the seed gives. -/
theorem increment_eq_addition (constants : Constants) (a : Bus) (literal : Option Bus) (seed : Signal)
    (width : Nat) (alloc alloc' : Allocator) (ha : a.bits ≠ [])
    (hseed : literal.elim (some constants.one) (·.bits.head?) = some seed) (hw : 0 < width) :
    ∃ inc sum after after',
      (Descriptor.synthesize constants ⟨.increment a literal, width⟩).run alloc = (.ok inc, after) ∧
      (Descriptor.synthesize constants ⟨.add a ⟨[seed], false⟩, width⟩).run alloc' = (.ok sum, after') ∧
      (inc.defectsFor constants ⟨.increment a literal, width⟩ = [] →
        ∀ v : Valuation, v.Ready constants (a.bits ++ literal.elim [] Bus.bits) →
          (literal = none → v.bit seed = true) ∧
          ∃ bits, inc.eval v = .ok bits ∧ bits.length = width ∧
            (bitsToNat bits : Int) = (a.value v.bit + (v.bit seed).toNat) % 2 ^ width ∧
            (sum.defectsFor constants ⟨.add a ⟨[seed], false⟩, width⟩ = [] → sum.eval v = .ok bits)) := by
  obtain ⟨inc, after, hinc, hexact⟩ := Descriptor.synthesize_exact constants ⟨.increment a literal, width⟩ alloc hw
    (nonempty_increment ha hseed)
  obtain ⟨sum, after', hsum, hexact'⟩ :=
    Descriptor.synthesize_exact constants ⟨.add a ⟨[seed], false⟩, width⟩ alloc' hw
      (by simp [Operation.operands, Operation.first, Operation.second, ha])
  refine ⟨inc, sum, after, after', hinc, hsum, fun hclean v hv => ⟨?_, ?_⟩⟩
  · rintro rfl
    cases hseed
    exact Valuation.bit_eq hv.one
  obtain ⟨bits, heval, hlen, hval⟩ := hexact hclean v (by rwa [bits_increment])
  rw [value_increment a hseed (Valuation.bit_eq hv.one)] at hval
  refine ⟨bits, heval, hlen, hval, fun hclean' => ?_⟩
  have hready : v.Ready constants (a.bits ++ [seed]) := hv.mono (by
    intro s hs
    rcases List.mem_append.1 hs with hs | hs
    · simp [hs]
    · have hm := seed_mem hseed
      rw [← List.mem_singleton.1 hs] at hm
      simp only [List.mem_cons, List.mem_append] at hm ⊢
      rcases hm with hm | hm <;> simp [hm])
  obtain ⟨bits', heval', hlen', hval'⟩ := hexact' hclean' v hready
  -- The two chains share no gates; what they share is the length and the number of their results.
  have hsame : bits' = bits := by
    refine bitsToNat_inj (hlen'.trans hlen.symm) (Int.ofNat_inj.1 ?_)
    rw [hval, hval', Operation.value, value_single]
  rw [heval', hsame]

/-- A signed literal of two bits with bit 0 clear leaves -1 as it is. -/
theorem increment_eq_addition_clear_seed :
    let constants : Constants := ⟨⟨0⟩, ⟨1⟩⟩
    let a : Bus := ⟨[⟨2⟩], true⟩
    let literal : Bus := ⟨[⟨3⟩, ⟨4⟩], true⟩
    let v := ((Valuation.empty.bindConstants constants).bindBits a [true]).bindBits literal [false, true]
    ∃ inc sum after after',
      (Descriptor.synthesize constants ⟨.increment a (some literal), 3⟩).run ⟨5⟩ = (.ok inc, after) ∧
      (Descriptor.synthesize constants ⟨.add a ⟨[⟨3⟩], false⟩, 3⟩).run ⟨7⟩ = (.ok sum, after') ∧
      inc.defectsFor constants ⟨.increment a (some literal), 3⟩ = [] ∧
      sum.defectsFor constants ⟨.add a ⟨[⟨3⟩], false⟩, 3⟩ = [] ∧
      ∃ bits, inc.eval v = .ok bits ∧ (bitsToNat bits : Int) = (-1 + 0) % 2 ^ 3 ∧ sum.eval v = .ok bits := by
  intro constants a literal v
  obtain ⟨inc, sum, after, after', hinc, hsum, hexact⟩ :=
    increment_eq_addition constants a (some literal) ⟨3⟩ 3 ⟨5⟩ ⟨7⟩ (by decide) (by decide) (by decide)
  have hclean : inc.defectsFor constants ⟨.increment a (some literal), 3⟩ = [] := by
    cases hinc
    decide
  have hclean' : sum.defectsFor constants ⟨.add a ⟨[⟨3⟩], false⟩, 3⟩ = [] := by
    cases hsum
    decide
  obtain ⟨-, bits, heval, -, hval, hsame⟩ := hexact hclean v (by decide)
  exact ⟨inc, sum, after, after', hinc, hsum, hclean, hclean', bits, heval, hval, hsame hclean'⟩

end RippleCarry
