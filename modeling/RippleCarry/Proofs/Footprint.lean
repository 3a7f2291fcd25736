import RippleCarry.Proofs.Failures
/-!
# What an evaluation needs

The gates of an operation read some signals that no gate drives, and `Operation.footprint` lists them.
`Netlist.Needs` says of any netlist that it reads a list of signals, all of them, and drives none. Three
facts follow about valuations that may bind anything: evaluation goes through exactly when they bind the
list (`Netlist.Needs.eval_ok_iff`), it stops at a signal of the list if it stops (`Netlist.Needs.eval_error`),
and it cannot tell two valuations apart that agree on the list (`Netlist.Needs.eval_congr`).

`eval_footprint`: the netlist of a descriptor, if it is clean, needs the footprint of its operation and
nothing else.
-/

namespace RippleCarry

/-! ## Two runs -/

namespace Valuation

variable {v w : Valuation} {l : List Signal}

theorem read_congr (h : ∀ s ∈ l, v.get? s = w.get? s) : v.read l = w.read l := by
  induction l with
  | nil => rfl
  | cons s rest ih =>
    have hrest := ih fun t ht => h t (List.mem_cons_of_mem _ ht)
    simp only [read, h s List.mem_cons_self, hrest]

/-- Reading stops at a signal of the list that has no value. -/
theorem of_read_error {s : Signal} (h : v.read l = .error s) : s ∈ l ∧ v.get? s = none := by
  induction l with
  | nil => cases h
  | cons t rest ih =>
    unfold read at h
    cases ht : v.get? t with
    | none =>
      rw [ht] at h
      cases h
      exact ⟨List.mem_cons_self, ht⟩
    | some b =>
      simp only [ht] at h
      cases hr : v.read rest with
      | ok bits => rw [hr] at h; cases h
      | error s' =>
        rw [hr] at h
        cases h
        obtain ⟨hs, hn⟩ := ih hr
        exact ⟨List.mem_cons_of_mem _ hs, hn⟩

end Valuation

theorem SignalMap.get?_insertAll_of_mem {α : Type} {pairs : List (Signal × α)} {s : Signal}
    (h : s ∈ pairs.map Prod.fst) (m m' : SignalMap α) : (m.insertAll pairs).get? s = (m'.insertAll pairs).get? s := by
  induction pairs generalizing m m' with
  | nil => cases h
  | cons p rest ih =>
    show ((m.insert p.1 p.2).insertAll rest).get? s = ((m'.insert p.1 p.2).insertAll rest).get? s
    by_cases hr : s ∈ rest.map Prod.fst
    · exact ih hr _ _
    · have hp : s = p.1 := by simpa [hr] using h
      apply get?_insertAll_congr
      rw [get?_insert, get?_insert, if_pos hp.symm, if_pos hp.symm]

/-- A gate that reads the same in two valuations leaves the same on its outputs, and whatever was the same
before. -/
theorem Gate.settle_agree {g : Gate} {v w : Valuation} (hin : ∀ s ∈ g.inputs, v.get? s = w.get? s) {s : Signal}
    (hs : s ∈ g.outputs ∨ v.get? s = w.get? s) : (g.settle v).get? s = (g.settle w).get? s := by
  rcases hs with hs | hs
  · have hbits : g.inputs.map v.bit = g.inputs.map w.bit := by
      apply List.map_congr_left
      intro t ht
      rw [Valuation.bit, Valuation.bit, hin t ht]
    rw [settle, settle, hbits]
    apply SignalMap.get?_insertAll_of_mem
    rwa [g.map_fst_settle w]
  · exact get?_settle_congr hin hs

theorem Gate.drive_congr {g : Gate} {v w : Valuation} (hin : ∀ s ∈ g.inputs, v.get? s = w.get? s) :
    (∃ s, g.drive v = .error s ∧ g.drive w = .error s) ∨
      (g.drive v = .ok (g.settle v) ∧ g.drive w = .ok (g.settle w)) := by
  have hread := Valuation.read_congr hin
  cases hw : w.read g.inputs with
  | error s =>
    refine .inl ⟨s, ?_, ?_⟩
    · rw [drive, hread, hw]
      rfl
    · rw [drive, hw]
      rfl
  | ok bits =>
    exact .inr ⟨g.drive_eq_settle (Valuation.binds_of_read (hread.trans hw)),
      g.drive_eq_settle (Valuation.binds_of_read hw)⟩

/-- Two runs from valuations that agree on what is known stop at the same input, or both go through and
agree on what is known and driven by then. -/
theorem driveAll_congr {gates : List Gate} {known : List Signal} {v w : Valuation} (hr : Reads known gates)
    (h : ∀ s ∈ known, v.get? s = w.get? s) (index : Nat) :
    (∃ e, driveAll index gates v = .error e ∧ driveAll index gates w = .error e) ∨
      (driveAll index gates v = .ok (settle gates v) ∧ driveAll index gates w = .ok (settle gates w) ∧
        ∀ s ∈ known ++ drivenBy gates, (settle gates v).get? s = (settle gates w).get? s) := by
  induction gates generalizing known v w index with
  | nil => exact .inr ⟨rfl, rfl, by simpa [drivenBy, settle] using h⟩
  | cons g rest ih =>
    have hin : ∀ s ∈ g.inputs, v.get? s = w.get? s := fun s hs => h s (hr.1 hs)
    have hknown : ∀ s ∈ known ++ g.outputs, (g.settle v).get? s = (g.settle w).get? s := by
      intro s hs
      apply Gate.settle_agree hin
      exact (List.mem_append.1 hs).symm.imp_right (h s)
    simp only [driveAll, settle, drivenBy, List.flatMap_cons]
    rcases Gate.drive_congr hin with ⟨s, hv, hw⟩ | ⟨hv, hw⟩
    · exact .inl ⟨.unboundInput index s, by rw [hv], by rw [hw]⟩
    · rw [hv, hw, ← List.append_assoc]
      exact ih hr.2 hknown (index + 1)

/-- A run stops at a known signal without a value. -/
theorem of_driveAll_error {gates : List Gate} {known : List Signal} {v : Valuation} {index : Nat} {e : SimulationError}
    (hr : Reads known gates) (h : driveAll index gates v = .error e) :
    ∃ j s, e = .unboundInput j s ∧ s ∈ known ∧ v.get? s = none := by
  induction gates generalizing known v index with
  | nil => cases h
  | cons g rest ih =>
    unfold driveAll at h
    cases hread : v.read g.inputs with
    | error s =>
      obtain ⟨hs, hn⟩ := Valuation.of_read_error hread
      rw [Gate.drive, hread] at h
      cases h
      exact ⟨index, s, rfl, hr.1 hs, hn⟩
    | ok bits =>
      rw [g.drive_eq_settle (Valuation.binds_of_read hread)] at h
      obtain ⟨j, s, he, hs, hn⟩ := ih hr.2 h
      -- The outputs of this gate have values by then, so the signal is none of them.
      have hout : s ∉ g.outputs := by
        intro ho
        have hbound := g.binds_settle v.binds_domain s (List.mem_append_right _ ho)
        rw [hn] at hbound
        cases hbound
      rw [g.get?_settle_other v hout] at hn
      exact ⟨j, s, he, (List.mem_append.1 hs).resolve_right hout, hn⟩

/-! ## Netlists and the signals that they need -/

/-- The netlist reads all of the given signals and drives none of them, reads nothing else that it does not
drive before, and hands back only what it drives. -/
structure Netlist.Needs (n : Netlist) (needed : List Signal) : Prop where
  reads : Reads needed n.gates
  used : needed ⊆ readBy n.gates
  undriven : ∀ s ∈ n.driven, s ∉ needed
  results : n.resultBits ⊆ n.driven

namespace Netlist.Needs

variable {n : Netlist} {needed : List Signal} {v w : Valuation}

/-- Gates that use a signal and do not drive it can be run only where it is known. -/
theorem reads_iff (h : n.Needs needed) {known : List Signal} : Reads known n.gates ↔ needed ⊆ known := by
  constructor
  · intro hr s hs
    obtain ⟨g, hg, hin⟩ := List.mem_flatMap.1 (h.used hs)
    have hmem := hr.inputs_subset hg hin
    exact (List.mem_append.1 hmem).resolve_right fun hd => h.undriven s hd hs
  · intro hs
    exact h.reads.mono hs

theorem eval_ok_iff (h : n.Needs needed) : (∃ bits, n.eval v = .ok bits) ↔ v.Binds needed := by
  have hdomain : needed ⊆ v.domain ↔ v.Binds needed := by
    simp only [List.subset_def, Valuation.mem_domain, Valuation.Binds]
  have hresults : n.resultBits ⊆ v.domain ++ n.driven :=
    List.Subset.trans h.results (List.subset_append_right _ _)
  simp only [eval_eq_ok_iff, hresults, true_and, exists_and_left, exists_eq, and_true, h.reads_iff, hdomain]

theorem eval_error (h : n.Needs needed) {e : SimulationError} (he : n.eval v = .error e) :
    ∃ index s, e = .unboundInput index s ∧ s ∈ needed ∧ v.get? s = none := by
  cases hd : driveAll 0 n.gates v with
  | error e' =>
    rw [eval, hd] at he
    cases he
    exact of_driveAll_error h.reads hd
  | ok final =>
    -- A run that goes through has bound every result.
    obtain ⟨hr, rfl⟩ := driveAll_ok hd
    have hresults : n.resultBits ⊆ v.domain ++ n.driven :=
      List.Subset.trans h.results (List.subset_append_right _ _)
    rw [eval_eq_settle hr v.binds_domain hresults] at he
    cases he

theorem eval_congr (h : n.Needs needed) (hvw : ∀ s ∈ needed, v.get? s = w.get? s) : n.eval v = n.eval w := by
  unfold eval
  rcases driveAll_congr h.reads hvw 0 with ⟨e, hv, hw⟩ | ⟨hv, hw, hagree⟩
  · rw [hv, hw]
  · rw [hv, hw]
    show ((settle n.gates v).read n.resultBits).mapError _ = ((settle n.gates w).read n.resultBits).mapError _
    rw [Valuation.read_congr fun s hs => hagree s (List.mem_append_right _ (h.results hs))]

theorem eval_insert (h : n.Needs needed) {s : Signal} (hs : s ∉ needed) (b : Bool) :
    n.eval (v.insert s b) = n.eval v := by
  apply h.eval_congr
  intro t ht
  have hne : s ≠ t := fun he => hs (he ▸ ht)
  rw [SignalMap.get?_insert, if_neg hne]

end Netlist.Needs

/-! ## The signals that a ripple uses -/

theorem readBy_append (p q : List Gate) : readBy (p ++ q) = readBy p ++ readBy q := List.flatMap_append

namespace Ripple

/-- Every stage reads the carry and all signals of its position. -/
def Uses {α : Type} (stage : α → Signal → Emit Emit.SumCarry) (inputs : α → List Signal) : Prop :=
  ∀ p carry alloc, carry :: inputs p ⊆ readBy (stage p carry alloc).gates

theorem addStage_uses : Uses addStage fun p => [p.1, p.2] := by
  intro p carry alloc
  simp [addStage, Emit.fullAdder, readBy, Gate.inputs]

theorem subtractStage_uses : Uses subtractStage fun p => [p.1, p.2] := by
  intro p carry alloc
  simp [subtractStage, Emit.fullAdder, readBy, Gate.inputs]

theorem incrementStage_uses : Uses incrementStage fun p => [p] := by
  intro p carry alloc
  simp [incrementStage, readBy, Gate.inputs]

section Chain

variable {α : Type} {stage : α → Signal → Emit Emit.SumCarry} {inputs : α → List Signal}

theorem chain_uses (h : Uses stage inputs) (carry : Signal) (positions : List α) (alloc : Allocator) :
    positions.flatMap inputs ⊆ readBy (chain stage carry positions alloc).gates := by
  induction positions generalizing carry alloc with
  | nil => simp
  | cons p rest ih =>
    rw [chain_cons, readBy_append, List.flatMap_cons]
    intro s hs
    rcases List.mem_append.1 hs with hs | hs
    · exact List.mem_append_left _ (h p carry alloc (List.mem_cons_of_mem _ hs))
    · exact List.mem_append_right _ (ih _ _ hs)

/-- The first carry of a chain is used by its first stage. -/
theorem chain_uses_carry (h : Uses stage inputs) (carry : Signal) {positions : List α} (hp : positions ≠ [])
    (alloc : Allocator) : carry :: positions.flatMap inputs ⊆ readBy (chain stage carry positions alloc).gates := by
  refine List.cons_subset.2 ⟨?_, chain_uses h carry positions alloc⟩
  obtain ⟨p, rest, rfl⟩ := List.exists_cons_of_ne_nil hp
  rw [chain_cons, readBy_append]
  exact List.mem_append_left _ (h p carry alloc List.mem_cons_self)

end Chain

/-- No signal among the inputs of a ripple is there for nothing. -/
theorem emit_uses (r : Ripple) (hw : 0 < r.width) (alloc : Allocator) : r.inputs ⊆ readBy (r.emit alloc).gates := by
  cases r with
  | add positions =>
    cases positions with
    | nil => cases hw
    | cons p rest =>
      rw [emit, Emit.map_apply, stages, Emit.bind_apply, Emit.map_apply, readBy_append, inputs, List.flatMap_cons]
      intro s hs
      rcases List.mem_append.1 hs with hs | hs
      · exact List.mem_append_left _ (by simpa [readBy, Gate.inputs] using hs)
      · exact List.mem_append_right _ (chain_uses addStage_uses _ rest _ hs)
  | subtract one positions =>
    exact chain_uses_carry subtractStage_uses one (List.ne_nil_of_length_pos hw) alloc
  | increment seed positions =>
    exact chain_uses_carry incrementStage_uses seed (List.ne_nil_of_length_pos hw) alloc

end Ripple

/-! ## The footprint of an operation -/

/-- The signals at the first positions of a bus, as far as it has any. -/
def Bus.reach (bus : Bus) (constants : Constants) (width : Nat) : List Signal :=
  (List.range width).filterMap fun i => (bus.bit constants i).toOption

/-- The signals that the operation reads: those of its operands at every position of the result, the first
carry of a subtraction, and what an increment adds. -/
def Operation.footprint (constants : Constants) (width : Nat) : Operation → List Signal
  | add a b => a.reach constants width ++ b.reach constants width
  | subtract a b => constants.one :: (a.reach constants width ++ b.reach constants width)
  | increment a none => constants.one :: a.reach constants width
  | increment a (some literal) => literal.reach constants 1 ++ a.reach constants width

theorem Bus.mem_reach {bus : Bus} {constants : Constants} {width : Nat} {s : Signal} :
    s ∈ bus.reach constants width ↔ ∃ i < width, bus.bit constants i = .ok s := by
  simp only [reach, List.mem_filterMap, List.mem_range]
  refine exists_congr fun i => and_congr_right fun _ => ?_
  cases bus.bit constants i <;> simp [Except.toOption]

theorem Bus.reach_eq {bus : Bus} (h : bus.bits ≠ []) (constants : Constants) (width : Nat) :
    bus.reach constants width = (List.range width).map (bus.signalAt constants) := by
  rw [reach, ← List.filterMap_eq_map]
  simp only [bit_eq h]
  rfl

/-- The first positions of a bus hold its low bits, and past its width the zero net unless it is signed. -/
theorem Bus.mem_of_mem_reach {bus : Bus} {constants : Constants} {width : Nat} {s : Signal}
    (h : s ∈ bus.reach constants width) :
    s ∈ bus.bits.take width ∨ (s = constants.zero ∧ bus.signed = false ∧ bus.width < width) := by
  obtain ⟨i, hi, hbit⟩ := mem_reach.1 h
  have hne : bus.bits ≠ [] := fun he => by rw [bit_of_empty he] at hbit; cases hbit
  rw [bit_eq hne, Except.ok.injEq] at hbit
  by_cases hlt : i < bus.bits.length
  · rw [List.getElem?_eq_getElem hlt, Option.getD_some] at hbit
    rw [← hbit]
    exact .inl (List.mem_take_iff_getElem.2 ⟨i, by omega, rfl⟩)
  · have hwidth : bus.width < width := by
      unfold Bus.width
      omega
    rw [List.getElem?_eq_none (by omega), Option.getD_none, fill] at hbit
    cases hs : bus.signed with
    | false => exact .inr ⟨by simpa [hs] using hbit.symm, rfl, hwidth⟩
    | true =>
      -- The sign bit stands at its own position as well, which is one of the first.
      rw [hs, if_pos rfl, List.getLastD_eq_getLast?, List.getLast?_eq_some_getLast hne, Option.getD_some] at hbit
      rw [← hbit, List.take_of_length_le (Nat.le_of_lt hwidth)]
      exact .inl (List.getLast_mem hne)

namespace Operation

variable {op : Operation} {constants : Constants} {width : Nat}

theorem mem_zipped {f g : Nat → Signal} {s : Signal} :
    s ∈ ((List.range width).map fun i => (f i, g i)).flatMap (fun p => [p.1, p.2]) ↔
      s ∈ (List.range width).map f ++ (List.range width).map g := by
  simp only [List.mem_flatMap, List.mem_map, List.mem_range, List.mem_append, List.mem_cons, List.not_mem_nil, or_false]
  constructor
  · rintro ⟨p, ⟨i, hi, rfl⟩, rfl | rfl⟩
    · exact .inl ⟨i, hi, rfl⟩
    · exact .inr ⟨i, hi, rfl⟩
  · rintro (⟨i, hi, rfl⟩ | ⟨i, hi, rfl⟩)
    · exact ⟨_, ⟨i, hi, rfl⟩, .inl rfl⟩
    · exact ⟨_, ⟨i, hi, rfl⟩, .inr rfl⟩

/-- The ripple of an operation reads its footprint. -/
theorem mem_ripple_inputs {r : Ripple} (h : op.ripple constants width = .ok r) {s : Signal} :
    s ∈ r.inputs ↔ s ∈ op.footprint constants width := by
  obtain ⟨hw, hb⟩ := fits_of_ripple h
  cases op with
  | add a b =>
    have ha : a.bits ≠ [] := hb a (by simp [operands, first])
    have hb : b.bits ≠ [] := hb b (by simp [operands, second])
    rw [ripple, Ripple.ofAdd_eq constants hw ha hb] at h
    cases h
    rw [footprint, Bus.reach_eq ha, Bus.reach_eq hb]
    exact mem_zipped
  | subtract a b =>
    have ha : a.bits ≠ [] := hb a (by simp [operands, first])
    have hb : b.bits ≠ [] := hb b (by simp [operands, second])
    rw [ripple, Ripple.ofSubtract_eq constants hw ha hb] at h
    cases h
    rw [footprint, Bus.reach_eq ha, Bus.reach_eq hb, Ripple.inputs, List.mem_cons, List.mem_cons]
    exact or_congr_right mem_zipped
  | increment a literal =>
    have ha : a.bits ≠ [] := hb a (by simp [operands, first])
    obtain ⟨_, -, h⟩ := ok_of_bind h
    obtain ⟨seed, hseed, h⟩ := ok_of_bind h
    rw [Ripple.ofIncrement_eq constants seed hw ha] at h
    cases h
    have hreach : s ∈ (Ripple.increment seed ((List.range width).map (a.signalAt constants))).inputs ↔
        s = seed ∨ s ∈ a.reach constants width := by
      rw [Bus.reach_eq ha]
      simp [Ripple.inputs]
    rw [hreach]
    cases literal with
    | none =>
      cases hseed
      simp [footprint]
    | some literal =>
      have hliteral : s ∈ literal.reach constants 1 ↔ s = seed := by
        rw [Bus.mem_reach]
        constructor
        · rintro ⟨i, hi, hbit⟩
          obtain rfl : i = 0 := by omega
          exact Except.ok.inj (hbit.symm.trans hseed)
        · rintro rfl
          exact ⟨0, by omega, hseed⟩
      rw [footprint, List.mem_append, hliteral]

/-- A signal is needed for one of three reasons: it is one of the low bits of an operand, it is the zero net
and an operand is short of bits and not signed, or it is the constant 1 and the operation is no addition. -/
theorem mem_of_mem_footprint (hw : 0 < width) {s : Signal} (h : s ∈ op.footprint constants width) :
    (∃ bus ∈ op.operands, s ∈ bus.bits.take width) ∨
      (s = constants.zero ∧ ∃ bus ∈ op.operands, bus.signed = false ∧ bus.width < width) ∨
      (s = constants.one ∧ op.kind ≠ .add) := by
  have hbus : ∀ bus ∈ op.operands, ∀ k ≤ width, s ∈ bus.reach constants k →
      (∃ bus ∈ op.operands, s ∈ bus.bits.take width) ∨
        (s = constants.zero ∧ ∃ bus ∈ op.operands, bus.signed = false ∧ bus.width < width) ∨
        (s = constants.one ∧ op.kind ≠ .add) := by
    intro bus hb k hk hs
    rcases Bus.mem_of_mem_reach hs with hs | ⟨hs, hsigned, hlt⟩
    · exact .inl ⟨bus, hb, List.take_subset_take_left bus.bits hk hs⟩
    · exact .inr (.inl ⟨hs, bus, hb, hsigned, by omega⟩)
  cases op with
  | add a b =>
    rcases List.mem_append.1 h with h | h
    · exact hbus a (by simp [operands, first]) width (Nat.le_refl _) h
    · exact hbus b (by simp [operands, second]) width (Nat.le_refl _) h
  | subtract a b =>
    rcases List.mem_cons.1 h with h | h
    · exact .inr (.inr ⟨h, by simp [kind]⟩)
    rcases List.mem_append.1 h with h | h
    · exact hbus a (by simp [operands, first]) width (Nat.le_refl _) h
    · exact hbus b (by simp [operands, second]) width (Nat.le_refl _) h
  | increment a literal =>
    cases literal with
    | none =>
      rcases List.mem_cons.1 h with h | h
      · exact .inr (.inr ⟨h, by simp [kind]⟩)
      · exact hbus a (by simp [operands, first]) width (Nat.le_refl _) h
    | some literal =>
      rcases List.mem_append.1 h with h | h
      · exact hbus literal (by simp [operands, second]) 1 hw h
      · exact hbus a (by simp [operands, first]) width (Nat.le_refl _) h

end Operation

/-- A clean netlist of a descriptor needs the footprint of its operation. -/
theorem Descriptor.synthesize_needs {constants : Constants} {d : Descriptor} {alloc after : Allocator} {n : Netlist}
    (h : (d.synthesize constants).run alloc = (.ok n, after)) (hclean : n.defectsFor constants d = []) :
    n.Needs (d.op.footprint constants d.resultWidth) := by
  have hsound := Netlist.defects_eq_nil_iff.1 hclean
  have hresults := synthesize_results h
  obtain ⟨r, hr, rfl, -⟩ := synthesize_ok h
  have hwidth : 0 < r.width := by
    rw [(Operation.ripple_computes hr).width_eq]
    exact (Operation.fits_of_ripple hr).1
  refine ⟨?_, ?_, ?_, hresults⟩
  · exact (r.emit_reads alloc).mono fun s hs => (Operation.mem_ripple_inputs hr).1 hs
  · intro s hs
    exact r.emit_uses hwidth alloc ((Operation.mem_ripple_inputs hr).2 hs)
  · intro s hd hs
    exact hsound.undriven s hd (Operation.ripple_inputs hr ((Operation.mem_ripple_inputs hr).2 hs))

/-- Evaluation needs the footprint of the operation and nothing else. Take the clean netlist of a descriptor,
and any valuation, whatever it binds. Evaluation goes through exactly when the footprint is bound; otherwise
it stops at the input of a gate, on a signal of the footprint that is not bound, and never at a result. Two
valuations that agree on the footprint give the same bits or the same error. So bits of an operand past the
result width play no part, nor does the zero net unless an unsigned operand is too short, nor the constant 1
in an addition, unless the same signal is in the footprint for another reason; and bindings of driven
signals play none at all. -/
theorem eval_footprint (constants : Constants) (d : Descriptor) (alloc after : Allocator) (n : Netlist)
    (h : (d.synthesize constants).run alloc = (.ok n, after)) (hclean : n.defectsFor constants d = []) :
    let needed := d.op.footprint constants d.resultWidth
    (∀ v : Valuation, (∃ bits, n.eval v = .ok bits) ↔ v.Binds needed) ∧
    (∀ (v : Valuation) (e : SimulationError), n.eval v = .error e →
      ∃ index s, e = .unboundInput index s ∧ s ∈ needed ∧ v.get? s = none) ∧
    (∀ v w : Valuation, (∀ s ∈ needed, v.get? s = w.get? s) → n.eval v = n.eval w) ∧
    (∀ s ∈ needed,
      (∃ bus ∈ d.op.operands, s ∈ bus.bits.take d.resultWidth) ∨
      (s = constants.zero ∧ ∃ bus ∈ d.op.operands, bus.signed = false ∧ bus.width < d.resultWidth) ∨
      (s = constants.one ∧ d.op.kind ≠ .add)) ∧
    (∀ s, s ∉ needed → ∀ (v : Valuation) (b : Bool), n.eval (v.insert s b) = n.eval v) ∧
    ∀ s ∈ n.driven, s ∉ needed := by
  have hneeds := Descriptor.synthesize_needs h hclean
  obtain ⟨r, hr, -⟩ := Descriptor.synthesize_ok h
  refine ⟨fun v => hneeds.eval_ok_iff, fun v e he => hneeds.eval_error he, fun v w hvw => hneeds.eval_congr hvw,
    fun s hs => ?_, fun s hs v b => hneeds.eval_insert hs b, hneeds.undriven⟩
  exact Operation.mem_of_mem_footprint (Operation.fits_of_ripple hr).1 hs

/-- A signed bit and the low two of three bits, added to two bits. Three bound signals are enough, without
the constants and the top bit; and without the third of them, that is the one named. -/
theorem eval_footprint_without_constants :
    let constants : Constants := ⟨⟨0⟩, ⟨1⟩⟩
    let d : Descriptor := ⟨.add ⟨[⟨2⟩], true⟩ ⟨[⟨3⟩, ⟨4⟩, ⟨5⟩], false⟩, 2⟩
    let v := Valuation.empty.bindBits ⟨[⟨2⟩, ⟨3⟩, ⟨4⟩], false⟩ [true, true, false]
    let w := Valuation.empty.bindBits ⟨[⟨2⟩, ⟨3⟩], false⟩ [true, true]
    ∃ n after, (d.synthesize constants).run ⟨6⟩ = (.ok n, after) ∧ n.defectsFor constants d = [] ∧
      (∃ bits, n.eval v = .ok bits) ∧ ∃ index, n.eval w = .error (.unboundInput index ⟨4⟩) := by
  intro constants d v w
  obtain ⟨n, after, h, -⟩ := Descriptor.synthesize_exact constants d ⟨6⟩ (by decide) (by decide)
  have hclean : n.defectsFor constants d = [] := by
    cases h
    decide
  obtain ⟨hok, herror, -⟩ := eval_footprint constants d ⟨6⟩ after n h hclean
  refine ⟨n, after, h, hclean, (hok v).2 (by decide), ?_⟩
  cases hw : n.eval w with
  | ok bits => exact absurd ((hok w).1 ⟨bits, hw⟩) (by decide)
  | error e =>
    obtain ⟨index, s, rfl, hs, hn⟩ := herror w e hw
    have hmissing : ∀ t ∈ d.op.footprint constants d.resultWidth, w.get? t = none → t = ⟨4⟩ := by decide
    obtain rfl := hmissing s hs hn
    exact ⟨index, rfl⟩

end RippleCarry
