import RippleCarry.Defect
import RippleCarry.Proofs.Evaluation
/-!
# Sound netlists

`Netlist.Sound` puts the three rules that the search for defects goes by into words of their own.
`Netlist.defects_eq_nil_iff`: a netlist has no defect exactly when it is sound for the primaries.
`Netlist.solution_of_clean`: evaluating such a netlist solves the equations of its gates.
-/

namespace RippleCarry

/-- Gates read only what is there before them, no signal is driven twice, no known signal is driven
at all, and every result bit is there at the end. -/
structure Netlist.Sound (known : List Signal) (n : Netlist) : Prop where
  reads : Reads known n.gates
  once : n.driven.Nodup
  undriven : ∀ s ∈ n.driven, s ∉ known
  results : n.resultBits ⊆ known ++ n.driven

/-- A set and a list with the same members keep the same members when they grow by the same signals. -/
theorem SignalSet.mem_insertAll_append {set : SignalSet} {known : List Signal} (hk : ∀ s, s ∈ set ↔ s ∈ known)
    (l : List Signal) (s : Signal) : s ∈ set.insertAll l ↔ s ∈ known ++ l := by
  rw [mem_insertAll, List.mem_append, hk, or_comm]

namespace Defect

theorem missing_eq_nil_iff {set : SignalSet} {wanted : List Signal} :
    missing set wanted = [] ↔ ∀ s ∈ wanted, s ∈ set := by
  simp [missing, List.filter_eq_nil_iff]

theorem redriven_eq_nil_iff {set : SignalSet} {driven : List Signal} :
    redriven set driven = [] ↔ driven.Nodup ∧ ∀ s ∈ driven, s ∉ set := by
  induction driven generalizing set with
  | nil => simp [redriven]
  | cons s rest ih =>
    rw [redriven, List.nodup_cons]
    by_cases hs : s ∈ set
    · simp [hs]
    · rw [if_neg hs, ih]
      constructor
      · rintro ⟨hn, hk⟩
        refine ⟨⟨fun hm => hk s hm (by simp), hn⟩, fun t ht => ?_⟩
        rcases List.mem_cons.1 ht with rfl | ht
        · exact hs
        · exact fun hm => hk t ht (by simp [hm])
      · rintro ⟨⟨hm, hn⟩, hk⟩
        refine ⟨hn, fun t ht hi => ?_⟩
        rcases (SignalSet.mem_insert set s t).1 hi with rfl | hi
        · exact hm ht
        · exact hk t (List.mem_cons_of_mem _ ht) hi

theorem ofGates_eq_nil_iff {gates : List Gate} {set : SignalSet} {known : List Signal}
    (hk : ∀ s, s ∈ set ↔ s ∈ known) (index : Nat) :
    ofGates index set gates = [] ↔
      Reads known gates ∧ (drivenBy gates).Nodup ∧ ∀ s ∈ drivenBy gates, s ∉ known := by
  induction gates generalizing set known index with
  | nil => simp [ofGates, Reads, drivenBy]
  | cons g rest ih =>
    have hk' := SignalSet.mem_insertAll_append hk g.outputs
    rw [ofGates, List.append_eq_nil_iff, List.append_eq_nil_iff, List.map_eq_nil_iff, List.map_eq_nil_iff,
      missing_eq_nil_iff, redriven_eq_nil_iff, ih hk', Reads]
    rw [show drivenBy (g :: rest) = g.outputs ++ drivenBy rest from rfl, List.nodup_append]
    constructor
    · rintro ⟨⟨hin, hout, hfresh⟩, hr, hn, hd⟩
      refine ⟨⟨fun s hs => (hk s).1 (hin s hs), hr⟩, ⟨hout, hn, ?_⟩, fun s hs => ?_⟩
      · rintro s hs _ ht rfl
        exact hd s ht (List.mem_append_right _ hs)
      · rcases List.mem_append.1 hs with hs | hs
        · exact fun hm => hfresh s hs ((hk s).2 hm)
        · exact fun hm => hd s hs (List.mem_append_left _ hm)
    · rintro ⟨⟨hin, hr⟩, ⟨hout, hn, hd⟩, hfresh⟩
      refine ⟨⟨fun s hs => (hk s).2 (hin hs), hout, fun s hs hm => ?_⟩, hr, hn, fun s hs hm => ?_⟩
      · exact hfresh s (List.mem_append_left _ hs) ((hk s).1 hm)
      · rcases List.mem_append.1 hm with hm | hm
        · exact hfresh s (List.mem_append_right _ hs) hm
        · exact hd s hm s hs rfl

end Defect

/-- The check lists nothing exactly when the netlist is sound. -/
theorem Netlist.defects_eq_nil_iff {n : Netlist} {constants : Constants} {inputs : List Bus} :
    n.defects constants inputs = [] ↔ n.Sound (primaries constants inputs) := by
  have hk := SignalSet.mem_ofList (primaries constants inputs)
  rw [Netlist.defects, List.append_eq_nil_iff, List.map_eq_nil_iff, Defect.ofGates_eq_nil_iff hk,
    Defect.missing_eq_nil_iff]
  constructor
  · rintro ⟨⟨hr, hn, hd⟩, ho⟩
    refine ⟨hr, hn, hd, fun s hs => ?_⟩
    rw [List.mem_append, or_comm, ← hk]
    exact (SignalSet.mem_insertAll _ _ _).1 (ho s hs)
  · rintro ⟨hr, hn, hd, ho⟩
    refine ⟨⟨hr, hn, hd⟩, fun s hs => ?_⟩
    rw [SignalSet.mem_insertAll, hk, or_comm]
    exact List.mem_append.1 (ho hs)

/-! ## Valuations to evaluate in -/

/-- The constant nets carry 0 and 1, and the given signals have some value. -/
structure Valuation.Ready (v : Valuation) (constants : Constants) (signals : List Signal) : Prop where
  zero : v.get? constants.zero = some false
  one : v.get? constants.one = some true
  bound : v.Binds signals

instance (v : Valuation) (constants : Constants) (signals : List Signal) :
    Decidable (v.Ready constants signals) :=
  decidable_of_iff
    (v.get? constants.zero = some false ∧ v.get? constants.one = some true ∧ v.Binds signals)
    ⟨fun ⟨hz, ho, hb⟩ => ⟨hz, ho, hb⟩, fun h => ⟨h.zero, h.one, h.bound⟩⟩

theorem Valuation.Ready.binds {v : Valuation} {constants : Constants} {signals : List Signal}
    (h : v.Ready constants signals) : v.Binds (constants.zero :: constants.one :: signals) := by
  intro s hs
  simp only [List.mem_cons] at hs
  rcases hs with rfl | rfl | hs
  · simp [h.zero]
  · simp [h.one]
  · exact h.bound s hs

theorem Valuation.Ready.mono {v : Valuation} {constants : Constants} {signals signals' : List Signal}
    (h : v.Ready constants signals) (hs : signals' ⊆ constants.zero :: constants.one :: signals) :
    v.Ready constants signals' :=
  ⟨h.zero, h.one, fun s hm => h.binds s (hs hm)⟩

/-- An assignment that goes on from a valuation: it satisfies the gates, and keeps the constants and
the given signals as they are. -/
structure Solves (σ : Assignment) (gates : List Gate) (constants : Constants) (v : Valuation)
    (signals : List Signal) : Prop where
  satisfies : Satisfies σ gates
  zero : σ constants.zero = false
  one : σ constants.one = true
  keeps : ∀ s ∈ signals, σ s = v.bit s

theorem Netlist.Sound.solves {n : Netlist} {constants : Constants} {signals : List Signal} {v : Valuation}
    (h : n.Sound (constants.zero :: constants.one :: signals)) (hv : v.Ready constants signals) :
    Solves (settle n.gates v).bit n.gates constants v signals := by
  have hkeep : ∀ s ∈ constants.zero :: constants.one :: signals, (settle n.gates v).bit s = v.bit s :=
    fun s hs => bit_settle_other fun hd => h.undriven s hd hs
  refine ⟨satisfies_settle v h.reads h.once h.undriven, ?_, ?_, fun s hs => ?_⟩
  · rw [hkeep _ (by simp), Valuation.bit_eq hv.zero]
  · rw [hkeep _ (by simp), Valuation.bit_eq hv.one]
  · exact hkeep s (by simp [hs])

/-- A netlist without defects evaluates, to the result bits of a solution of its gates. -/
theorem Netlist.solution_of_clean {n : Netlist} {constants : Constants} {inputs : List Bus} {v : Valuation}
    (h : n.defects constants inputs = []) (hv : v.Ready constants (inputs.flatMap Bus.bits)) :
    ∃ σ, Solves σ n.gates constants v (inputs.flatMap Bus.bits) ∧ n.eval v = .ok (n.resultBits.map σ) := by
  have hs := Netlist.defects_eq_nil_iff.1 h
  exact ⟨_, hs.solves hv, Netlist.eval_eq_settle hs.reads hv.binds hs.results⟩

end RippleCarry
