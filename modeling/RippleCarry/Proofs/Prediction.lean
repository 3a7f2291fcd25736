import RippleCarry.Proofs.Soundness
/-!
# The check predicts evaluation

The search for defects and evaluation walk the same gates, one with a set of signals, the other with
their values. `Valuation.Tracks` ties the two together: the valuation binds exactly the signals of the
set. A gate keeps this (`Gate.tracks_settle`), whether or not it drives a signal again.

`eval_predicted`: evaluation stops at the first unknown input that the check lists, else at the first
unknown result, else not at all. Signals driven twice have no part in it.
-/

namespace RippleCarry

namespace Defect

/-- The unknown inputs among the defects, in order, each with the index of its gate. -/
def unknownInputs (defects : List Defect) : List (Nat × Signal) :=
  defects.filterMap fun
    | unknownInput index s => some (index, s)
    | _ => none

/-- The unknown results among the defects, in order. -/
def unknownResults (defects : List Defect) : List Signal :=
  defects.filterMap fun
    | unknownResult s => some s
    | _ => none

@[simp] theorem unknownInputs_append (p q : List Defect) :
    unknownInputs (p ++ q) = unknownInputs p ++ unknownInputs q :=
  List.filterMap_append

@[simp] theorem unknownResults_append (p q : List Defect) :
    unknownResults (p ++ q) = unknownResults p ++ unknownResults q :=
  List.filterMap_append

@[simp] theorem unknownInputs_unknownInput (index : Nat) (l : List Signal) :
    unknownInputs (l.map (unknownInput index)) = l.map (index, ·) := by
  rw [unknownInputs, List.filterMap_map]
  exact congrFun List.filterMap_eq_map' l

@[simp] theorem unknownInputs_drivenTwice (index : Nat) (l : List Signal) :
    unknownInputs (l.map (drivenTwice index)) = [] := by
  simp [unknownInputs]

@[simp] theorem unknownInputs_unknownResult (l : List Signal) : unknownInputs (l.map unknownResult) = [] := by
  simp [unknownInputs]

@[simp] theorem unknownResults_unknownInput (index : Nat) (l : List Signal) :
    unknownResults (l.map (unknownInput index)) = [] := by
  simp [unknownResults]

@[simp] theorem unknownResults_drivenTwice (index : Nat) (l : List Signal) :
    unknownResults (l.map (drivenTwice index)) = [] := by
  simp [unknownResults]

@[simp] theorem unknownResults_unknownResult (l : List Signal) : unknownResults (l.map unknownResult) = l := by
  rw [unknownResults, List.filterMap_map]
  exact List.filterMap_some

theorem unknownResults_ofGates (index : Nat) (known : SignalSet) (gates : List Gate) :
    unknownResults (ofGates index known gates) = [] := by
  induction gates generalizing index known with
  | nil => rfl
  | cons g rest ih => simp [ofGates, ih]

end Defect

/-! ## Values where the set has members -/

theorem SignalMap.isSome_get?_insertAll_iff {α : Type} (pairs : List (Signal × α)) (m : SignalMap α) (s : Signal) :
    ((m.insertAll pairs).get? s).isSome ↔ s ∈ pairs.map Prod.fst ∨ (m.get? s).isSome := by
  refine ⟨fun h => ?_, isSome_get?_insertAll pairs m s⟩
  by_cases hs : s ∈ pairs.map Prod.fst
  · exact .inl hs
  · rw [get?_insertAll_of_not_mem pairs m s hs] at h
    exact .inr h

/-- The valuation binds the signals of the set and no others. -/
def Valuation.Tracks (v : Valuation) (known : SignalSet) : Prop := ∀ s, (v.get? s).isSome ↔ s ∈ known

namespace Valuation

variable {v : Valuation} {known : SignalSet}

theorem Tracks.get?_of_mem (h : v.Tracks known) {s : Signal} (hs : s ∈ known) : v.get? s = some (v.bit s) := by
  have hb : v.Binds [s] := fun t ht => by
    rw [List.mem_singleton.1 ht]
    exact (h s).2 hs
  exact hb.get? List.mem_cons_self

theorem Tracks.get?_of_not_mem (h : v.Tracks known) {s : Signal} (hs : s ∉ known) : v.get? s = none :=
  Option.not_isSome_iff_eq_none.1 fun hb => hs ((h s).1 hb)

/-- Reading stops at the first signal that is missing from the set. -/
theorem Tracks.read_eq (h : v.Tracks known) (l : List Signal) :
    v.read l = match (Defect.missing known l).head? with
      | none => .ok (l.map v.bit)
      | some s => .error s := by
  induction l with
  | nil => rfl
  | cons s rest ih =>
    by_cases hs : s ∈ known
    · have hm : Defect.missing known (s :: rest) = Defect.missing known rest := by simp [Defect.missing, hs]
      simp only [read, h.get?_of_mem hs, ih, hm]
      cases (Defect.missing known rest).head? <;> rfl
    · have hm : Defect.missing known (s :: rest) = s :: Defect.missing known rest := by
        simp [Defect.missing, hs]
      simp only [read, h.get?_of_not_mem hs, hm, List.head?_cons]

end Valuation

theorem Gate.tracks_settle (g : Gate) {v : Valuation} {known : SignalSet} (h : v.Tracks known) :
    (g.settle v).Tracks (known.insertAll g.outputs) := by
  intro s
  rw [settle, SignalMap.isSome_get?_insertAll_iff, g.map_fst_settle v, SignalSet.mem_insertAll, h s]

theorem tracks_settle {gates : List Gate} {v : Valuation} {known : SignalSet} (h : v.Tracks known) :
    (settle gates v).Tracks (known.insertAll (drivenBy gates)) := by
  induction gates generalizing v known with
  | nil => exact h
  | cons g rest ih =>
    have hr := ih (g.tracks_settle h)
    intro s
    rw [settle, hr s]
    simp only [drivenBy, List.flatMap_cons, SignalSet.mem_insertAll, List.mem_append]
    rw [or_left_comm, or_assoc]

/-! ## Evaluation stops where the check says -/

theorem Gate.drive_eq_missing (g : Gate) {v : Valuation} {known : SignalSet} (h : v.Tracks known) :
    g.drive v = match (Defect.missing known g.inputs).head? with
      | none => .ok (g.settle v)
      | some s => .error s := by
  rw [drive, h.read_eq]
  cases (Defect.missing known g.inputs).head? <;> rfl

/-- The run stops at the first unknown input, with its gate's index, or goes through. -/
theorem driveAll_eq_unknownInputs {gates : List Gate} {v : Valuation} {known : SignalSet} (h : v.Tracks known)
    (index : Nat) :
    driveAll index gates v = match (Defect.unknownInputs (Defect.ofGates index known gates)).head? with
      | none => .ok (settle gates v)
      | some (i, s) => .error (.unboundInput i s) := by
  induction gates generalizing v known index with
  | nil => rfl
  | cons g rest ih =>
    rw [driveAll, g.drive_eq_missing h, Defect.ofGates]
    simp only [Defect.unknownInputs_append, Defect.unknownInputs_unknownInput,
      Defect.unknownInputs_drivenTwice, List.append_nil]
    cases hm : Defect.missing known g.inputs with
    | nil => exact ih (g.tracks_settle h) (index + 1)
    | cons s more => rfl

namespace Netlist

variable {n : Netlist} {constants : Constants} {inputs : List Bus} {v : Valuation}

/-- Evaluation stops at the first unknown input, else at the first unknown result. -/
theorem eval_eq_unknown (hv : ∀ s, (v.get? s).isSome ↔ s ∈ primaries constants inputs) :
    n.eval v =
      match (Defect.unknownInputs (n.defects constants inputs)).head?,
        (Defect.unknownResults (n.defects constants inputs)).head? with
      | some (i, s), _ => .error (.unboundInput i s)
      | none, some s => .error (.unboundResult s)
      | none, none => .ok (n.resultBits.map (settle n.gates v).bit) := by
  have ht : v.Tracks (SignalSet.ofList (primaries constants inputs)) := fun s => by
    rw [hv s, SignalSet.mem_ofList]
  have hsettle : (settle n.gates v).Tracks _ := tracks_settle ht
  rw [eval, driveAll_eq_unknownInputs ht 0, defects]
  simp only [Defect.unknownInputs_append, Defect.unknownInputs_unknownResult, List.append_nil,
    Defect.unknownResults_append, Defect.unknownResults_ofGates, Defect.unknownResults_unknownResult,
    List.nil_append]
  cases (Defect.unknownInputs _).head? with
  | some p => rfl
  | none =>
    show ((settle n.gates v).read n.resultBits).mapError SimulationError.unboundResult = _
    rw [hsettle.read_eq, driven]
    cases (Defect.missing _ n.resultBits).head? <;> rfl

theorem eval_eq_unboundInput_iff (hv : ∀ s, (v.get? s).isSome ↔ s ∈ primaries constants inputs) {index : Nat}
    {s : Signal} :
    n.eval v = .error (.unboundInput index s) ↔
      (Defect.unknownInputs (n.defects constants inputs)).head? = some (index, s) := by
  rw [eval_eq_unknown hv]
  cases (Defect.unknownInputs (n.defects constants inputs)).head? with
  | some p => simp [Prod.ext_iff]
  | none => cases (Defect.unknownResults (n.defects constants inputs)).head? <;> simp

theorem eval_eq_unboundResult_iff (hv : ∀ s, (v.get? s).isSome ↔ s ∈ primaries constants inputs) {s : Signal} :
    n.eval v = .error (.unboundResult s) ↔
      Defect.unknownInputs (n.defects constants inputs) = [] ∧
        (Defect.unknownResults (n.defects constants inputs)).head? = some s := by
  rw [eval_eq_unknown hv, ← List.head?_eq_none_iff]
  cases (Defect.unknownInputs (n.defects constants inputs)).head? with
  | some p => simp
  | none => cases (Defect.unknownResults (n.defects constants inputs)).head? <;> simp

theorem eval_ok_iff (hv : ∀ s, (v.get? s).isSome ↔ s ∈ primaries constants inputs) :
    (∃ bits, n.eval v = .ok bits) ↔
      Defect.unknownInputs (n.defects constants inputs) = [] ∧
        Defect.unknownResults (n.defects constants inputs) = [] := by
  rw [eval_eq_unknown hv, ← List.head?_eq_none_iff, ← List.head?_eq_none_iff]
  cases (Defect.unknownInputs (n.defects constants inputs)).head? with
  | some p => simp
  | none => cases (Defect.unknownResults (n.defects constants inputs)).head? <;> simp

end Netlist

/-- The check predicts evaluation, on any netlist and in any valuation that binds the primaries and
nothing else. Evaluation stops at an input exactly when the check lists an unknown input, and then at
the first one listed. It stops at a result exactly when the check lists no unknown input but an unknown
result, and then at the first one listed. Otherwise it goes through. So two netlists for which these two
lists are the same fare the same, whatever signals the check lists as driven twice in either. -/
theorem eval_predicted (n : Netlist) (constants : Constants) (inputs : List Bus) (v : Valuation)
    (hv : ∀ s, (v.get? s).isSome ↔ s ∈ primaries constants inputs) :
    let defects := n.defects constants inputs
    (∀ index s, n.eval v = .error (.unboundInput index s) ↔
      (Defect.unknownInputs defects).head? = some (index, s)) ∧
    (∀ s, n.eval v = .error (.unboundResult s) ↔
      Defect.unknownInputs defects = [] ∧ (Defect.unknownResults defects).head? = some s) ∧
    ((∃ bits, n.eval v = .ok bits) ↔
      Defect.unknownInputs defects = [] ∧ Defect.unknownResults defects = []) ∧
    ∀ (n' : Netlist) (constants' : Constants) (inputs' : List Bus) (v' : Valuation),
      (∀ s, (v'.get? s).isSome ↔ s ∈ primaries constants' inputs') →
      Defect.unknownInputs (n'.defects constants' inputs') = Defect.unknownInputs defects →
      Defect.unknownResults (n'.defects constants' inputs') = Defect.unknownResults defects →
      (n'.eval v').map (fun _ => ()) = (n.eval v).map (fun _ => ()) := by
  intro defects
  refine ⟨fun index s => Netlist.eval_eq_unboundInput_iff hv, fun s => Netlist.eval_eq_unboundResult_iff hv,
    Netlist.eval_ok_iff hv, fun n' constants' inputs' v' hv' hi hr => ?_⟩
  rw [Netlist.eval_eq_unknown hv, Netlist.eval_eq_unknown hv', hi, hr]
  cases (Defect.unknownInputs defects).head? with
  | some p => rfl
  | none => cases (Defect.unknownResults defects).head? <;> rfl

/-- The second gate reads and drives 3 and the third drives a constant, which stops nothing. What does is the
third gate's read of 9, before the fourth gate's read of 8 and the unknown result on 7. -/
theorem eval_predicted_redriven :
    let constants : Constants := ⟨⟨0⟩, ⟨1⟩⟩
    let a : Bus := ⟨[⟨2⟩], false⟩
    let n : Netlist := ⟨[.not ⟨2⟩ ⟨3⟩, .or2 ⟨3⟩ ⟨2⟩ ⟨3⟩, .halfAdder ⟨2⟩ ⟨9⟩ ⟨0⟩ ⟨4⟩, .not ⟨8⟩ ⟨9⟩], [⟨3⟩, ⟨7⟩]⟩
    let v := (Valuation.empty.bindConstants constants).bindBits a [true]
    (∀ s, (v.get? s).isSome ↔ s ∈ primaries constants [a]) ∧
      n.defects constants [a] = [.drivenTwice 1 ⟨3⟩, .unknownInput 2 ⟨9⟩, .drivenTwice 2 ⟨0⟩, .unknownInput 3 ⟨8⟩,
        .unknownResult ⟨7⟩] ∧
      n.eval v = .error (.unboundInput 2 ⟨9⟩) := by
  intro constants a n v
  have hv : ∀ s, (v.get? s).isSome ↔ s ∈ primaries constants [a] := by
    intro s
    rw [show v = SignalMap.empty.insertAll [(⟨0⟩, false), (⟨1⟩, true), (⟨2⟩, true)] from rfl,
      SignalMap.isSome_get?_insertAll_iff]
    simp [primaries, constants, a]
  exact ⟨hv, by decide, ((eval_predicted n constants [a] v hv).1 2 ⟨9⟩).2 (by decide)⟩

end RippleCarry
