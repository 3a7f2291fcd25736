import RippleCarry.Simulation
/-!
# Evaluation and the equations of the gates

A gate is an equation between the values on its pins. `settle` is the pass of evaluation without its
stops: an input that has no value counts as false.

`Netlist.eval_eq_settle`: when every gate reads known signals, and these have values, evaluation does
not stop and hands back what `settle` gives the result bits. `satisfies_settle`: when in addition
each signal is driven once, and no known one is, the values at the end satisfy all gates at once.
-/

namespace RippleCarry

/-- A value for every signal. -/
abbrev Assignment := Signal → Bool

/-- The truth table of the gate holds between its pins. -/
def Gate.Holds (σ : Assignment) (g : Gate) : Prop := g.outputs.map σ = g.kind.truth (g.inputs.map σ)

/-- Every gate holds. -/
def Satisfies (σ : Assignment) (gates : List Gate) : Prop := ∀ g ∈ gates, g.Holds σ

/-- Every gate reads only known signals and outputs of gates before it. -/
def Reads (known : List Signal) : List Gate → Prop
  | [] => True
  | g :: rest => g.inputs ⊆ known ∧ Reads (known ++ g.outputs) rest

theorem satisfies_append {σ : Assignment} {p q : List Gate} :
    Satisfies σ (p ++ q) ↔ Satisfies σ p ∧ Satisfies σ q :=
  List.forall_mem_append

theorem Satisfies.mono {σ : Assignment} {p q : List Gate} (h : Satisfies σ q) (hs : p ⊆ q) : Satisfies σ p :=
  fun g hg => h g (hs hg)

theorem drivenBy_append (p q : List Gate) : drivenBy (p ++ q) = drivenBy p ++ drivenBy q :=
  List.flatMap_append

theorem Reads.mono {known known' : List Signal} {gates : List Gate} (hs : known ⊆ known') (h : Reads known gates) :
    Reads known' gates := by
  induction gates generalizing known known' with
  | nil => trivial
  | cons g rest ih =>
    refine ⟨List.Subset.trans h.1 hs, ih (fun s hm => ?_) h.2⟩
    rcases List.mem_append.1 hm with hm | hm
    · exact List.mem_append_left _ (hs hm)
    · exact List.mem_append_right _ hm

theorem reads_append {known : List Signal} {p q : List Gate} :
    Reads known (p ++ q) ↔ Reads known p ∧ Reads (known ++ drivenBy p) q := by
  induction p generalizing known with
  | nil => simp [Reads, drivenBy]
  | cons g rest ih =>
    have hd : known ++ drivenBy (g :: rest) = (known ++ g.outputs) ++ drivenBy rest := by simp [drivenBy]
    rw [hd, List.cons_append, Reads, Reads, ih, and_assoc]

/-! ## Bindings -/

namespace SignalMap

variable {α : Type}

theorem get?_insertAll_of_not_mem (pairs : List (Signal × α)) (m : SignalMap α) (s : Signal)
    (h : s ∉ pairs.map Prod.fst) : (m.insertAll pairs).get? s = m.get? s := by
  induction pairs generalizing m with
  | nil => rfl
  | cons p rest ih =>
    simp only [List.map_cons, List.mem_cons, not_or] at h
    rw [show m.insertAll (p :: rest) = (m.insert p.1 p.2).insertAll rest from rfl, ih _ h.2, get?_insert,
      if_neg (Ne.symm h.1)]

theorem isSome_get?_insertAll (pairs : List (Signal × α)) (m : SignalMap α) (s : Signal)
    (h : s ∈ pairs.map Prod.fst ∨ (m.get? s).isSome) : ((m.insertAll pairs).get? s).isSome := by
  induction pairs generalizing m with
  | nil => simpa [insertAll] using h
  | cons p rest ih =>
    refine ih (m.insert p.1 p.2) ?_
    simp only [List.map_cons, List.mem_cons] at h
    rw [get?_insert]
    rcases h with (h | h) | h
    · exact .inr (by simp [h])
    · exact .inl h
    · refine .inr ?_
      split
      · rfl
      · exact h

end SignalMap

namespace Valuation

/-- The value of a signal, false without one. -/
def bit (v : Valuation) : Assignment := fun s => (v.get? s).getD false

/-- Every signal of the list has a value. -/
def Binds (v : Valuation) (l : List Signal) : Prop := ∀ s ∈ l, (v.get? s).isSome

instance (v : Valuation) (l : List Signal) : Decidable (v.Binds l) :=
  inferInstanceAs (Decidable (∀ s ∈ l, (v.get? s).isSome))

theorem bit_eq {v : Valuation} {s : Signal} {b : Bool} (h : v.get? s = some b) : v.bit s = b := by
  simp [bit, h]

theorem Binds.get? {v : Valuation} {l : List Signal} (h : v.Binds l) {s : Signal} (hs : s ∈ l) :
    v.get? s = some (v.bit s) := by
  obtain ⟨b, hb⟩ := Option.isSome_iff_exists.1 (h s hs)
  rw [bit_eq hb, hb]

theorem read_eq {v : Valuation} {l : List Signal} (h : v.Binds l) : v.read l = .ok (l.map v.bit) := by
  induction l with
  | nil => rfl
  | cons s rest ih =>
    have hs := h.get? List.mem_cons_self
    have hr := ih (fun t ht => h t (List.mem_cons_of_mem _ ht))
    simp only [read, hs, hr, Except.map, List.map_cons]

end Valuation

/-! ## The pass without its stops -/

/-- The valuation after a gate. -/
def Gate.settle (g : Gate) (v : Valuation) : Valuation :=
  v.insertAll (g.outputs.zip (g.kind.truth (g.inputs.map v.bit)))

/-- The valuation after the gates. -/
def settle : List Gate → Valuation → Valuation
  | [], v => v
  | g :: rest, v => settle rest (g.settle v)

theorem Gate.length_truth (g : Gate) (v : Valuation) :
    (g.kind.truth (g.inputs.map v.bit)).length = g.outputs.length := by
  cases g <;> rfl

theorem Gate.map_fst_settle (g : Gate) (v : Valuation) :
    (g.outputs.zip (g.kind.truth (g.inputs.map v.bit))).map Prod.fst = g.outputs :=
  List.map_fst_zip (Nat.le_of_eq (g.length_truth v).symm)

theorem Gate.get?_settle_other (g : Gate) (v : Valuation) {s : Signal} (h : s ∉ g.outputs) :
    (g.settle v).get? s = v.get? s :=
  SignalMap.get?_insertAll_of_not_mem _ v s (by rwa [g.map_fst_settle v])

/-- A gate without a doubled output leaves the row of its truth table on its outputs. -/
theorem Gate.settle_outputs (g : Gate) (v : Valuation) (h : g.outputs.Nodup) :
    g.outputs.map (g.settle v).bit = g.kind.truth (g.inputs.map v.bit) := by
  cases g with
  | halfAdder a b sum carry =>
    have hne : carry ≠ sum := fun he => by simp [outputs, he] at h
    simp [settle, outputs, inputs, kind, GateKind.truth, SignalMap.insertAll, Valuation.bit,
      SignalMap.get?_insert, hne]
  | or2 a b out =>
    simp [settle, outputs, inputs, kind, GateKind.truth, SignalMap.insertAll, Valuation.bit,
      SignalMap.get?_insert]
  | not a out =>
    simp [settle, outputs, inputs, kind, GateKind.truth, SignalMap.insertAll, Valuation.bit,
      SignalMap.get?_insert]

theorem Gate.binds_settle (g : Gate) {v : Valuation} {known : List Signal} (h : v.Binds known) :
    (g.settle v).Binds (known ++ g.outputs) := by
  intro s hs
  refine SignalMap.isSome_get?_insertAll _ v s ?_
  rw [g.map_fst_settle v]
  rcases List.mem_append.1 hs with hs | hs
  · exact .inr (h s hs)
  · exact .inl hs

theorem Gate.drive_eq_settle (g : Gate) {v : Valuation} (h : v.Binds g.inputs) :
    g.drive v = .ok (g.settle v) := by
  rw [drive, Valuation.read_eq h]
  rfl

theorem get?_settle_other {gates : List Gate} {v : Valuation} {s : Signal} (h : s ∉ drivenBy gates) :
    (settle gates v).get? s = v.get? s := by
  induction gates generalizing v with
  | nil => rfl
  | cons g rest ih =>
    simp only [drivenBy, List.flatMap_cons, List.mem_append, not_or] at h
    rw [settle, ih h.2, g.get?_settle_other v h.1]

theorem bit_settle_other {gates : List Gate} {v : Valuation} {s : Signal} (h : s ∉ drivenBy gates) :
    (settle gates v).bit s = v.bit s := by
  rw [Valuation.bit, Valuation.bit, get?_settle_other h]

theorem binds_settle {gates : List Gate} {v : Valuation} {known : List Signal} (h : v.Binds known) :
    (settle gates v).Binds (known ++ drivenBy gates) := by
  induction gates generalizing v known with
  | nil => simpa [settle, drivenBy] using h
  | cons g rest ih =>
    have hr := ih (g.binds_settle h)
    rwa [List.append_assoc] at hr

theorem driveAll_eq_settle {gates : List Gate} {v : Valuation} {known : List Signal} (hr : Reads known gates)
    (hb : v.Binds known) (index : Nat) : driveAll index gates v = .ok (settle gates v) := by
  induction gates generalizing v known index with
  | nil => rfl
  | cons g rest ih =>
    have hg := g.drive_eq_settle (fun s hs => hb s (hr.1 hs))
    simp only [driveAll, hg, settle]
    exact ih hr.2 (g.binds_settle hb) (index + 1)

theorem Netlist.eval_eq_settle {n : Netlist} {v : Valuation} {known : List Signal} (hr : Reads known n.gates)
    (hb : v.Binds known) (ho : n.resultBits ⊆ known ++ n.driven) :
    n.eval v = .ok (n.resultBits.map (settle n.gates v).bit) := by
  have hread := Valuation.read_eq (v := settle n.gates v) (fun s hs => binds_settle hb s (ho hs))
  rw [Netlist.eval, driveAll_eq_settle hr hb 0]
  show ((settle n.gates v).read n.resultBits).mapError _ = _
  rw [hread]
  rfl

/-- Driven once and not known, every signal keeps the value that its gate gave it, and every gate
still reads what it read in its turn. -/
theorem satisfies_settle {gates : List Gate} {known : List Signal} (v : Valuation) (hr : Reads known gates)
    (hn : (drivenBy gates).Nodup) (hk : ∀ s ∈ drivenBy gates, s ∉ known) :
    Satisfies (settle gates v).bit gates := by
  induction gates generalizing v known with
  | nil => intro g hg; cases hg
  | cons g rest ih =>
    rw [show drivenBy (g :: rest) = g.outputs ++ drivenBy rest from rfl] at hn hk
    obtain ⟨hg, hrest, hd⟩ := List.nodup_append.1 hn
    have hout : ∀ s ∈ g.outputs, s ∉ drivenBy rest := fun s hs hs' => hd s hs s hs' rfl
    intro g' hg'
    rcases List.mem_cons.1 hg' with rfl | hg'
    -- The gate itself: nothing from it on drives what it reads, nothing after it what it drives.
    · have hins : g'.inputs.map (settle (g' :: rest) v).bit = g'.inputs.map v.bit :=
        List.map_congr_left fun s hs => bit_settle_other fun hs' => hk s hs' (hr.1 hs)
      have houts : g'.outputs.map (settle rest (g'.settle v)).bit = g'.outputs.map (g'.settle v).bit :=
        List.map_congr_left fun s hs => bit_settle_other (hout s hs)
      rw [Gate.Holds, hins, settle, houts, g'.settle_outputs v hg]
    -- A later gate: the outputs of this one are known by then.
    · refine ih (g.settle v) hr.2 hrest (fun s hs => ?_) g' hg'
      simp only [List.mem_append, not_or]
      exact ⟨hk s (List.mem_append_right _ hs), fun hs' => hout s hs' hs⟩

end RippleCarry
