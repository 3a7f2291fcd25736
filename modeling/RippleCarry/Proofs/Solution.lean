import Mathlib.Logic.ExistsUnique
import RippleCarry.Proofs.Soundness
/-!
# The solution of a netlist

Hardware knows no order of gates: all truth tables hold at once. `Netlist.IsSolution` says so of a
partial assignment, defined on the known and the driven signals and nowhere else.

Gates that read only what is there before them leave no choice (`Satisfies.unique`), and evaluation
finds values that satisfy them all. `clean_unique_solution`: a netlist without defects has exactly one
solution, and evaluates to it. The order of the gates is not part of the equations, so any other order
without defects gives the same bits.
-/

namespace RippleCarry

/-- Values for some of the signals. -/
abbrev PartialAssignment := Signal → Option Bool

/-- The values of a partial assignment, with false for the signals that have none. -/
def PartialAssignment.total (ρ : PartialAssignment) : Assignment := fun s => (ρ s).getD false

/-- The values of an assignment on the given signals. -/
def Assignment.on (σ : Assignment) (l : List Signal) : PartialAssignment :=
  fun s => if s ∈ l then some (σ s) else none

/-- The inputs of the gate have values, and its outputs have those of its truth table. -/
def Gate.HoldsIn (ρ : PartialAssignment) (g : Gate) : Prop :=
  ∃ ins outs, g.inputs.map ρ = ins.map some ∧ g.outputs.map ρ = outs.map some ∧ g.kind.eval ins = .ok outs

/-- The partial assignment is defined on the known and the driven signals, agrees with the valuation on
the known ones, and every gate holds in it. -/
structure Netlist.IsSolution (n : Netlist) (known : List Signal) (v : Valuation) (ρ : PartialAssignment) :
    Prop where
  domain : ∀ s, (ρ s).isSome ↔ s ∈ known ++ n.driven
  agrees : ∀ s ∈ known, ρ s = v.get? s
  holds : ∀ g ∈ n.gates, g.HoldsIn ρ

/-! ## Partial and total assignments -/

theorem PartialAssignment.map_total {ρ : PartialAssignment} {l : List Signal} {bits : List Bool}
    (h : l.map ρ = bits.map some) : l.map ρ.total = bits := by
  have hd := congrArg (List.map (·.getD false)) h
  rw [List.map_map, List.map_map] at hd
  exact hd.trans (List.map_id bits)

theorem Assignment.map_on (σ : Assignment) {p l : List Signal} (h : p ⊆ l) :
    p.map (σ.on l) = (p.map σ).map some := by
  rw [List.map_map]
  exact List.map_congr_left fun s hs => if_pos (h hs)

theorem Gate.HoldsIn.holds {ρ : PartialAssignment} {g : Gate} (h : g.HoldsIn ρ) : g.Holds ρ.total := by
  obtain ⟨ins, outs, hin, hout, heval⟩ := h
  rw [Holds, PartialAssignment.map_total hin, PartialAssignment.map_total hout]
  rw [GateKind.eval] at heval
  split at heval
  · exact (Except.ok.inj heval).symm
  · cases heval

theorem Gate.Holds.holdsIn {σ : Assignment} {g : Gate} {l : List Signal} (h : g.Holds σ) (hin : g.inputs ⊆ l)
    (hout : g.outputs ⊆ l) : g.HoldsIn (σ.on l) := by
  refine ⟨g.inputs.map σ, g.outputs.map σ, σ.map_on hin, σ.map_on hout, ?_⟩
  rw [GateKind.eval, List.length_map, if_pos g.length_inputs, h]

/-! ## At most one solution -/

theorem mem_drivenBy {gates : List Gate} {g : Gate} (hg : g ∈ gates) : g.outputs ⊆ drivenBy gates :=
  fun _ hs => List.mem_flatMap.2 ⟨g, hg, hs⟩

theorem Reads.inputs_subset {known : List Signal} {gates : List Gate} (h : Reads known gates) {g : Gate}
    (hg : g ∈ gates) : g.inputs ⊆ known ++ drivenBy gates := by
  obtain ⟨before, after, rfl⟩ := List.append_of_mem hg
  refine List.Subset.trans (reads_append.1 h).2.1 fun s hs => ?_
  rw [drivenBy_append]
  rcases List.mem_append.1 hs with hs | hs
  · exact List.mem_append_left _ hs
  · exact List.mem_append_right _ (List.mem_append_left _ hs)

/-- Two assignments that agree on what the gates know agree on everything the gates drive, gate after
gate. -/
theorem Satisfies.unique {σ τ : Assignment} {known : List Signal} {gates : List Gate} (hr : Reads known gates)
    (hσ : Satisfies σ gates) (hτ : Satisfies τ gates) (h : ∀ s ∈ known, σ s = τ s) :
    ∀ s ∈ known ++ drivenBy gates, σ s = τ s := by
  induction gates generalizing known with
  | nil => simpa [drivenBy] using h
  | cons g rest ih =>
    have hin : g.inputs.map σ = g.inputs.map τ := List.map_congr_left fun s hs => h s (hr.1 hs)
    have hout : g.outputs.map σ = g.outputs.map τ := by
      rw [hσ g List.mem_cons_self, hτ g List.mem_cons_self, hin]
    have hstep : ∀ s ∈ known ++ g.outputs, σ s = τ s := fun s hs =>
      (List.mem_append.1 hs).elim (h s) fun hs => List.map_inj_left.1 hout s hs
    have hrest := ih hr.2 (hσ.mono (List.subset_cons_self g rest)) (hτ.mono (List.subset_cons_self g rest)) hstep
    rwa [List.append_assoc] at hrest

namespace Netlist

variable {n : Netlist} {known : List Signal} {v : Valuation} {ρ ρ' : PartialAssignment}

theorem IsSolution.satisfies (h : n.IsSolution known v ρ) : Satisfies ρ.total n.gates :=
  fun g hg => (h.holds g hg).holds

theorem IsSolution.unique (hr : Reads known n.gates) (h : n.IsSolution known v ρ)
    (h' : n.IsSolution known v ρ') : ρ = ρ' := by
  have hknown : ∀ s ∈ known, ρ.total s = ρ'.total s := fun s hs => by
    rw [PartialAssignment.total, PartialAssignment.total, h.agrees s hs, h'.agrees s hs]
  have hsame := Satisfies.unique hr h.satisfies h'.satisfies hknown
  funext s
  by_cases hs : s ∈ known ++ n.driven
  · obtain ⟨b, hb⟩ := Option.isSome_iff_exists.1 ((h.domain s).2 hs)
    obtain ⟨b', hb'⟩ := Option.isSome_iff_exists.1 ((h'.domain s).2 hs)
    have hbit := hsame s hs
    rw [PartialAssignment.total, PartialAssignment.total, hb, hb'] at hbit
    rw [hb, hb']
    exact congrArg some hbit
  · rw [Option.not_isSome_iff_eq_none.1 fun hd => hs ((h.domain s).1 hd),
      Option.not_isSome_iff_eq_none.1 fun hd => hs ((h'.domain s).1 hd)]

/-- The equations do not change with the order of the gates. -/
theorem IsSolution.perm {n' : Netlist} (h : n.IsSolution known v ρ) (hp : n'.gates.Perm n.gates) :
    n'.IsSolution known v ρ where
  domain s := by
    rw [h.domain s, List.mem_append, List.mem_append, driven, driven, drivenBy, drivenBy,
      (hp.flatMap_right Gate.outputs).mem_iff]
  agrees := h.agrees
  holds g hg := h.holds g (hp.mem_iff.1 hg)

/-- Of the valuation only the known signals count. -/
theorem IsSolution.of_agree {v' : Valuation} (h : n.IsSolution known v ρ)
    (hv : ∀ s ∈ known, v'.get? s = v.get? s) : n.IsSolution known v' ρ :=
  ⟨h.domain, fun s hs => (h.agrees s hs).trans (hv s hs).symm, h.holds⟩

/-! ## Evaluation finds it -/

/-- The values at the end of evaluation. -/
def settled (n : Netlist) (known : List Signal) (v : Valuation) : PartialAssignment :=
  (settle n.gates v).bit.on (known ++ n.driven)

theorem Sound.isSolution_settled (h : n.Sound known) (hv : v.Binds known) :
    n.IsSolution known v (n.settled known v) where
  domain s := by simp [settled, Assignment.on]
  agrees s hs := by
    have hkeep : (settle n.gates v).bit s = v.bit s := bit_settle_other fun hd => h.undriven s hd hs
    rw [settled, Assignment.on, if_pos (List.mem_append_left _ hs), hkeep, hv.get? hs]
  holds g hg :=
    (satisfies_settle v h.reads h.once h.undriven g hg).holdsIn (h.reads.inputs_subset hg)
      (List.Subset.trans (mem_drivenBy hg) (List.subset_append_right _ _))

theorem Sound.existsUnique (h : n.Sound known) (hv : v.Binds known) : ∃! ρ, n.IsSolution known v ρ :=
  ⟨n.settled known v, h.isSolution_settled hv, fun _ hρ => hρ.unique h.reads (h.isSolution_settled hv)⟩

theorem Sound.eval_of_solution (h : n.Sound known) (hv : v.Binds known) (hρ : n.IsSolution known v ρ) :
    n.eval v = .ok (n.resultBits.map ρ.total) ∧ n.resultBits.map ρ = (n.resultBits.map ρ.total).map some := by
  have hbits : n.resultBits.map ρ = (n.resultBits.map (settle n.gates v).bit).map some := by
    rw [hρ.unique h.reads (h.isSolution_settled hv)]
    exact Assignment.map_on _ h.results
  rw [PartialAssignment.map_total hbits]
  exact ⟨eval_eq_settle h.reads hv h.results, hbits⟩

/-- Sound netlists with one solution and the same result bits evaluate the same. -/
theorem Sound.eval_congr {n' : Netlist} {v' : Valuation} (h : n.Sound known) (h' : n'.Sound known)
    (hv : v.Binds known) (hv' : v'.Binds known) (hρ : n.IsSolution known v ρ) (hρ' : n'.IsSolution known v' ρ)
    (hbits : n'.resultBits = n.resultBits) : n'.eval v' = n.eval v := by
  rw [(h.eval_of_solution hv hρ).1, (h'.eval_of_solution hv' hρ').1, hbits]

end Netlist

/-- A netlist without defects is what its equations say, in every valuation that binds the primaries.
There is exactly one solution, defined on the primaries and the driven signals; evaluation hands back
its values on the result bits, and takes no notice of what else the valuation binds. The gates in any
other order without defects evaluate to the same bits. -/
theorem clean_unique_solution (n : Netlist) (constants : Constants) (inputs : List Bus) (v : Valuation)
    (hclean : n.defects constants inputs = []) (hv : v.Binds (primaries constants inputs)) :
    (∃! ρ, n.IsSolution (primaries constants inputs) v ρ) ∧
    (∀ ρ, n.IsSolution (primaries constants inputs) v ρ →
      ∃ bits, n.eval v = .ok bits ∧ n.resultBits.map ρ = bits.map some) ∧
    (∀ v' : Valuation, (∀ s ∈ primaries constants inputs, v'.get? s = v.get? s) → n.eval v' = n.eval v) ∧
    ∀ n' : Netlist, n'.gates.Perm n.gates → n'.resultBits = n.resultBits → n'.defects constants inputs = [] →
      n'.eval v = n.eval v := by
  have hs := Netlist.defects_eq_nil_iff.1 hclean
  have hρ := hs.isSolution_settled hv
  refine ⟨hs.existsUnique hv, fun ρ hρ => ⟨n.resultBits.map ρ.total, hs.eval_of_solution hv hρ⟩, fun v' hsame => ?_,
    fun n' hp hbits hclean' => ?_⟩
  · have hv' : v'.Binds (primaries constants inputs) := fun s hm => by
      rw [hsame s hm]
      exact hv s hm
    exact hs.eval_congr hs hv hv' hρ (hρ.of_agree hsame) rfl
  · exact hs.eval_congr (Netlist.defects_eq_nil_iff.1 hclean') hv hv hρ (hρ.perm hp) hbits

/-- A half adder on two inverters, in two orders. The valuation also binds a signal that is driven and
one that the netlist does not have. -/
theorem clean_unique_solution_two_orders :
    let constants : Constants := ⟨⟨0⟩, ⟨1⟩⟩
    let a : Bus := ⟨[⟨2⟩, ⟨3⟩], false⟩
    let n : Netlist := ⟨[.not ⟨2⟩ ⟨4⟩, .not ⟨3⟩ ⟨5⟩, .halfAdder ⟨4⟩ ⟨5⟩ ⟨6⟩ ⟨7⟩], [⟨6⟩, ⟨2⟩]⟩
    let n' : Netlist := ⟨[.not ⟨3⟩ ⟨5⟩, .not ⟨2⟩ ⟨4⟩, .halfAdder ⟨4⟩ ⟨5⟩ ⟨6⟩ ⟨7⟩], [⟨6⟩, ⟨2⟩]⟩
    let v := (Valuation.empty.bindConstants constants).bindBits ⟨[⟨2⟩, ⟨3⟩, ⟨4⟩, ⟨9⟩], false⟩ [true, false, true, true]
    n.defects constants [a] = [] ∧ n'.defects constants [a] = [] ∧ v.Binds (primaries constants [a]) ∧
      (∃! ρ, n.IsSolution (primaries constants [a]) v ρ) ∧ n.eval v = .ok [true, true] ∧ n'.eval v = .ok [true, true] := by
  intro constants a n n' v
  have hclean : n.defects constants [a] = [] := by decide
  have hclean' : n'.defects constants [a] = [] := by decide
  have hv : v.Binds (primaries constants [a]) := by decide
  have hs := Netlist.defects_eq_nil_iff.1 hclean
  have hbits : n.resultBits.map (settle n.gates v).bit = [true, true] := by decide
  have heval : n.eval v = .ok [true, true] := by
    rw [Netlist.eval_eq_settle hs.reads hv hs.results, hbits]
  obtain ⟨hunique, -, -, hperm⟩ := clean_unique_solution n constants [a] v hclean hv
  exact ⟨hclean, hclean', hv, hunique, heval, (hperm n' (by decide) rfl hclean').trans heval⟩

end RippleCarry
