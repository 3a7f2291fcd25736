import Mathlib.Data.List.Nodup
import RippleCarry.Proofs.Soundness
/-!
# What the check finds

The search for defects walks the gates once with a growing set. `Netlist.findings` tells the same from
places alone: what an input needs is a known signal or an output of a gate at a smaller index, and what an
output must not meet is a known signal or a pin before it. `Defect.ofGates_eq` ties the set to the places;
at index `i` it holds the known signals and what the first `i` gates drive.

`defects_exact`: the check lists these findings, in order and each as often as it occurs, and nothing else;
it lists none exactly when the three rules hold of all places; and then no gate depends on itself.
-/

namespace RippleCarry

/-! ## Places -/

/-- The first gate drives an input of the second. -/
def Gate.Feeds (g h : Gate) : Prop := ∃ s ∈ g.outputs, s ∈ h.inputs

namespace Netlist

/-- A known signal, or an output of a gate before the given index. -/
def Available (n : Netlist) (known : List Signal) (index : Nat) (s : Signal) : Prop :=
  s ∈ known ∨ ∃ i < index, ∃ g ∈ n.gates[i]?, s ∈ g.outputs

instance (n : Netlist) (known : List Signal) (index : Nat) (s : Signal) : Decidable (n.Available known index s) :=
  inferInstanceAs (Decidable (_ ∨ _))

/-- A known signal, or one driven before the given output pin of a gate: by an earlier gate, or by an
earlier pin of the same one. -/
def Taken (n : Netlist) (known : List Signal) (index pin : Nat) (s : Signal) : Prop :=
  n.Available known index s ∨ ∃ g ∈ n.gates[index]?, ∃ k < pin, g.outputs[k]? = some s

instance (n : Netlist) (known : List Signal) (index pin : Nat) (s : Signal) : Decidable (n.Taken known index pin s) :=
  inferInstanceAs (Decidable (_ ∨ _))

/-- What is wrong with a gate at its place, inputs before outputs. -/
def gateFindings (n : Netlist) (known : List Signal) (index : Nat) (g : Gate) : List Defect :=
  (g.inputs.filter fun s => ¬ n.Available known index s).map (.unknownInput index) ++
    (g.outputs.zipIdx.filter fun p => n.Taken known index p.2 p.1).map fun p => .drivenTwice index p.1

/-- What is wrong with the netlist, gate by gate, and then the result bits. -/
def findings (n : Netlist) (known : List Signal) : List Defect :=
  n.gates.zipIdx.flatMap (fun p => n.gateFindings known p.2 p.1) ++
    (n.resultBits.filter fun s => ¬ n.Available known n.gates.length s).map .unknownResult

/-- The gate at the second index reads an output of the gate at the first. -/
def Precedes (n : Netlist) (i j : Nat) : Prop := ∃ g ∈ n.gates[i]?, ∃ h ∈ n.gates[j]?, g.Feeds h

end Netlist

theorem exists_getElem?_lt_iff {α : Type} {l : List α} {i : Nat} {a : α} :
    (∃ k < i, l[k]? = some a) ↔ a ∈ l.take i := by
  rw [List.mem_iff_getElem?]
  refine exists_congr fun k => ?_
  rw [List.getElem?_take]
  by_cases hk : k < i <;> simp [hk]

theorem Netlist.available_iff {n : Netlist} {known : List Signal} {index : Nat} {s : Signal} :
    n.Available known index s ↔ s ∈ known ++ drivenBy (n.gates.take index) := by
  rw [Available, List.mem_append, drivenBy, List.mem_flatMap]
  refine or_congr_right ⟨?_, ?_⟩
  · rintro ⟨i, hi, g, hg, hs⟩
    exact ⟨g, exists_getElem?_lt_iff.1 ⟨i, hi, hg⟩, hs⟩
  · rintro ⟨g, hg, hs⟩
    obtain ⟨i, hi, hg⟩ := exists_getElem?_lt_iff.2 hg
    exact ⟨i, hi, g, hg, hs⟩

/-! ## The growing set -/

namespace Defect

/-- The pins that drive a signal again, when some signals have been driven before the list: those whose
signal was in the first set, or stands earlier in the list. -/
theorem redriven_eq {first set : SignalSet} (done rest : List Signal)
    (hset : ∀ s, s ∈ set ↔ s ∈ first ∨ s ∈ done) :
    redriven set rest =
      ((rest.zipIdx done.length).filter fun p => p.1 ∈ first ∨ ∃ k < p.2, (done ++ rest)[k]? = some p.1).map
        Prod.fst := by
  induction rest generalizing done set with
  | nil => rfl
  | cons s rest ih =>
    have hhead : (s ∈ first ∨ ∃ k < done.length, (done ++ s :: rest)[k]? = some s) ↔ s ∈ set := by
      rw [exists_getElem?_lt_iff, List.take_left, hset]
    have happend : done ++ s :: rest = (done ++ [s]) ++ rest := by simp
    have hlength : (done ++ [s]).length = done.length + 1 := by simp
    rw [redriven, List.zipIdx_cons, List.filter_cons]
    by_cases hs : s ∈ set
    · have hsame : ∀ t, t ∈ set ↔ t ∈ first ∨ t ∈ done ++ [s] := by
        intro t
        rw [List.mem_append, List.mem_singleton, ← or_assoc, ← hset]
        constructor
        · exact .inl
        · rintro (ht | rfl)
          · exact ht
          · exact hs
      rw [if_pos hs, if_pos (by simpa using hhead.2 hs), List.map_cons, ih (done ++ [s]) hsame, hlength, happend]
    · have hgrown : ∀ t, t ∈ set.insert s ↔ t ∈ first ∨ t ∈ done ++ [s] := by
        intro t
        rw [SignalSet.mem_insert, List.mem_append, List.mem_singleton, ← or_assoc, ← hset, or_comm]
      rw [if_neg hs, if_neg (by simpa using fun h => hs (hhead.1 h)), ih (done ++ [s]) hgrown, hlength, happend]

/-- The set at a gate holds the known signals and all that the gates before it drive, so the walk finds what
the places tell. -/
theorem ofGates_eq {n : Netlist} {known : List Signal} {set : SignalSet} (done rest : List Gate)
    (hn : n.gates = done ++ rest) (hset : ∀ s, s ∈ set ↔ s ∈ known ++ drivenBy done) :
    ofGates done.length set rest =
      (rest.zipIdx done.length).flatMap fun p => n.gateFindings known p.2 p.1 := by
  induction rest generalizing done set with
  | nil => rfl
  | cons g rest ih =>
    have hplace : n.gates[done.length]? = some g := by simp [hn]
    have havailable : ∀ s, n.Available known done.length s ↔ s ∈ set := by
      intro s
      rw [Netlist.available_iff, hset, hn, List.take_left]
    have hmissing : missing set g.inputs = g.inputs.filter fun s => ¬ n.Available known done.length s := by
      simp only [missing, havailable]
    have hredriven : redriven set g.outputs =
        (g.outputs.zipIdx.filter fun p => n.Taken known done.length p.2 p.1).map Prod.fst := by
      have hstart : ∀ s, s ∈ set ↔ s ∈ set ∨ s ∈ ([] : List Signal) := by simp
      rw [redriven_eq [] g.outputs hstart]
      simp [Netlist.Taken, havailable, hplace]
    have hgrown : ∀ s, s ∈ set.insertAll g.outputs ↔ s ∈ known ++ drivenBy (done ++ [g]) := by
      intro s
      rw [SignalSet.mem_insertAll_append hset, drivenBy_append, List.append_assoc]
      simp [drivenBy]
    have hrest := ih (done ++ [g]) (by simp [hn]) hgrown
    rw [List.length_append, List.length_singleton] at hrest
    rw [ofGates, hmissing, hredriven, hrest, List.zipIdx_cons, List.flatMap_cons, Netlist.gateFindings,
      List.map_map]
    rfl

end Defect

namespace Netlist

variable {n : Netlist} {known : List Signal}

theorem defects_eq_findings (n : Netlist) (constants : Constants) (inputs : List Bus) :
    n.defects constants inputs = n.findings (primaries constants inputs) := by
  have hk := SignalSet.mem_ofList (primaries constants inputs)
  have hstart : ∀ s, s ∈ SignalSet.ofList (primaries constants inputs) ↔
      s ∈ primaries constants inputs ++ drivenBy [] := by simp [drivenBy]
  have hgates := Defect.ofGates_eq [] n.gates (List.nil_append _).symm hstart
  have hresults : ∀ s, s ∈ (SignalSet.ofList (primaries constants inputs)).insertAll n.driven ↔
      n.Available (primaries constants inputs) n.gates.length s := by
    intro s
    rw [SignalSet.mem_insertAll_append hk, available_iff, List.take_length]
    rfl
  rw [List.length_nil] at hgates
  rw [defects, findings, hgates]
  simp only [Defect.missing, hresults]

/-! ## The rules, place by place -/

theorem reads_iff_take {gates : List Gate} :
    Reads known gates ↔ ∀ (j : Nat) (g : Gate), gates[j]? = some g → g.inputs ⊆ known ++ drivenBy (gates.take j) := by
  induction gates generalizing known with
  | nil => simp [Reads]
  | cons g rest ih =>
    have hgrown (j : Nat) : known ++ drivenBy ((g :: rest).take (j + 1)) =
        (known ++ g.outputs) ++ drivenBy (rest.take j) := by
      simp [drivenBy]
    rw [Reads, ih]
    constructor
    · rintro ⟨hhead, hrest⟩ j h hj
      cases j with
      | zero =>
        cases hj
        simpa [drivenBy] using hhead
      | succ j =>
        rw [hgrown]
        exact hrest j h hj
    · intro h
      refine ⟨by simpa [drivenBy] using h 0 g rfl, fun j h' hj => ?_⟩
      rw [← hgrown]
      exact h (j + 1) h' hj

theorem reads_iff_available :
    Reads known n.gates ↔ ∀ (j : Nat) (g : Gate), n.gates[j]? = some g → ∀ s ∈ g.inputs, n.Available known j s := by
  simp only [reads_iff_take, available_iff, List.subset_def]

/-- A signal driven once has one driver. -/
theorem driver_unique (h : n.driven.Nodup) {i j : Nat} {g g' : Gate} (hi : n.gates[i]? = some g)
    (hj : n.gates[j]? = some g') {s : Signal} (hs : s ∈ g.outputs) (hs' : s ∈ g'.outputs) : i = j := by
  have hdisjoint := List.pairwise_iff_getElem.1 (List.nodup_flatMap.1 h).2
  obtain ⟨hilt, rfl⟩ := List.getElem?_eq_some_iff.1 hi
  obtain ⟨hjlt, rfl⟩ := List.getElem?_eq_some_iff.1 hj
  rcases Nat.lt_trichotomy i j with hlt | heq | hlt
  · exact absurd hs' (hdisjoint i j hilt hjlt hlt hs)
  · exact heq
  · exact absurd hs (hdisjoint j i hjlt hilt hlt hs')

/-- In a sound netlist the order of the gates is an order of their dependencies. -/
theorem Sound.lt_of_precedes (h : n.Sound known) {i j : Nat} (hij : n.Precedes i j) : i < j := by
  obtain ⟨g, hg, g', hg', s, hout, hin⟩ := hij
  rcases reads_iff_available.1 h.reads j g' hg' s hin with hs | ⟨k, hk, g'', hg'', hs⟩
  · exact absurd hs (h.undriven s (List.mem_flatMap.2 ⟨g, List.mem_of_getElem? hg, hout⟩))
  · rwa [driver_unique h.once hg hg'' hout hs]

theorem Sound.acyclic (h : n.Sound known) (i : Nat) : ¬ Relation.TransGen n.Precedes i i := by
  have hlt {i j : Nat} (hij : Relation.TransGen n.Precedes i j) : i < j := by
    induction hij with
    | single hstep => exact h.lt_of_precedes hstep
    | tail _ hstep ih => exact Nat.lt_trans ih (h.lt_of_precedes hstep)
  exact fun hii => Nat.lt_irrefl i (hlt hii)

end Netlist

/-- The check is exact. It lists nothing just when every input of a gate is a primary or an output of an
earlier gate, the output pins of all gates drive different signals and no primary, and every result bit is
a primary or driven. What it lists is what is wrong at each place: gate by gate, an entry for each input pin
that breaks the first rule and then one for each output pin whose signal is a primary or driven by a pin
before it, and at the end an entry for each result bit that breaks the third. In a netlist without
defects no gate depends on itself through others. -/
theorem defects_exact (n : Netlist) (constants : Constants) (inputs : List Bus) :
    (n.defects constants inputs = [] ↔
      (∀ (j : Nat) (g : Gate), n.gates[j]? = some g → ∀ s ∈ g.inputs,
        n.Available (primaries constants inputs) j s) ∧
      (n.driven.Nodup ∧ ∀ s ∈ n.driven, s ∉ primaries constants inputs) ∧
      ∀ s ∈ n.resultBits, s ∈ primaries constants inputs ∨ s ∈ n.driven) ∧
    n.defects constants inputs = n.findings (primaries constants inputs) ∧
    (n.defects constants inputs = [] → ∀ i, ¬ Relation.TransGen n.Precedes i i) := by
  refine ⟨?_, n.defects_eq_findings constants inputs, fun h => (Netlist.defects_eq_nil_iff.1 h).acyclic⟩
  rw [Netlist.defects_eq_nil_iff]
  constructor
  · intro h
    exact ⟨Netlist.reads_iff_available.1 h.reads, ⟨h.once, h.undriven⟩, fun s hs => List.mem_append.1 (h.results hs)⟩
  · rintro ⟨hreads, ⟨honce, hundriven⟩, hresults⟩
    exact ⟨Netlist.reads_iff_available.2 hreads, honce, hundriven, fun s hs => List.mem_append.2 (hresults s hs)⟩

/-- The first gate of one netlist reads its own output and drives one signal twice, the second drives an
operand bit, and a result bit without a driver is listed twice. The other netlist is clean. -/
theorem defects_exact_own_output :
    let constants : Constants := ⟨⟨0⟩, ⟨1⟩⟩
    let a : Bus := ⟨[⟨2⟩, ⟨2⟩], false⟩
    let faulty : Netlist := ⟨[.halfAdder ⟨2⟩ ⟨4⟩ ⟨4⟩ ⟨4⟩, .not ⟨4⟩ ⟨2⟩], [⟨9⟩, ⟨4⟩, ⟨9⟩]⟩
    let clean : Netlist := ⟨[.halfAdder ⟨2⟩ ⟨1⟩ ⟨4⟩ ⟨5⟩, .or2 ⟨5⟩ ⟨4⟩ ⟨6⟩, .not ⟨6⟩ ⟨3⟩], [⟨3⟩, ⟨2⟩]⟩
    faulty.defects constants [a] =
        [.unknownInput 0 ⟨4⟩, .drivenTwice 0 ⟨4⟩, .drivenTwice 1 ⟨2⟩, .unknownResult ⟨9⟩, .unknownResult ⟨9⟩] ∧
      clean.defects constants [a] = [] ∧ ∀ i, ¬ Relation.TransGen clean.Precedes i i := by
  intro constants a faulty clean
  obtain ⟨-, hfindings, -⟩ := defects_exact faulty constants [a]
  obtain ⟨-, -, hacyclic⟩ := defects_exact clean constants [a]
  have hclean : clean.defects constants [a] = [] := by decide
  exact ⟨hfindings.trans (by decide), hclean, hacyclic hclean⟩

end RippleCarry
