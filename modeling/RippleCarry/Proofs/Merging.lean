import Mathlib.Data.List.Nodup
import Mathlib.Data.List.Pairwise
import Mathlib.Data.List.SplitLengths
import RippleCarry.Proofs.Collisions
import RippleCarry.Proofs.Solution
/-!
# Merged netlists

Netlists are merged by placing their gates one after the other. `Netlist.Apart` is what keeps two of
them from meeting: neither drives a signal that the other reads, drives or hands back. What stands
between a netlist and its own evaluation is then only gates that leave its signals alone.

`Netlist.eval_eq_ok_iff` says when evaluation goes through, in any valuation whatever, and to which
bits. `merge_independent`: netlists that are pairwise apart evaluate together exactly when each does by
itself, to the same bits; and they are clean together when each is.
-/

namespace RippleCarry

/-! ## When evaluation goes through -/

/-- The signals that have a value, by increasing id. -/
def Valuation.domain (v : Valuation) : List Signal := v.entries.keys.map Signal.mk

theorem Valuation.mem_domain {v : Valuation} {s : Signal} : s ∈ v.domain ↔ (v.get? s).isSome := by
  obtain ⟨id⟩ := s
  simp [domain, SignalMap.get?]

theorem Valuation.tracks_domain (v : Valuation) : v.Tracks (SignalSet.ofList v.domain) := by
  intro s
  rw [SignalSet.mem_ofList, mem_domain]

theorem Valuation.binds_domain (v : Valuation) : v.Binds v.domain := fun _ hs => mem_domain.1 hs

theorem driveAll_ok {gates : List Gate} {v w : Valuation} {index : Nat} (h : driveAll index gates v = .ok w) :
    Reads v.domain gates ∧ w = settle gates v := by
  rw [driveAll_eq_unknownInputs v.tracks_domain] at h
  cases hu : (Defect.unknownInputs (Defect.ofGates index (SignalSet.ofList v.domain) gates)).head? with
  | some p => rw [hu] at h; cases h
  | none =>
    rw [hu] at h
    refine ⟨?_, (Except.ok.inj h).symm⟩
    exact (Defect.unknownInputs_eq_nil_iff (SignalSet.mem_ofList _) index).1 (List.head?_eq_none_iff.1 hu)

theorem Valuation.binds_of_read {v : Valuation} {l : List Signal} {bits : List Bool} (h : v.read l = .ok bits) :
    v.Binds l := by
  rw [v.tracks_domain.read_eq] at h
  cases hm : (Defect.missing (SignalSet.ofList v.domain) l).head? with
  | some s => rw [hm] at h; cases h
  | none =>
    intro s hs
    have hs' := Defect.missing_eq_nil_iff.1 (List.head?_eq_none_iff.1 hm) s hs
    rwa [SignalSet.mem_ofList, mem_domain] at hs'

/-- Evaluation goes through exactly when every gate reads signals with a value or driven before it,
and every result bit has a value or is driven. -/
theorem Netlist.eval_eq_ok_iff {n : Netlist} {v : Valuation} {bits : List Bool} :
    n.eval v = .ok bits ↔
      Reads v.domain n.gates ∧ n.resultBits ⊆ v.domain ++ n.driven ∧
        bits = n.resultBits.map (settle n.gates v).bit := by
  constructor
  · intro h
    obtain ⟨final, hdrive, hread⟩ := ok_of_bind h
    obtain ⟨hreads, rfl⟩ := driveAll_ok hdrive
    have hbound : (settle n.gates v).Binds n.resultBits := by
      cases hr : (settle n.gates v).read n.resultBits with
      | error s => rw [hr] at hread; cases hread
      | ok bits => exact Valuation.binds_of_read hr
    have hresults : n.resultBits ⊆ v.domain ++ n.driven := by
      intro s hs
      by_cases hd : s ∈ n.driven
      · exact List.mem_append_right _ hd
      · have hs' := hbound s hs
        rw [get?_settle_other hd] at hs'
        exact List.mem_append_left _ (Valuation.mem_domain.2 hs')
    refine ⟨hreads, hresults, ?_⟩
    rw [Netlist.eval_eq_settle hreads v.binds_domain hresults] at h
    exact (Except.ok.inj h).symm
  · rintro ⟨hreads, hresults, rfl⟩
    exact Netlist.eval_eq_settle hreads v.binds_domain hresults

/-! ## Gates that leave each other alone -/

/-- Every signal read by a list of gates, in gate and pin order. -/
def readBy (gates : List Gate) : List Signal := gates.flatMap Gate.inputs

/-- Signals that no gate reads need not be known. -/
theorem reads_append_unread {known extra : List Signal} {gates : List Gate}
    (h : ∀ s ∈ extra, s ∉ readBy gates) : Reads (known ++ extra) gates ↔ Reads known gates := by
  constructor
  · intro hr
    induction gates generalizing known with
    | nil => trivial
    | cons g rest ih =>
      rw [readBy, List.flatMap_cons] at h
      constructor
      · intro s hs
        rcases List.mem_append.1 (hr.1 hs) with hk | he
        · exact hk
        · exact absurd (List.mem_append_left _ hs) (h s he)
      · apply ih
        · intro s he hs
          exact h s he (List.mem_append_right _ hs)
        · refine hr.2.mono ?_
          intro s hs
          simp only [List.mem_append] at hs ⊢
          exact or_right_comm.1 hs
  · intro hr
    exact hr.mono (List.subset_append_left _ _)

theorem SignalMap.get?_insertAll_congr {α : Type} {m m' : SignalMap α} {s : Signal} (h : m.get? s = m'.get? s)
    (pairs : List (Signal × α)) : (m.insertAll pairs).get? s = (m'.insertAll pairs).get? s := by
  induction pairs generalizing m m' with
  | nil => exact h
  | cons p rest ih =>
    apply ih
    rw [get?_insert, get?_insert, h]

theorem Gate.get?_settle_congr {g : Gate} {v w : Valuation} (hr : ∀ s ∈ g.inputs, v.get? s = w.get? s)
    {s : Signal} (hs : v.get? s = w.get? s) : (g.settle v).get? s = (g.settle w).get? s := by
  have hin : g.inputs.map v.bit = g.inputs.map w.bit := by
    apply List.map_congr_left
    intro t ht
    rw [Valuation.bit, Valuation.bit, hr t ht]
  rw [settle, settle, hin]
  exact SignalMap.get?_insertAll_congr hs _

/-- Valuations that agree on what the gates read go on to agree wherever they agreed. -/
theorem get?_settle_congr {gates : List Gate} {v w : Valuation} (hr : ∀ s ∈ readBy gates, v.get? s = w.get? s)
    {s : Signal} (hs : v.get? s = w.get? s) : (settle gates v).get? s = (settle gates w).get? s := by
  induction gates generalizing v w with
  | nil => exact hs
  | cons g rest ih =>
    rw [readBy, List.flatMap_cons] at hr
    have hg : ∀ t ∈ g.inputs, v.get? t = w.get? t := fun t ht => hr t (List.mem_append_left _ ht)
    apply ih
    · intro t ht
      exact Gate.get?_settle_congr hg (hr t (List.mem_append_right _ ht))
    · exact Gate.get?_settle_congr hg hs

theorem settle_append (p q : List Gate) (v : Valuation) : settle (p ++ q) v = settle q (settle p v) := by
  induction p generalizing v with
  | nil => rfl
  | cons g rest ih => exact ih (g.settle v)

/-- Gates that drive nothing of what later gates read can be left out, for every signal that they do not
drive. -/
theorem bit_settle_append {p q : List Gate} {v : Valuation} {s : Signal} (h : ∀ t ∈ drivenBy p, t ∉ readBy q)
    (hs : s ∉ drivenBy p) : (settle (p ++ q) v).bit s = (settle q v).bit s := by
  have hread : ∀ t ∈ readBy q, (settle p v).get? t = v.get? t := fun t ht =>
    get?_settle_other fun hd => h t hd ht
  rw [settle_append, Valuation.bit, Valuation.bit, get?_settle_congr hread (get?_settle_other hs)]

/-! ## Netlists that are apart -/

namespace Netlist

/-- Every signal that the netlist reads, drives or hands back. -/
def signals (n : Netlist) : List Signal := readBy n.gates ++ n.driven ++ n.resultBits

/-- Neither netlist drives a signal of the other. -/
def Apart (n m : Netlist) : Prop := (∀ s ∈ n.driven, s ∉ m.signals) ∧ ∀ s ∈ m.driven, s ∉ n.signals

instance (n m : Netlist) : Decidable (n.Apart m) :=
  inferInstanceAs (Decidable ((∀ s ∈ n.driven, s ∉ m.signals) ∧ ∀ s ∈ m.driven, s ∉ n.signals))

variable {n m : Netlist} {netlists : List Netlist} {known : List Signal} {v : Valuation} {s : Signal}

instance : Std.Symm Apart := ⟨fun _ _ h => ⟨h.2, h.1⟩⟩

theorem read_mem_signals (h : s ∈ readBy n.gates) : s ∈ n.signals :=
  List.mem_append_left _ (List.mem_append_left _ h)

theorem driven_mem_signals (h : s ∈ n.driven) : s ∈ n.signals :=
  List.mem_append_left _ (List.mem_append_right _ h)

theorem result_mem_signals (h : s ∈ n.resultBits) : s ∈ n.signals := List.mem_append_right _ h

/-- Of netlists that are apart, the one that drives a signal of `n` is `n`. -/
theorem driver_eq (h : netlists.Pairwise Apart) (hn : n ∈ netlists) (hm : m ∈ netlists) (hd : s ∈ m.driven)
    (hs : s ∈ n.signals) : m = n := by
  by_contra hne
  exact (h.forall hm hn hne).1 s hd hs

theorem merged_driven (netlists : List Netlist) : (merge netlists).toNetlist.driven = netlists.flatMap driven :=
  List.flatMap_assoc

theorem mem_readBy_merged : s ∈ readBy (netlists.flatMap gates) ↔ ∃ n ∈ netlists, s ∈ readBy n.gates := by
  rw [readBy, List.flatMap_assoc, List.mem_flatMap]
  rfl

theorem mem_drivenBy_merged : s ∈ drivenBy (netlists.flatMap gates) ↔ ∃ n ∈ netlists, s ∈ n.driven := by
  rw [drivenBy, List.flatMap_assoc, List.mem_flatMap]
  rfl

/-- A netlist does not drive what those after it read. -/
theorem head_unread (h : (n :: netlists).Pairwise Apart) :
    ∀ s ∈ drivenBy n.gates, s ∉ readBy (netlists.flatMap gates) := by
  intro s hd hr
  obtain ⟨m, hm, hr⟩ := mem_readBy_merged.1 hr
  exact (List.rel_of_pairwise_cons h hm).1 s hd (read_mem_signals hr)

theorem reads_merged (h : netlists.Pairwise Apart) :
    Reads known (netlists.flatMap gates) ↔ ∀ n ∈ netlists, Reads known n.gates := by
  induction netlists with
  | nil => simp [Reads]
  | cons n rest ih =>
    rw [List.flatMap_cons, reads_append, reads_append_unread (head_unread h), ih h.of_cons, List.forall_mem_cons]

/-- In the merged netlist every signal of a part ends with the value that the part gives it. -/
theorem bit_settle_merged (h : netlists.Pairwise Apart) (hn : n ∈ netlists) (hs : s ∈ n.signals) :
    (settle (netlists.flatMap gates) v).bit s = (settle n.gates v).bit s := by
  induction netlists with
  | nil => cases hn
  | cons m rest ih =>
    rw [List.flatMap_cons]
    rcases List.mem_cons.1 hn with rfl | hn
    -- The part comes first: nothing after it drives the signal.
    · rw [settle_append]
      apply bit_settle_other
      intro hd
      obtain ⟨m, hm, hd⟩ := mem_drivenBy_merged.1 hd
      exact (List.rel_of_pairwise_cons h hm).2 s hd hs
    -- It comes later: what stands before it drives neither the signal nor anything read after it.
    · rw [bit_settle_append (head_unread h) fun hd => (List.rel_of_pairwise_cons h hn).1 s hd hs]
      exact ih h.of_cons hn

theorem results_merged (h : netlists.Pairwise Apart) :
    (merge netlists).toNetlist.resultBits ⊆ known ++ (merge netlists).toNetlist.driven ↔
      ∀ n ∈ netlists, n.resultBits ⊆ known ++ n.driven := by
  have hbits : (merge netlists).toNetlist.resultBits = netlists.flatMap resultBits := rfl
  rw [hbits, merged_driven]
  constructor
  · intro hsub n hn s hs
    rcases List.mem_append.1 (hsub (List.mem_flatMap.2 ⟨n, hn, hs⟩)) with hk | hd
    · exact List.mem_append_left _ hk
    · obtain ⟨m, hm, hd⟩ := List.mem_flatMap.1 hd
      obtain rfl := driver_eq h hn hm hd (result_mem_signals hs)
      exact List.mem_append_right _ hd
  · intro hsub s hs
    obtain ⟨n, hn, hs⟩ := List.mem_flatMap.1 hs
    rcases List.mem_append.1 (hsub n hn hs) with hk | hd
    · exact List.mem_append_left _ hk
    · exact List.mem_append_right _ (List.mem_flatMap.2 ⟨n, hn, hd⟩)

theorem eval_merged (h : netlists.Pairwise Apart) {bits : List Bool} :
    (merge netlists).toNetlist.eval v = .ok bits ↔
      (∀ n ∈ netlists, ∃ part, n.eval v = .ok part) ∧
        bits = netlists.flatMap fun n => n.resultBits.map (settle n.gates v).bit := by
  have hgates : (merge netlists).toNetlist.gates = netlists.flatMap gates := rfl
  have hvalues : (merge netlists).toNetlist.resultBits.map (settle (netlists.flatMap gates) v).bit =
      netlists.flatMap fun n => n.resultBits.map (settle n.gates v).bit := by
    rw [show (merge netlists).toNetlist.resultBits = netlists.flatMap resultBits from rfl, List.map_flatMap]
    refine List.flatMap_congr fun n hn => ?_
    exact List.map_congr_left fun s hs => bit_settle_merged h hn (result_mem_signals hs)
  rw [eval_eq_ok_iff, results_merged h, hgates, reads_merged h, hvalues, ← and_assoc]
  refine and_congr_left fun _ => ?_
  simp only [eval_eq_ok_iff, exists_and_left, exists_eq, and_true]
  exact forall₂_and.symm

theorem sound_merged (h : netlists.Pairwise Apart) :
    (merge netlists).toNetlist.Sound known ↔ ∀ n ∈ netlists, n.Sound known := by
  have hgates : (merge netlists).toNetlist.gates = netlists.flatMap gates := rfl
  constructor
  · intro hs n hn
    have hsub : n.driven ⊆ (merge netlists).toNetlist.driven := by
      rw [merged_driven]
      exact fun s hd => List.mem_flatMap.2 ⟨n, hn, hd⟩
    refine ⟨(reads_merged h).1 hs.reads n hn, ?_, fun s hd => hs.undriven s (hsub hd),
      (results_merged h).1 hs.results n hn⟩
    have honce := hs.once
    rw [merged_driven, List.nodup_flatMap] at honce
    exact honce.1 n hn
  · intro hs
    refine ⟨(reads_merged h).2 fun n hn => (hs n hn).reads, ?_, ?_, (results_merged h).2 fun n hn => (hs n hn).results⟩
    · rw [merged_driven, List.nodup_flatMap]
      refine ⟨fun n hn => (hs n hn).once, h.imp ?_⟩
      intro n m hnm s hn hm
      exact hnm.1 s hn (driven_mem_signals hm)
    · intro s hd
      rw [merged_driven] at hd
      obtain ⟨n, hn, hd⟩ := List.mem_flatMap.1 hd
      exact (hs n hn).undriven s hd

theorem Sound.signals_subset (h : n.Sound known) : n.signals ⊆ known ++ n.driven := by
  intro s hs
  simp only [signals, List.mem_append] at hs
  rcases hs with (hr | hd) | hb
  · obtain ⟨g, hg, hr⟩ := List.mem_flatMap.1 hr
    exact h.reads.inputs_subset hg hr
  · exact List.mem_append_right _ hd
  · exact h.results hb

/-- Netlists that are sound for the same known signals are apart as soon as they drive different
signals. -/
theorem Sound.apart (hn : n.Sound known) (hm : m.Sound known) (hd : n.driven.Disjoint m.driven) : n.Apart m := by
  constructor
  · intro s hs hsig
    rcases List.mem_append.1 (hm.signals_subset hsig) with hk | hs'
    · exact hn.undriven s hs hk
    · exact hd hs hs'
  · intro s hs hsig
    rcases List.mem_append.1 (hn.signals_subset hsig) with hk | hs'
    · exact hm.undriven s hs hk
    · exact hd hs' hs

end Netlist

/-! ## The bits of each part -/

/-- The bits of a merged result, cut into the results of the parts. -/
def MergedNetlist.slices (m : MergedNetlist) (bits : List Bool) : List (List Bool) :=
  (m.outputs.map List.length).splitLengths bits

theorem splitLengths_flatten {α : Type} (parts : List (List α)) :
    (parts.map List.length).splitLengths parts.flatten = parts := by
  induction parts with
  | nil => rfl
  | cons p rest ih =>
    rw [List.map_cons, List.flatten_cons, List.splitLengths_cons, List.take_left, List.drop_left, ih]

theorem Netlist.slices_merged (netlists : List Netlist) (σ : Netlist → Assignment) :
    (merge netlists).slices (netlists.flatMap fun n => n.resultBits.map (σ n)) =
      netlists.map fun n => n.resultBits.map (σ n) := by
  have hlen : (merge netlists).outputs.map List.length =
      (netlists.map fun n => n.resultBits.map (σ n)).map List.length := by
    simp [merge, Function.comp_def]
  rw [MergedNetlist.slices, hlen, List.flatMap_def, splitLengths_flatten]

/-- The slices of a merged result are the results of the parts. -/
theorem Netlist.map_eval_merged {netlists : List Netlist} (h : netlists.Pairwise Apart) {v : Valuation}
    {bits : List Bool} (heval : (merge netlists).toNetlist.eval v = .ok bits) :
    netlists.map (·.eval v) = ((merge netlists).slices bits).map .ok := by
  obtain ⟨hparts, rfl⟩ := (eval_merged h).1 heval
  rw [slices_merged, List.map_map]
  apply List.map_congr_left
  intro n hn
  obtain ⟨part, hpart⟩ := hparts n hn
  rw [hpart, (eval_eq_ok_iff.1 hpart).2.2]
  rfl

/-- Merging netlists that are apart changes none of them. In every valuation the merged netlist, with
the results of all parts as its result, evaluates exactly when each part does; and the slice of a part
is then what the part evaluates to. The merged netlist is clean for some primaries exactly when each part
is clean for them. -/
theorem merge_independent (netlists : List Netlist) (hapart : netlists.Pairwise Netlist.Apart) :
    (∀ v : Valuation,
      ((∃ bits, (Netlist.merge netlists).toNetlist.eval v = .ok bits) ↔
        ∀ n ∈ netlists, ∃ bits, n.eval v = .ok bits) ∧
      ∀ bits, (Netlist.merge netlists).toNetlist.eval v = .ok bits →
        netlists.map (·.eval v) = ((Netlist.merge netlists).slices bits).map .ok) ∧
    ∀ (constants : Constants) (inputs : List Bus),
      (Netlist.merge netlists).toNetlist.defects constants inputs = [] ↔
        ∀ n ∈ netlists, n.defects constants inputs = [] := by
  refine ⟨fun v => ⟨?_, fun bits heval => ?_⟩, fun constants inputs => ?_⟩
  · simp only [Netlist.eval_merged hapart, exists_and_left, exists_eq, and_true]
  · exact Netlist.map_eval_merged hapart heval
  · simp only [Netlist.defects_eq_nil_iff]
    exact Netlist.sound_merged hapart

/-- Three parts on the same two inputs, the last of which has no gates and hands an input back. -/
theorem merge_independent_shared_inputs :
    let constants : Constants := ⟨⟨0⟩, ⟨1⟩⟩
    let a : Bus := ⟨[⟨2⟩, ⟨3⟩], false⟩
    let inverse : Netlist := ⟨[.not ⟨2⟩ ⟨4⟩], [⟨4⟩, ⟨2⟩]⟩
    let sum : Netlist := ⟨[.halfAdder ⟨2⟩ ⟨3⟩ ⟨5⟩ ⟨6⟩, .or2 ⟨5⟩ ⟨6⟩ ⟨7⟩], [⟨6⟩, ⟨7⟩, ⟨1⟩]⟩
    let wire : Netlist := ⟨[], [⟨3⟩]⟩
    let v := (Valuation.empty.bindConstants constants).bindBits a [true, true]
    let merged := Netlist.merge [inverse, sum, wire]
    [inverse, sum, wire].Pairwise Netlist.Apart ∧ merged.toNetlist.defects constants [a] = [] ∧
      ∃ bits, merged.toNetlist.eval v = .ok bits ∧ merged.slices bits = [[false, true], [true, true, true], [true]] := by
  intro constants a inverse sum wire v merged
  have hapart : [inverse, sum, wire].Pairwise Netlist.Apart := by decide
  have hclean : ∀ n ∈ [inverse, sum, wire], n.defects constants [a] = [] := by decide
  have hv : v.Binds (primaries constants [a]) := by decide
  have heval : ∀ n ∈ [inverse, sum, wire], n.eval v = .ok (n.resultBits.map (settle n.gates v).bit) := by
    intro n hn
    have hs := Netlist.defects_eq_nil_iff.1 (hclean n hn)
    exact Netlist.eval_eq_settle hs.reads hv hs.results
  obtain ⟨hmerged, hdefects⟩ := merge_independent [inverse, sum, wire] hapart
  obtain ⟨hok, hslices⟩ := hmerged v
  obtain ⟨bits, hbits⟩ := hok.2 fun n hn => ⟨_, heval n hn⟩
  refine ⟨hapart, (hdefects constants [a]).2 hclean, bits, hbits, ?_⟩
  have hi : inverse.resultBits.map (settle inverse.gates v).bit = [false, true] := by decide
  have hs : sum.resultBits.map (settle sum.gates v).bit = [true, true, true] := by decide
  have hw : wire.resultBits.map (settle wire.gates v).bit = [true] := by decide
  have hparts := hslices bits hbits
  rw [List.map_cons, List.map_cons, List.map_cons, List.map_nil, heval inverse (by simp), heval sum (by simp),
    heval wire (by simp), hi, hs, hw] at hparts
  exact List.map_injective_iff.2 (fun _ _ h => Except.ok.inj h) hparts.symm

end RippleCarry
