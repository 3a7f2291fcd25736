import Mathlib.Data.List.Chain
import Mathlib.Order.Bounds.Defs
import RippleCarry.Depth
import RippleCarry.Proofs.Findings
/-!
# Longest paths

The pass over the gates gives an output one more than the deepest input of its gate. In a netlist whose
gates are in order no depth is written over or read too early, so the depths at the end satisfy this at all
gates at once (`Gate.DepthHolds`, `holds_depths`). The order of the gates has no further part in it: from
these equations every path is bounded by the depth of its end (`PathTo.length_le`), and every depth is the
length of a path (`exists_path`).

`depths_longest`: depths are the lengths of longest paths, and so is the deepest path of the summary; any
other order of the gates gives the same.
-/

namespace RippleCarry

namespace Netlist

/-- Gates of the netlist, each driving an input of the next, the last of which drives the signal. Which of
two equal gates is meant makes no difference. -/
structure PathTo (n : Netlist) (s : Signal) (path : List Gate) : Prop where
  gates : path ⊆ n.gates
  linked : path.IsChain Gate.Feeds
  ends : ∃ g, path.getLast? = some g ∧ s ∈ g.outputs

/-- A longest path to the signal has `k` gates. -/
def LongestTo (n : Netlist) (s : Signal) (k : Nat) : Prop :=
  IsGreatest {length | ∃ path, n.PathTo s path ∧ path.length = length} k

/-- The check finds nothing wrong with the gates. Result bits may be unknown. -/
structure InOrder (n : Netlist) (constants : Constants) (inputs : List Bus) : Prop where
  reads : ∀ i s, .unknownInput i s ∉ n.defects constants inputs
  once : ∀ i s, .drivenTwice i s ∉ n.defects constants inputs

end Netlist

/-! ## Depths -/

namespace Depths

variable {m m' : Depths} {l : List Signal}

theorem of_eq {s : Signal} {k : Nat} (h : m.get? s = some k) : m.of s = k := by
  rw [of, h]
  rfl

theorem get?_of_pos {s : Signal} (h : 0 < m.of s) : m.get? s = some (m.of s) := by
  unfold of at h ⊢
  cases hs : m.get? s with
  | none => simp [hs] at h
  | some k => rfl

theorem deepest_cons (m : Depths) (s : Signal) (l : List Signal) :
    m.deepest (s :: l) = max (m.of s) (m.deepest l) := rfl

theorem le_deepest {s : Signal} (h : s ∈ l) : m.of s ≤ m.deepest l := by
  induction l with
  | nil => cases h
  | cons t l ih =>
    rw [deepest_cons]
    rcases List.mem_cons.1 h with rfl | h
    · exact Nat.le_max_left _ _
    · exact Nat.le_trans (ih h) (Nat.le_max_right _ _)

theorem exists_deepest (h : 0 < m.deepest l) : ∃ s ∈ l, m.get? s = some (m.deepest l) := by
  induction l with
  | nil => cases h
  | cons t l ih =>
    rw [deepest_cons] at h ⊢
    by_cases hle : m.deepest l ≤ m.of t
    · rw [Nat.max_eq_left hle] at h ⊢
      exact ⟨t, by simp, get?_of_pos h⟩
    · rw [Nat.max_eq_right (by omega)] at h ⊢
      obtain ⟨s, hs, hget⟩ := ih h
      exact ⟨s, List.mem_cons_of_mem _ hs, hget⟩

theorem deepest_congr (h : ∀ s ∈ l, m.get? s = m'.get? s) : m.deepest l = m'.deepest l := by
  induction l with
  | nil => rfl
  | cons t l ih =>
    rw [deepest_cons, deepest_cons, of, of, h t (by simp), ih fun s hs => h s (List.mem_cons_of_mem _ hs)]

end Depths

/-! ## The pass over the gates -/

theorem SignalMap.get?_insertAll_const {α : Type} (v : α) {l : List Signal} (m : SignalMap α) {s : Signal}
    (h : s ∈ l) : (m.insertAll (l.map (·, v))).get? s = some v := by
  induction l generalizing m with
  | nil => cases h
  | cons t l ih =>
    show ((m.insert t v).insertAll (l.map (·, v))).get? s = some v
    by_cases hs : s ∈ l
    · exact ih _ hs
    · have ht : t = s := by simpa [hs, eq_comm] using h
      rw [get?_insertAll_of_not_mem _ _ _ (by simpa using hs), get?_insert, if_pos ht]

theorem Gate.get?_deepen_output (g : Gate) (m : Depths) {s : Signal} (h : s ∈ g.outputs) :
    (g.deepen m).get? s = some (1 + m.deepest g.inputs) :=
  SignalMap.get?_insertAll_const _ m h

theorem Gate.get?_deepen_other (g : Gate) (m : Depths) {s : Signal} (h : s ∉ g.outputs) :
    (g.deepen m).get? s = m.get? s :=
  SignalMap.get?_insertAll_of_not_mem _ m s (by simpa using h)

theorem get?_deepen_other {gates : List Gate} (m : Depths) {s : Signal} (h : s ∉ drivenBy gates) :
    (gates.foldl Gate.deepen m).get? s = m.get? s := by
  induction gates generalizing m with
  | nil => rfl
  | cons g rest ih =>
    simp only [drivenBy, List.flatMap_cons, List.mem_append, not_or] at h
    rw [List.foldl_cons, ih _ h.2, g.get?_deepen_other m h.1]

/-- Every output of the gate is one deeper than its deepest input. -/
def Gate.DepthHolds (m : Depths) (g : Gate) : Prop :=
  ∀ s ∈ g.outputs, m.get? s = some (1 + m.deepest g.inputs)

-- Each depth stays as its gate left it, and each gate found its inputs as they are at the end.
theorem holds_deepen {gates : List Gate} {known : List Signal} (m : Depths) (hr : Reads known gates)
    (hn : (drivenBy gates).Nodup) (hk : ∀ s ∈ drivenBy gates, s ∉ known) :
    ∀ g ∈ gates, g.DepthHolds (gates.foldl Gate.deepen m) := by
  induction gates generalizing m known with
  | nil => intro g hg; cases hg
  | cons g rest ih =>
    rw [show drivenBy (g :: rest) = g.outputs ++ drivenBy rest from rfl] at hn hk
    obtain ⟨-, hrest, hd⟩ := List.nodup_append.1 hn
    have hout : ∀ s ∈ g.outputs, s ∉ drivenBy rest := fun s hs hs' => hd s hs s hs' rfl
    intro g' hg'
    rcases List.mem_cons.1 hg' with rfl | hg'
    · intro s hs
      have hin : Depths.deepest ((g' :: rest).foldl Gate.deepen m) g'.inputs = m.deepest g'.inputs :=
        Depths.deepest_congr fun t ht => get?_deepen_other m fun ht' => hk t ht' (hr.1 ht)
      rw [hin, List.foldl_cons, get?_deepen_other _ (hout s hs), g'.get?_deepen_output m hs]
    · refine ih (g.deepen m) hr.2 hrest (fun s hs => ?_) g' hg'
      simp only [List.mem_append, not_or]
      exact ⟨hk s (List.mem_append_right _ hs), fun hs' => hout s hs' hs⟩

theorem Defect.mem_ofGates {index : Nat} {set : SignalSet} {gates : List Gate} {e : Defect}
    (h : e ∈ ofGates index set gates) : (∃ i s, e = unknownInput i s) ∨ ∃ i s, e = drivenTwice i s := by
  induction gates generalizing index set with
  | nil => cases h
  | cons g rest ih =>
    rw [ofGates, List.mem_append, List.mem_append, List.mem_map, List.mem_map] at h
    rcases h with (⟨s, -, rfl⟩ | ⟨s, -, rfl⟩) | h
    · exact .inl ⟨index, s, rfl⟩
    · exact .inr ⟨index, s, rfl⟩
    · exact ih h

namespace Netlist

variable {n n' : Netlist} {constants : Constants} {inputs : List Bus}

theorem InOrder.sound (h : n.InOrder constants inputs) :
    Reads (primaries constants inputs) n.gates ∧ n.driven.Nodup ∧ ∀ s ∈ n.driven, s ∉ primaries constants inputs := by
  rw [driven, ← Defect.ofGates_eq_nil_iff (SignalSet.mem_ofList _) 0, List.eq_nil_iff_forall_not_mem]
  intro e he
  have hmem : e ∈ n.defects constants inputs := List.mem_append_left _ he
  rcases Defect.mem_ofGates he with ⟨i, s, rfl⟩ | ⟨i, s, rfl⟩
  · exact h.reads i s hmem
  · exact h.once i s hmem

theorem InOrder.holds_depths (h : n.InOrder constants inputs) : ∀ g ∈ n.gates, g.DepthHolds n.depths :=
  holds_deepen .empty h.sound.1 h.sound.2.1 h.sound.2.2

theorem depths_undriven {s : Signal} (h : s ∉ n.driven) : n.depths.get? s = none := by
  rw [depths, get?_deepen_other _ h, SignalMap.get?_empty]

/-! ## Paths and depths -/

theorem pathTo_append_singleton {s : Signal} {path : List Gate} {g : Gate} :
    n.PathTo s (path ++ [g]) ↔
      g ∈ n.gates ∧ s ∈ g.outputs ∧ (path = [] ∨ ∃ t ∈ g.inputs, n.PathTo t path) := by
  constructor
  · rintro ⟨hgates, hlinked, g', hlast, hs⟩
    rw [List.getLast?_concat] at hlast
    cases hlast
    rw [List.append_subset] at hgates
    obtain ⟨hpath, -, hlink⟩ := List.isChain_append.1 hlinked
    refine ⟨hgates.2 (by simp), hs, ?_⟩
    cases hbefore : path.getLast? with
    | none => exact .inl (List.getLast?_eq_none_iff.1 hbefore)
    | some g' =>
      obtain ⟨t, hout, hin⟩ := hlink g' hbefore g rfl
      exact .inr ⟨t, hin, hgates.1, hpath, g', hbefore, hout⟩
  · rintro ⟨hg, hs, hpath⟩
    have hends : ∃ g', (path ++ [g]).getLast? = some g' ∧ s ∈ g'.outputs := ⟨g, List.getLast?_concat, hs⟩
    rcases hpath with rfl | ⟨t, hin, hgates, hlinked, g', hlast, hout⟩
    · exact ⟨by simpa using hg, .singleton g, hends⟩
    · refine ⟨List.append_subset.2 ⟨hgates, by simpa using hg⟩, ?_, hends⟩
      refine List.isChain_append.2 ⟨hlinked, .singleton g, fun x hx y hy => ?_⟩
      cases hlast.symm.trans hx
      cases hy
      exact ⟨t, hout, hin⟩

/-- A path is no longer than the depth of its end. -/
theorem PathTo.length_le {m : Depths} (hm : ∀ g ∈ n.gates, g.DepthHolds m) {s : Signal} {path : List Gate}
    (h : n.PathTo s path) : ∃ k, m.get? s = some k ∧ path.length ≤ k := by
  induction path using List.reverseRecOn generalizing s with
  | nil =>
    obtain ⟨g, hg, -⟩ := h.ends
    cases hg
  | append_singleton path g ih =>
    obtain ⟨hg, hs, hpath⟩ := pathTo_append_singleton.1 h
    refine ⟨_, hm g hg s hs, ?_⟩
    rw [List.length_append, List.length_singleton]
    rcases hpath with rfl | ⟨t, ht, hpath⟩
    · simp
    · obtain ⟨k, hk, hle⟩ := ih hpath
      have hdeep : m.of t ≤ m.deepest g.inputs := Depths.le_deepest ht
      rw [Depths.of_eq hk] at hdeep
      omega

theorem driver_of_depth {m : Depths} (hm : ∀ g ∈ n.gates, g.DepthHolds m) (hd : ∀ s ∉ n.driven, m.get? s = none)
    {s : Signal} {k : Nat} (h : m.get? s = some k) :
    ∃ g ∈ n.gates, s ∈ g.outputs ∧ k = 1 + m.deepest g.inputs := by
  by_cases hs : s ∈ n.driven
  · obtain ⟨g, hg, hout⟩ := List.mem_flatMap.1 hs
    exact ⟨g, hg, hout, Option.some.inj (h.symm.trans (hm g hg s hout))⟩
  · rw [hd s hs] at h
    cases h

/-- A depth is the length of some path: one to a deepest input, and on through the gate. -/
theorem exists_path {m : Depths} (hm : ∀ g ∈ n.gates, g.DepthHolds m) (hd : ∀ s ∉ n.driven, m.get? s = none)
    {s : Signal} {k : Nat} (h : m.get? s = some k) : ∃ path, n.PathTo s path ∧ path.length = k := by
  -- The deepest input is one less deep than the output, so the induction is on the depth.
  induction k generalizing s with
  | zero =>
    obtain ⟨g, -, -, hk⟩ := driver_of_depth hm hd h
    omega
  | succ k ih =>
    obtain ⟨g, hg, hs, hk⟩ := driver_of_depth hm hd h
    rcases Nat.eq_zero_or_pos k with rfl | hpos
    · exact ⟨[] ++ [g], pathTo_append_singleton.2 ⟨hg, hs, .inl rfl⟩, rfl⟩
    · obtain ⟨t, ht, hget⟩ := Depths.exists_deepest (m := m) (l := g.inputs) (by omega)
      rw [show m.deepest g.inputs = k by omega] at hget
      obtain ⟨path, hpath, hlen⟩ := ih hget
      exact ⟨path ++ [g], pathTo_append_singleton.2 ⟨hg, hs, .inr ⟨t, ht, hpath⟩⟩, by simp [hlen]⟩

theorem get?_eq_some_iff_longestTo {m : Depths} (hm : ∀ g ∈ n.gates, g.DepthHolds m)
    (hd : ∀ s ∉ n.driven, m.get? s = none) {s : Signal} {k : Nat} : m.get? s = some k ↔ n.LongestTo s k := by
  constructor
  · intro h
    refine ⟨exists_path hm hd h, ?_⟩
    rintro _ ⟨path, hpath, rfl⟩
    obtain ⟨k', hk', hle⟩ := hpath.length_le hm
    rw [h] at hk'
    cases hk'
    exact hle
  · rintro ⟨⟨path, hpath, hlen⟩, hmax⟩
    obtain ⟨k', hk', hle⟩ := hpath.length_le hm
    have hge : k' ≤ k := hmax (exists_path hm hd hk')
    rw [hk', show k' = k by omega]

theorem PathTo.of_perm (hp : n'.gates.Perm n.gates) {s : Signal} {path : List Gate} (h : n.PathTo s path) :
    n'.PathTo s path :=
  ⟨fun _ hg => hp.mem_iff.2 (h.gates hg), h.linked, h.ends⟩

theorem longestTo_perm (hp : n'.gates.Perm n.gates) {s : Signal} {k : Nat} :
    n'.LongestTo s k ↔ n.LongestTo s k := by
  have hpath (path : List Gate) : n'.PathTo s path ↔ n.PathTo s path :=
    ⟨fun h => h.of_perm hp.symm, fun h => h.of_perm hp⟩
  simp only [LongestTo, hpath]

namespace InOrder

variable (h : n.InOrder constants inputs)

include h

theorem get?_depths {s : Signal} {k : Nat} : n.depths.get? s = some k ↔ n.LongestTo s k :=
  get?_eq_some_iff_longestTo h.holds_depths fun _ => depths_undriven

theorem isSome_depths (s : Signal) : (n.depths.get? s).isSome ↔ s ∈ n.driven := by
  by_cases hs : s ∈ n.driven
  · obtain ⟨g, hg, hout⟩ := List.mem_flatMap.1 hs
    simp [h.holds_depths g hg s hout, hs]
  · simp [depths_undriven hs, hs]

theorem deepestPath_isGreatest :
    IsGreatest {k | k = 0 ∨ ∃ s ∈ n.resultBits, n.LongestTo s k} n.summary.deepestPath := by
  constructor
  · show n.depths.deepest n.resultBits = 0 ∨ _
    rcases Nat.eq_zero_or_pos (n.depths.deepest n.resultBits) with hzero | hpos
    · exact .inl hzero
    · obtain ⟨s, hs, hget⟩ := Depths.exists_deepest hpos
      exact .inr ⟨s, hs, h.get?_depths.1 hget⟩
  · rintro k (rfl | ⟨s, hs, hk⟩)
    · exact Nat.zero_le _
    · rw [← Depths.of_eq (h.get?_depths.2 hk)]
      exact Depths.le_deepest hs

theorem depths_perm {constants' : Constants} {inputs' : List Bus} (h' : n'.InOrder constants' inputs')
    (hp : n'.gates.Perm n.gates) (s : Signal) : n'.depths.get? s = n.depths.get? s := by
  apply Option.ext
  intro k
  rw [h'.get?_depths, h.get?_depths, longestTo_perm hp]

end InOrder

theorem summary_perm (hp : n'.gates.Perm n.gates) (hbits : n'.resultBits = n.resultBits)
    (hdepths : ∀ s, n'.depths.get? s = n.depths.get? s) : n'.summary = n.summary := by
  have hcount (kind : GateKind) : n'.count kind = n.count kind := hp.countP_eq _
  have hdeepest : n'.depths.deepest n.resultBits = n.depths.deepest n.resultBits :=
    Depths.deepest_congr fun s _ => hdepths s
  simp only [summary, hcount, hp.length_eq, hbits, hdeepest]

end Netlist

/-- Depths are lengths of longest paths. Let the gates be in order for some primaries: each reads what is
there before it, and no signal is driven twice. Then the driven signals have a depth and no others, and it
is the number of gates on a longest path that ends at a driver of the signal. The deepest path of the
summary is the greatest depth of a result bit, where a bit that is not driven counts 0. Any other order of
the gates, in order for any primaries, has the same depths and the same summary. -/
theorem depths_longest (n : Netlist) (constants : Constants) (inputs : List Bus) (h : n.InOrder constants inputs) :
    (∀ s, (n.depths.get? s).isSome ↔ s ∈ n.driven) ∧
    (∀ s k, n.depths.get? s = some k ↔ n.LongestTo s k) ∧
    IsGreatest {k | k = 0 ∨ ∃ s ∈ n.resultBits, n.LongestTo s k} n.summary.deepestPath ∧
    ∀ (n' : Netlist) (constants' : Constants) (inputs' : List Bus), n'.gates.Perm n.gates →
      n'.resultBits = n.resultBits → n'.InOrder constants' inputs' →
      (∀ s, n'.depths.get? s = n.depths.get? s) ∧ n'.summary = n.summary := by
  refine ⟨h.isSome_depths, fun s k => h.get?_depths, h.deepestPath_isGreatest, ?_⟩
  intro n' constants' inputs' hp hbits h'
  have hdepths := h.depths_perm h' hp
  exact ⟨hdepths, Netlist.summary_perm hp hbits hdepths⟩

/-- Two inverters of which only one is on the longest path, in two orders. One result bit is an operand bit,
and another has no driver at all. -/
theorem depths_longest_two_orders :
    let constants : Constants := ⟨⟨0⟩, ⟨1⟩⟩
    let a : Bus := ⟨[⟨2⟩, ⟨3⟩], false⟩
    let n : Netlist :=
      ⟨[.not ⟨2⟩ ⟨4⟩, .not ⟨3⟩ ⟨5⟩, .halfAdder ⟨4⟩ ⟨3⟩ ⟨6⟩ ⟨7⟩, .or2 ⟨5⟩ ⟨7⟩ ⟨8⟩], [⟨6⟩, ⟨8⟩, ⟨2⟩, ⟨9⟩]⟩
    let n' : Netlist :=
      ⟨[.not ⟨2⟩ ⟨4⟩, .halfAdder ⟨4⟩ ⟨3⟩ ⟨6⟩ ⟨7⟩, .not ⟨3⟩ ⟨5⟩, .or2 ⟨5⟩ ⟨7⟩ ⟨8⟩], [⟨6⟩, ⟨8⟩, ⟨2⟩, ⟨9⟩]⟩
    n.InOrder constants [a] ∧ n'.InOrder constants [a] ∧ n.LongestTo ⟨5⟩ 1 ∧ n.LongestTo ⟨8⟩ 3 ∧
      IsGreatest {k | k = 0 ∨ ∃ s ∈ n.resultBits, n.LongestTo s k} 3 ∧ n'.summary = n.summary := by
  intro constants a n n'
  have hdefects : n.defects constants [a] = [.unknownResult ⟨9⟩] := by decide
  have hdefects' : n'.defects constants [a] = [.unknownResult ⟨9⟩] := by decide
  have h : n.InOrder constants [a] := ⟨by simp [hdefects], by simp [hdefects]⟩
  have h' : n'.InOrder constants [a] := ⟨by simp [hdefects'], by simp [hdefects']⟩
  obtain ⟨-, hlongest, hdeepest, horder⟩ := depths_longest n constants [a] h
  exact ⟨h, h', (hlongest ⟨5⟩ 1).1 (by decide), (hlongest ⟨8⟩ 3).1 (by decide), hdeepest,
    (horder n' constants [a] (by decide) rfl h').2⟩

end RippleCarry
