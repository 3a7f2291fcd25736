import RippleCarry.Proofs.Layout
import RippleCarry.Proofs.Operations
import RippleCarry.Proofs.Prediction
/-!
# Collisions of ids

The gates of a ripple drive consecutive ids, and ids wrap. As long as they do not come around to the
first of them, no two gates drive the same signal (`Allocator.block_nodup`), and all that can be wrong
with the netlist of a descriptor is that some of the ids belong to its primaries.

`synthesized_defects`: the check lists these ids, in order and with the gates that drive them, and
nothing else.
-/

namespace RippleCarry

/-! ## A block of ids -/

namespace Allocator

theorem block_eq_map (alloc : Allocator) (count : Nat) :
    alloc.block count = (List.range count).map fun j => ⟨alloc.next + UInt64.ofNat j⟩ := by
  induction count generalizing alloc with
  | zero => rfl
  | succ count ih =>
    rw [block, ih, List.range_succ_eq_map, List.map_cons, List.map_map]
    congr 1
    · simp
    · refine List.map_congr_left fun j _ => ?_
      simp [UInt64.ofNat_add, UInt64.add_comm, UInt64.add_assoc]

theorem toNat_add_ofNat (next : UInt64) (j : Nat) : (next + UInt64.ofNat j).toNat = (next.toNat + j) % 2 ^ 64 := by
  rw [UInt64.toNat_add, UInt64.toNat_ofNat', Nat.add_mod_mod]

/-- The ids of a block count up from the allocator's, modulo 2 to the 64. -/
theorem block_ids (alloc : Allocator) (count : Nat) :
    (alloc.block count).map (·.id.toNat) = (List.range count).map fun j => (alloc.next.toNat + j) % 2 ^ 64 := by
  rw [block_eq_map, List.map_map]
  exact List.map_congr_left fun j _ => toNat_add_ofNat alloc.next j

theorem mem_block {alloc : Allocator} {count : Nat} {s : Signal} :
    s ∈ alloc.block count ↔ ∃ j < count, (alloc.next.toNat + j) % 2 ^ 64 = s.id.toNat := by
  simp only [block_eq_map, List.mem_map, List.mem_range]
  refine exists_congr fun j => and_congr_right fun _ => ?_
  rw [← toNat_add_ofNat, UInt64.toNat_inj]
  exact ⟨fun h => congrArg Signal.id h, fun h => congrArg Signal.mk h⟩

/-- A block that does not come around has no id twice. -/
theorem block_nodup (alloc : Allocator) {count : Nat} (h : count ≤ 2 ^ 64) : (alloc.block count).Nodup := by
  rw [block_eq_map, List.Nodup, List.pairwise_map]
  refine List.pairwise_lt_range.imp_of_mem fun hi hj hlt he => ?_
  have hid := congrArg (·.id.toNat) he
  simp only [toNat_add_ofNat] at hid
  rw [List.mem_range] at hi hj
  omega

end Allocator

/-! ## What the check lists -/

/-- The signals that the gates drive, in order, each with the index of its gate. The first gate has the
given index. -/
def drivers (index : Nat) (gates : List Gate) : List (Nat × Signal) :=
  (gates.zipIdx index).flatMap fun p => p.1.outputs.map (p.2, ·)

theorem drivers_cons (index : Nat) (g : Gate) (rest : List Gate) :
    drivers index (g :: rest) = g.outputs.map (index, ·) ++ drivers (index + 1) rest := by
  simp [drivers]

theorem map_snd_drivers (index : Nat) (gates : List Gate) : (drivers index gates).map Prod.snd = drivenBy gates := by
  induction gates generalizing index with
  | nil => rfl
  | cons g rest ih =>
    rw [drivers_cons, List.map_append, ih, List.map_map]
    simp [drivenBy, Function.comp_def]

namespace Defect

theorem unknownInputs_eq_nil_iff {gates : List Gate} {set : SignalSet} {known : List Signal}
    (hk : ∀ s, s ∈ set ↔ s ∈ known) (index : Nat) :
    unknownInputs (ofGates index set gates) = [] ↔ Reads known gates := by
  induction gates generalizing set known index with
  | nil => simp [ofGates, unknownInputs, Reads]
  | cons g rest ih =>
    have hk' := SignalSet.mem_insertAll_append hk g.outputs
    simp only [ofGates, unknownInputs_append, unknownInputs_unknownInput, unknownInputs_drivenTwice,
      List.append_nil, List.append_eq_nil_iff, List.map_eq_nil_iff, missing_eq_nil_iff, ih hk', Reads, hk]
    rfl

/-- Of distinct signals, those driven again are those known before. -/
theorem redriven_eq_filter {set : SignalSet} {driven : List Signal} (hn : driven.Nodup) :
    redriven set driven = driven.filter (· ∈ set) := by
  induction driven generalizing set with
  | nil => rfl
  | cons s rest ih =>
    obtain ⟨hs, hn⟩ := List.nodup_cons.1 hn
    rw [redriven, List.filter_cons]
    by_cases hm : s ∈ set
    · simp [hm, ih hn]
    · have hsame : rest.filter (· ∈ set.insert s) = rest.filter (· ∈ set) :=
        List.filter_congr fun t ht => by
          have hne : t ≠ s := fun he => hs (he ▸ ht)
          simp [hne]
      rw [if_neg hm, ih hn, hsame, if_neg (by simpa using hm)]

/-- Gates that read what is there and drive distinct signals have no defect but where they drive a known
signal. -/
theorem ofGates_eq_collisions {gates : List Gate} {set : SignalSet} {known : List Signal}
    (hk : ∀ s, s ∈ set ↔ s ∈ known) (hr : Reads known gates) (hn : (drivenBy gates).Nodup) (index : Nat) :
    ofGates index set gates =
      ((drivers index gates).filter (·.2 ∈ known)).map fun p => drivenTwice p.1 p.2 := by
  induction gates generalizing set known index with
  | nil => rfl
  | cons g rest ih =>
    have hk' := SignalSet.mem_insertAll_append hk g.outputs
    rw [show drivenBy (g :: rest) = g.outputs ++ drivenBy rest from rfl] at hn
    obtain ⟨hg, hrest, hd⟩ := List.nodup_append.1 hn
    have hmissing : missing set g.inputs = [] := missing_eq_nil_iff.2 fun s hs => (hk s).2 (hr.1 hs)
    -- The outputs of this gate are known from here on, but no later gate drives one of them.
    have hlater : (drivers (index + 1) rest).filter (·.2 ∈ known ++ g.outputs) =
        (drivers (index + 1) rest).filter (·.2 ∈ known) :=
      List.filter_congr fun p hp => by
        have hm : p.2 ∈ drivenBy rest := by
          rw [← map_snd_drivers (index + 1) rest]
          exact List.mem_map_of_mem hp
        have hne : p.2 ∉ g.outputs := fun ho => hd p.2 ho p.2 hm rfl
        simp [hne]
    rw [ofGates, hmissing, redriven_eq_filter hg, ih hk' hr.2 hrest, hlater, drivers_cons, List.filter_append,
      List.map_append]
    simp [List.filter_map, Function.comp_def, hk]

end Defect

namespace Netlist

variable {n : Netlist} {constants : Constants} {inputs : List Bus}

theorem unknownInputs_defects_eq_nil (hr : Reads (primaries constants inputs) n.gates) :
    Defect.unknownInputs (n.defects constants inputs) = [] := by
  rw [defects, Defect.unknownInputs_append, Defect.unknownInputs_unknownResult, List.append_nil]
  exact (Defect.unknownInputs_eq_nil_iff (SignalSet.mem_ofList _) 0).2 hr

theorem missing_results_eq_nil (ho : n.resultBits ⊆ n.driven) (set : SignalSet) :
    Defect.missing (set.insertAll n.driven) n.resultBits = [] :=
  Defect.missing_eq_nil_iff.2 fun s hs => (SignalSet.mem_insertAll n.driven set s).2 (.inl (ho hs))

theorem unknownResults_defects_eq_nil (ho : n.resultBits ⊆ n.driven) :
    Defect.unknownResults (n.defects constants inputs) = [] := by
  rw [defects, Defect.unknownResults_append, Defect.unknownResults_ofGates, missing_results_eq_nil ho]
  rfl

theorem defects_eq_collisions (hr : Reads (primaries constants inputs) n.gates) (hn : n.driven.Nodup)
    (ho : n.resultBits ⊆ n.driven) :
    n.defects constants inputs =
      ((drivers 0 n.gates).filter (·.2 ∈ primaries constants inputs)).map fun p => .drivenTwice p.1 p.2 := by
  rw [defects, missing_results_eq_nil ho, Defect.ofGates_eq_collisions (SignalSet.mem_ofList _) hr hn]
  exact List.append_nil _

theorem collisions_eq_nil_iff {known : List Signal} :
    ((drivers 0 n.gates).filter (·.2 ∈ known)).map (fun p => Defect.drivenTwice p.1 p.2) = [] ↔
      ∀ s ∈ n.driven, s ∉ known := by
  rw [driven, ← map_snd_drivers 0, List.map_eq_nil_iff, List.filter_eq_nil_iff, List.forall_mem_map]
  simp only [decide_eq_true_eq]

end Netlist

/-! ## The netlist of a descriptor -/

theorem head?_of_incrementSeed {constants : Constants} {literal : Option Bus} {seed : Signal}
    (h : incrementSeed constants literal = .ok seed) :
    literal.elim (some constants.one) (·.bits.head?) = some seed := by
  cases literal with
  | none => exact congrArg some (Except.ok.inj h)
  | some bus =>
    have hb : bus.bits ≠ [] := fun he => by simp [incrementSeed, Bus.bit, he] at h
    rw [incrementSeed_some hb] at h
    exact (List.head?_eq_some_head hb).trans (congrArg some (Except.ok.inj h))

/-- An operation reads only its operands and the constants. -/
theorem Operation.ripple_inputs {op : Operation} {constants : Constants} {width : Nat} {r : Ripple}
    (h : op.ripple constants width = .ok r) : r.inputs ⊆ primaries constants op.operands := by
  cases op with
  | add a b =>
    refine List.Subset.trans (Ripple.ofAdd_inputs h) fun s hs => ?_
    simp only [primaries, operands, first, second, Option.toList_some, List.flatMap_cons, List.flatMap_nil,
      List.append_nil, List.mem_cons] at hs ⊢
    exact hs.imp_right .inr
  | subtract a b =>
    refine List.Subset.trans (Ripple.ofSubtract_inputs h) fun s hs => ?_
    simp only [primaries, operands, first, second, Option.toList_some, List.flatMap_cons, List.flatMap_nil,
      List.append_nil, List.mem_cons] at hs ⊢
    exact or_left_comm.1 hs
  | increment a literal =>
    obtain ⟨_, _, h⟩ := ok_of_bind h
    obtain ⟨seed, hseed, h⟩ := ok_of_bind h
    refine List.Subset.trans (Ripple.ofIncrement_inputs h) fun s hs => ?_
    rw [primaries, bits_increment]
    have hm := seed_mem (head?_of_incrementSeed hseed)
    simp only [List.mem_cons, List.mem_append] at hs hm ⊢
    rcases hs with rfl | rfl | hs
    · exact .inr (hm.imp_right .inr)
    · exact .inl rfl
    · exact .inr (.inr (.inl hs))

namespace Descriptor

variable {d : Descriptor} {constants : Constants} {alloc after : Allocator} {n : Netlist}

theorem synthesize_ok (h : (d.synthesize constants).run alloc = (.ok n, after)) :
    ∃ r, d.op.ripple constants d.resultWidth = .ok r ∧ n = ⟨(r.emit alloc).gates, (r.emit alloc).value⟩ ∧
      after = (r.emit alloc).allocator := by
  cases hr : d.op.ripple constants d.resultWidth with
  | error e =>
    rw [synthesize, hr] at h
    cases h
  | ok r =>
    rw [synthesize_eq hr] at h
    cases h
    exact ⟨r, rfl, rfl, rfl⟩

theorem synthesize_reads (h : (d.synthesize constants).run alloc = (.ok n, after)) :
    Reads (primaries constants d.op.operands) n.gates := by
  obtain ⟨r, hr, rfl, -⟩ := synthesize_ok h
  exact (r.emit_reads alloc).mono (Operation.ripple_inputs hr)

theorem synthesize_results (h : (d.synthesize constants).run alloc = (.ok n, after)) : n.resultBits ⊆ n.driven := by
  obtain ⟨r, -, rfl, -⟩ := synthesize_ok h
  exact r.emit_drives alloc

theorem synthesize_driven (h : (d.synthesize constants).run alloc = (.ok n, after)) :
    n.driven = alloc.block n.driven.length := by
  obtain ⟨r, -, rfl, -⟩ := synthesize_ok h
  have hd := (r.emit_takes alloc).1
  have hlen := congrArg List.length hd
  rw [Allocator.length_block] at hlen
  rw [Netlist.driven, hlen]
  exact hd

end Descriptor

/-- What the check lists for the netlist of a descriptor. Never an unknown input or an unknown result.
While there are at most 2 to the 64 driven signals, their ids, which count up from the allocator's and
wrap, are distinct; and the check lists each id that is a primary, once, in this order and with the index
of the gate that drives it. So the netlist is clean exactly when no id of the wrapped range is a
primary. -/
theorem synthesized_defects (constants : Constants) (d : Descriptor) (alloc after : Allocator) (n : Netlist)
    (h : (d.synthesize constants).run alloc = (.ok n, after)) :
    Defect.unknownInputs (n.defectsFor constants d) = [] ∧ Defect.unknownResults (n.defectsFor constants d) = [] ∧
    (n.driven.length ≤ 2 ^ 64 →
      (drivers 0 n.gates).map (·.2.id.toNat) =
        (List.range n.driven.length).map (fun j => (alloc.next.toNat + j) % 2 ^ 64) ∧
      ((drivers 0 n.gates).map Prod.snd).Nodup ∧
      n.defectsFor constants d =
        ((drivers 0 n.gates).filter (·.2 ∈ primaries constants d.op.operands)).map
          (fun p => .drivenTwice p.1 p.2) ∧
      (n.defectsFor constants d = [] ↔
        ∀ j < n.driven.length, ∀ s ∈ primaries constants d.op.operands,
          (alloc.next.toNat + j) % 2 ^ 64 ≠ s.id.toNat)) := by
  have hreads := Descriptor.synthesize_reads h
  have hresults := Descriptor.synthesize_results h
  have hblock := Descriptor.synthesize_driven h
  have hsnd : (drivers 0 n.gates).map Prod.snd = n.driven := map_snd_drivers 0 n.gates
  refine ⟨Netlist.unknownInputs_defects_eq_nil hreads, Netlist.unknownResults_defects_eq_nil hresults, fun hk => ?_⟩
  have hnodup : n.driven.Nodup := by
    rw [hblock]
    exact alloc.block_nodup hk
  have hdefects : n.defectsFor constants d = _ := Netlist.defects_eq_collisions hreads hnodup hresults
  refine ⟨?_, hsnd ▸ hnodup, hdefects, ?_⟩
  · rw [← alloc.block_ids, ← hblock, ← hsnd, List.map_map]
    rfl
  · rw [hdefects, Netlist.collisions_eq_nil_iff, hblock, Allocator.length_block]
    simp only [Allocator.mem_block]
    constructor
    · intro hfree j hj s hs he
      exact hfree s ⟨j, hj, he⟩ hs
    · rintro hfree s ⟨j, hj, he⟩ hs
      exact hfree j hj s hs he

/-- A sum of two bits on an allocator two ids before the end. The first gate gets the last two ids, and the
others run through the constants and the operands. -/
theorem synthesized_defects_wrapped :
    let constants : Constants := ⟨⟨0⟩, ⟨1⟩⟩
    let d : Descriptor := ⟨.add ⟨[⟨2⟩, ⟨3⟩], false⟩ ⟨[⟨9⟩], true⟩, 2⟩
    ∃ n after, (d.synthesize constants).run ⟨18446744073709551614⟩ = (.ok n, after) ∧ n.driven.length ≤ 2 ^ 64 ∧
      n.defectsFor constants d =
        [.drivenTwice 1 ⟨0⟩, .drivenTwice 1 ⟨1⟩, .drivenTwice 2 ⟨2⟩, .drivenTwice 2 ⟨3⟩] := by
  intro constants d
  obtain ⟨n, after, h, -⟩ := Descriptor.synthesize_exact constants d ⟨18446744073709551614⟩ (by decide) (by decide)
  have hk : n.driven.length ≤ 2 ^ 64 := by
    cases h
    decide
  obtain ⟨-, -, hwrap⟩ := synthesized_defects constants d ⟨18446744073709551614⟩ after n h
  obtain ⟨-, -, hdefects, -⟩ := hwrap hk
  refine ⟨n, after, h, hk, hdefects.trans ?_⟩
  cases h
  decide

end RippleCarry
