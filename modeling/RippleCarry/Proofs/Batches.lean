import RippleCarry.Proofs.Merging
/-!
# Batches

A batch of descriptors is synthesized in order on one allocator, up to the first that fails. So each
netlist is the one that its descriptor would get by itself, from an allocator moved on by what the
netlists before it drive (`OneByOne`), and the netlists together drive one block of ids
(`OneByOne.driven`).

`batch_exact`: a batch succeeds exactly when each of its descriptors does, and stops at the first that
fails. If no id of the block is a primary of any of the descriptors, the netlists can be merged: the
whole is clean, and the bits of each part are the integer that its own operation stands for.
-/

namespace RippleCarry

/-! ## Work that can fail -/

section Work

variable {ε σ α β : Type} {x : ExceptT ε (StateM σ) α} {f : α → ExceptT ε (StateM σ) β} {s s' : σ}

theorem run_bind_ok {a : α} (h : x.run s = (.ok a, s')) : (x >>= f).run s = (f a).run s' := by
  show ExceptT.bindCont f (x.run s).1 (x.run s).2 = _
  rw [h]
  rfl

theorem run_bind_error {e : ε} (h : x.run s = (.error e, s')) : (x >>= f).run s = (.error e, s') := by
  show ExceptT.bindCont f (x.run s).1 (x.run s).2 = _
  rw [h]
  rfl

end Work

/-! ## One after the other -/

/-- The number of signals that the netlists drive. -/
def drivenCount (netlists : List Netlist) : Nat := (netlists.flatMap Netlist.driven).length

/-- Each netlist is that of its descriptor, from the allocator moved on by what those before it drive. -/
def OneByOne (constants : Constants) (alloc : Allocator) (ds : List Descriptor) (netlists : List Netlist) : Prop :=
  netlists.length = ds.length ∧
    ∀ i d n, ds[i]? = some d → netlists[i]? = some n →
      (d.synthesize constants).run (alloc.skip (drivenCount (netlists.take i))) =
        (.ok n, alloc.skip (drivenCount (netlists.take (i + 1))))

section Batch

variable {constants : Constants} {alloc after : Allocator} {d : Descriptor} {ds : List Descriptor} {n : Netlist}
  {netlists : List Netlist} {e : SynthesisError}

theorem drivenCount_cons (n : Netlist) (netlists : List Netlist) :
    drivenCount (n :: netlists) = n.driven.length + drivenCount netlists := by
  rw [drivenCount, List.flatMap_cons, List.length_append]
  rfl

theorem oneByOne_nil (constants : Constants) (alloc : Allocator) : OneByOne constants alloc [] [] :=
  ⟨rfl, fun _ _ _ h => by cases h⟩

theorem oneByOne_cons :
    OneByOne constants alloc (d :: ds) (n :: netlists) ↔
      (d.synthesize constants).run alloc = (.ok n, alloc.skip n.driven.length) ∧
        OneByOne constants (alloc.skip n.driven.length) ds netlists := by
  constructor
  · rintro ⟨hlen, h⟩
    refine ⟨?_, Nat.succ.inj hlen, fun i d' n' hd hn => ?_⟩
    · have h0 := h 0 d n rfl rfl
      rw [List.take_zero, List.take_succ_cons, drivenCount_cons] at h0
      simpa [drivenCount] using h0
    · have hi := h (i + 1) d' n' hd hn
      rwa [List.take_succ_cons, List.take_succ_cons, drivenCount_cons, drivenCount_cons, ← Allocator.skip_skip,
        ← Allocator.skip_skip] at hi
  · rintro ⟨hfirst, hlen, h⟩
    refine ⟨congrArg (· + 1) hlen, fun i d' n' hd hn => ?_⟩
    cases i with
    | zero =>
      cases hd
      cases hn
      simpa [drivenCount] using hfirst
    | succ i =>
      rw [List.take_succ_cons, List.take_succ_cons, drivenCount_cons, drivenCount_cons, ← Allocator.skip_skip,
        ← Allocator.skip_skip]
      exact h i d' n' hd hn

namespace Descriptor

theorem synthesize_error (h : d.op.ripple constants d.resultWidth = .error e) (alloc : Allocator) :
    (d.synthesize constants).run alloc = (.error e, alloc) := by
  rw [synthesize, h]
  rfl

/-- A netlist takes as many ids as it drives signals. -/
theorem synthesize_after (h : (d.synthesize constants).run alloc = (.ok n, after)) :
    after = alloc.skip n.driven.length := by
  obtain ⟨r, -, rfl, rfl⟩ := synthesize_ok h
  obtain ⟨hdriven, hnext⟩ := r.emit_takes alloc
  rw [Netlist.driven, hdriven, Allocator.length_block, hnext]

/-- What a batch comes to: all netlists, or the error of the first descriptor that has none. -/
theorem synthesizeAll_cases (constants : Constants) (ds : List Descriptor) (alloc : Allocator) :
    (∃ netlists, (synthesizeAll constants ds).run alloc = (.ok netlists, alloc.skip (drivenCount netlists)) ∧
      OneByOne constants alloc ds netlists) ∨
    ∃ earlier d later netlists e, ds = earlier ++ d :: later ∧
      (synthesizeAll constants ds).run alloc = (.error e, alloc.skip (drivenCount netlists)) ∧
      OneByOne constants alloc earlier netlists ∧ d.op.ripple constants d.resultWidth = .error e := by
  induction ds generalizing alloc with
  | nil => exact .inl ⟨[], by rw [drivenCount, List.flatMap_nil, List.length_nil, Allocator.skip_zero]; rfl,
      oneByOne_nil constants alloc⟩
  | cons d rest ih =>
    cases hr : d.op.ripple constants d.resultWidth with
    | error e =>
      refine .inr ⟨[], d, rest, [], e, rfl, ?_, oneByOne_nil constants alloc, hr⟩
      rw [synthesizeAll, run_bind_error (synthesize_error hr alloc), drivenCount, List.flatMap_nil, List.length_nil,
        Allocator.skip_zero]
    | ok r =>
      have hd := synthesize_eq hr alloc
      rw [synthesize_after hd] at hd
      -- The rest goes on from the allocator that this netlist leaves.
      rcases ih (alloc.skip _) with ⟨netlists, hrest, hone⟩ | ⟨earlier, d', later, netlists, e, rfl, hrest, hone, he⟩
      · refine .inl ⟨_ :: netlists, ?_, oneByOne_cons.2 ⟨hd, hone⟩⟩
        rw [synthesizeAll, run_bind_ok hd, run_bind_ok hrest, drivenCount_cons, ← Allocator.skip_skip]
        rfl
      · refine .inr ⟨d :: earlier, d', later, _ :: netlists, e, rfl, ?_, oneByOne_cons.2 ⟨hd, hone⟩, he⟩
        rw [synthesizeAll, run_bind_ok hd, run_bind_error hrest, drivenCount_cons, ← Allocator.skip_skip]

theorem exists_synthesize_iff (alloc : Allocator) :
    (∃ n after, (d.synthesize constants).run alloc = (.ok n, after)) ↔
      ∃ r, d.op.ripple constants d.resultWidth = .ok r := by
  constructor
  · rintro ⟨n, after, h⟩
    obtain ⟨r, hr, -⟩ := synthesize_ok h
    exact ⟨r, hr⟩
  · rintro ⟨r, hr⟩
    exact ⟨_, _, synthesize_eq hr alloc⟩

theorem exists_ripple_of_oneByOne (h : OneByOne constants alloc ds netlists) (hd : d ∈ ds) :
    ∃ r, d.op.ripple constants d.resultWidth = .ok r := by
  obtain ⟨i, hi⟩ := List.mem_iff_getElem?.1 hd
  obtain ⟨n, hn⟩ : ∃ n, netlists[i]? = some n := by
    have hlt := (List.getElem?_eq_some_iff.1 hi).1
    exact ⟨_, List.getElem?_eq_getElem (h.1 ▸ hlt)⟩
  exact (exists_synthesize_iff _).1 ⟨n, _, h.2 i d n hi hn⟩

theorem synthesizeAll_ok_iff (probe : Allocator) :
    (∃ netlists after, (synthesizeAll constants ds).run alloc = (.ok netlists, after)) ↔
      ∀ d ∈ ds, ∃ n after, (d.synthesize constants).run probe = (.ok n, after) := by
  simp only [exists_synthesize_iff probe]
  rcases synthesizeAll_cases constants ds alloc with
    ⟨netlists, hrun, hone⟩ | ⟨earlier, d, later, netlists, e, rfl, hrun, hone, he⟩
  · exact iff_of_true ⟨netlists, _, hrun⟩ fun d hd => exists_ripple_of_oneByOne hone hd
  · refine iff_of_false ?_ ?_
    · rintro ⟨netlists, after, hok⟩
      rw [hrun] at hok
      cases hok
    · intro hall
      obtain ⟨r, hr⟩ := hall d (by simp)
      rw [he] at hr
      cases hr

theorem synthesizeAll_ok (h : (synthesizeAll constants ds).run alloc = (.ok netlists, after)) :
    OneByOne constants alloc ds netlists ∧ after = alloc.skip (drivenCount netlists) := by
  rcases synthesizeAll_cases constants ds alloc with ⟨_, hrun, hone⟩ | ⟨_, _, _, _, _, _, hrun, _⟩ <;> rw [hrun] at h
  · cases h
    exact ⟨hone, rfl⟩
  · cases h

theorem synthesizeAll_error (h : (synthesizeAll constants ds).run alloc = (.error e, after)) :
    ∃ earlier d later netlists, ds = earlier ++ d :: later ∧ OneByOne constants alloc earlier netlists ∧
      (∀ probe, (d.synthesize constants).run probe = (.error e, probe)) ∧
      after = alloc.skip (drivenCount netlists) := by
  rcases synthesizeAll_cases constants ds alloc with
    ⟨_, hrun, _⟩ | ⟨earlier, d, later, netlists, e', hds, hrun, hone, he⟩ <;> rw [hrun] at h
  · cases h
  · cases h
    exact ⟨earlier, d, later, netlists, hds, hone, synthesize_error he, rfl⟩

end Descriptor

/-! ## The netlists of a batch together -/

/-- The operands of all descriptors of a batch. -/
def batchOperands (ds : List Descriptor) : List Bus := ds.flatMap fun d => d.op.operands

theorem operands_subset (hd : d ∈ ds) : d.op.operands.flatMap Bus.bits ⊆ (batchOperands ds).flatMap Bus.bits := by
  intro s hs
  obtain ⟨bus, hb, hs⟩ := List.mem_flatMap.1 hs
  exact List.mem_flatMap.2 ⟨bus, List.mem_flatMap.2 ⟨d, hd, hb⟩, hs⟩

theorem primaries_subset (hd : d ∈ ds) :
    primaries constants d.op.operands ⊆ primaries constants (batchOperands ds) :=
  List.cons_subset_cons _ (List.cons_subset_cons _ (operands_subset hd))

namespace OneByOne

/-- Every netlist of a batch comes from one of its descriptors. -/
theorem exists_descriptor (h : OneByOne constants alloc ds netlists) (hn : n ∈ netlists) :
    ∃ d ∈ ds, ∃ alloc after, (d.synthesize constants).run alloc = (.ok n, after) := by
  obtain ⟨i, hi⟩ := List.mem_iff_getElem?.1 hn
  have hlt := (List.getElem?_eq_some_iff.1 hi).1
  have hd : ds[i]? = some (ds.get ⟨i, h.1 ▸ hlt⟩) := List.getElem?_eq_getElem (h.1 ▸ hlt)
  exact ⟨_, List.mem_of_getElem? hd, _, _, h.2 i _ n hd hi⟩

/-- The netlists drive consecutive ids, one block after the other. -/
theorem driven (h : OneByOne constants alloc ds netlists) :
    netlists.flatMap Netlist.driven = alloc.block (drivenCount netlists) := by
  induction netlists generalizing ds alloc with
  | nil => rfl
  | cons n rest ih =>
    cases ds with
    | nil => cases h.1
    | cons d ds =>
      obtain ⟨hfirst, hrest⟩ := oneByOne_cons.1 h
      rw [List.flatMap_cons, ih hrest, drivenCount_cons, Allocator.block_append, ← Descriptor.synthesize_driven hfirst]

variable (h : OneByOne constants alloc ds netlists) (hsmall : drivenCount netlists < 2 ^ 64)
  (hfree : ∀ s ∈ alloc.block (drivenCount netlists), s ∉ primaries constants (batchOperands ds))
include h hsmall hfree

/-- With its own block of ids free of all primaries, a netlist is sound for any of the primaries that hold
those of its descriptor. -/
theorem sound (hn : n ∈ netlists) {known : List Signal} {alloc' : Allocator}
    (hrun : (d.synthesize constants).run alloc' = (.ok n, after)) (hk : primaries constants d.op.operands ⊆ known)
    (hsub : known ⊆ primaries constants (batchOperands ds)) : n.Sound known := by
  have hids : ∀ s ∈ n.driven, s ∈ alloc.block (drivenCount netlists) := by
    intro s hs
    rw [← h.driven]
    exact List.mem_flatMap.2 ⟨n, hn, hs⟩
  have honce : (netlists.flatMap Netlist.driven).Nodup := by
    rw [h.driven]
    exact alloc.block_nodup hsmall.le
  refine ⟨(Descriptor.synthesize_reads hrun).mono hk, (List.nodup_flatMap.1 honce).1 n hn, ?_, ?_⟩
  · intro s hs hm
    exact hfree s (hids s hs) (hsub hm)
  · exact List.Subset.trans (Descriptor.synthesize_results hrun) (List.subset_append_right _ _)

theorem sound_batch (hn : n ∈ netlists) : n.Sound (primaries constants (batchOperands ds)) := by
  obtain ⟨d, hd, _, _, hrun⟩ := h.exists_descriptor hn
  exact h.sound hsmall hfree hn hrun (primaries_subset hd) (List.Subset.refl _)

theorem apart : netlists.Pairwise Netlist.Apart := by
  have honce : (netlists.flatMap Netlist.driven).Nodup := by
    rw [h.driven]
    exact alloc.block_nodup hsmall.le
  refine (List.nodup_flatMap.1 honce).2.imp_of_mem ?_
  intro n m hn hm hd
  exact (h.sound_batch hsmall hfree hn).apart (h.sound_batch hsmall hfree hm) hd

theorem merged_clean : (Netlist.merge netlists).toNetlist.defects constants (batchOperands ds) = [] := by
  rw [Netlist.defects_eq_nil_iff, Netlist.sound_merged (h.apart hsmall hfree)]
  exact fun n hn => h.sound_batch hsmall hfree hn

/-- The netlist of a descriptor in the batch evaluates to the integer that its operation stands for. -/
theorem eval_part {i : Nat} (hd : ds[i]? = some d) (hn : netlists[i]? = some n) {v : Valuation}
    (hv : v.Ready constants ((batchOperands ds).flatMap Bus.bits)) :
    ∃ part, n.eval v = .ok part ∧ part.length = d.resultWidth ∧
      (bitsToNat part : Int) = d.op.value v.bit % 2 ^ d.resultWidth := by
  have hrun := h.2 i d n hd hn
  have hmem := List.mem_of_getElem? hd
  have hclean : n.defectsFor constants d = [] :=
    Netlist.defects_eq_nil_iff.2 (h.sound hsmall hfree (List.mem_of_getElem? hn) hrun (List.Subset.refl _)
      (primaries_subset hmem))
  have hv' : v.Ready constants (d.op.operands.flatMap Bus.bits) := by
    refine hv.mono ?_
    intro s hs
    exact List.mem_cons_of_mem _ (List.mem_cons_of_mem _ (operands_subset hmem hs))
  obtain ⟨r, hr, rfl, -⟩ := Descriptor.synthesize_ok hrun
  exact Descriptor.emit_exact hr _ hclean hv'

/-- Merged, the netlists evaluate together, each slice to the integer of its own operation. -/
theorem eval_merged {v : Valuation} (hv : v.Ready constants ((batchOperands ds).flatMap Bus.bits)) :
    ∃ bits, (Netlist.merge netlists).toNetlist.eval v = .ok bits ∧
      ∀ (i : Nat) (d : Descriptor), ds[i]? = some d → ∃ part, ((Netlist.merge netlists).slices bits)[i]? = some part ∧
        part.length = d.resultWidth ∧ (bitsToNat part : Int) = d.op.value v.bit % 2 ^ d.resultWidth := by
  obtain ⟨σ, -, heval⟩ := Netlist.solution_of_clean (h.merged_clean hsmall hfree) hv
  refine ⟨_, heval, ?_⟩
  intro i d hd
  have hlt := (List.getElem?_eq_some_iff.1 hd).1
  have hn : netlists[i]? = some (netlists.get ⟨i, h.1 ▸ hlt⟩) := List.getElem?_eq_getElem (h.1 ▸ hlt)
  obtain ⟨part, hpart, hexact⟩ := h.eval_part hsmall hfree hd hn hv
  refine ⟨part, ?_, hexact⟩
  have hslice := congrArg (·[i]?) (Netlist.map_eval_merged (h.apart hsmall hfree) heval)
  simp only [List.getElem?_map, hn, Option.map_some, hpart] at hslice
  obtain ⟨slice, hs, he⟩ := Option.map_eq_some_iff.1 hslice.symm
  rw [hs, Except.ok.inj he]

end OneByOne
end Batch

/-- A batch on one allocator. It succeeds exactly when each descriptor gets a netlist, from whatever
allocator; each netlist is then the one that its descriptor gets by itself, from the allocator moved on by
what the netlists before it drive, and the allocator ends behind them all. Otherwise the batch fails with
the error of its first descriptor without a netlist, and the allocator has moved on by what the netlists
before that one drive. If no id of the block handed out is a constant or an operand bit of any descriptor,
the merged netlists are clean for the operands of the whole batch. In every valuation of these they
evaluate, and the slice of each part is the integer that its own operation stands for, modulo 2 to its
width. -/
theorem batch_exact (constants : Constants) (ds : List Descriptor) (alloc : Allocator) :
    (∀ probe : Allocator,
      (∃ netlists after, (Descriptor.synthesizeAll constants ds).run alloc = (.ok netlists, after)) ↔
        ∀ d ∈ ds, ∃ n after, (d.synthesize constants).run probe = (.ok n, after)) ∧
    (∀ e after, (Descriptor.synthesizeAll constants ds).run alloc = (.error e, after) →
      ∃ earlier d later netlists, ds = earlier ++ d :: later ∧ OneByOne constants alloc earlier netlists ∧
        (∀ probe, (d.synthesize constants).run probe = (.error e, probe)) ∧
        after = alloc.skip (drivenCount netlists)) ∧
    ∀ netlists after, (Descriptor.synthesizeAll constants ds).run alloc = (.ok netlists, after) →
      OneByOne constants alloc ds netlists ∧ after = alloc.skip (drivenCount netlists) ∧
      (drivenCount netlists < 2 ^ 64 →
        (∀ s ∈ alloc.block (drivenCount netlists), s ∉ primaries constants (batchOperands ds)) →
        (Netlist.merge netlists).toNetlist.defects constants (batchOperands ds) = [] ∧
        ∀ v : Valuation, v.Ready constants ((batchOperands ds).flatMap Bus.bits) →
          ∃ bits, (Netlist.merge netlists).toNetlist.eval v = .ok bits ∧
            ∀ (i : Nat) (d : Descriptor), ds[i]? = some d → ∃ part, ((Netlist.merge netlists).slices bits)[i]? = some part ∧
              part.length = d.resultWidth ∧ (bitsToNat part : Int) = d.op.value v.bit % 2 ^ d.resultWidth) := by
  refine ⟨fun probe => Descriptor.synthesizeAll_ok_iff probe, fun e after => Descriptor.synthesizeAll_error, ?_⟩
  intro netlists after hrun
  obtain ⟨hone, hafter⟩ := Descriptor.synthesizeAll_ok hrun
  exact ⟨hone, hafter, fun hsmall hfree => ⟨hone.merged_clean hsmall hfree, fun v hv => hone.eval_merged hsmall hfree hv⟩⟩

/-- A difference and an increment on one bus at -1 and a literal at 0. The increment reads an operand of the
difference, and its literal lies before the block. With an empty bus in between, the batch stops there. -/
theorem batch_exact_shared_operand :
    let constants : Constants := ⟨⟨0⟩, ⟨1⟩⟩
    let a : Bus := ⟨[⟨2⟩, ⟨3⟩], true⟩
    let difference : Descriptor := ⟨.subtract a ⟨[⟨4⟩], false⟩, 3⟩
    let empty : Descriptor := ⟨.increment ⟨[], false⟩ none, 1⟩
    let next : Descriptor := ⟨.increment a (some ⟨[⟨4⟩], true⟩), 2⟩
    let v := (Valuation.empty.bindConstants constants).bindBits ⟨[⟨2⟩, ⟨3⟩, ⟨4⟩], false⟩ [true, true, false]
    (∃ netlists after, (Descriptor.synthesizeAll constants [difference, next]).run ⟨5⟩ = (.ok netlists, after) ∧
      (Netlist.merge netlists).toNetlist.defects constants (batchOperands [difference, next]) = [] ∧
      ∃ bits, (Netlist.merge netlists).toNetlist.eval v = .ok bits ∧
        ∃ part part', (Netlist.merge netlists).slices bits = [part, part'] ∧
          (bitsToNat part : Int) = (-1 - 0) % 2 ^ 3 ∧ (bitsToNat part' : Int) = (-1 + 0) % 2 ^ 2) ∧
    (Descriptor.synthesizeAll constants [difference, empty, next]).run ⟨5⟩ = (.error (.emptyBus 0), ⟨23⟩) := by
  intro constants a difference empty next v
  constructor
  case right =>
    have hr : difference.op.ripple constants 3 =
        .ok (.subtract ⟨1⟩ [(⟨2⟩, ⟨4⟩), (⟨3⟩, ⟨0⟩), (⟨3⟩, ⟨0⟩)]) := rfl
    have he : empty.op.ripple constants 1 = .error (.emptyBus 0) := rfl
    have hrest (alloc : Allocator) :
        (Descriptor.synthesizeAll constants [empty, next]).run alloc = (.error (.emptyBus 0), alloc) := by
      rw [Descriptor.synthesizeAll, run_bind_error (Descriptor.synthesize_error he alloc)]
    rw [Descriptor.synthesizeAll, run_bind_ok (Descriptor.synthesize_eq hr ⟨5⟩), run_bind_error (hrest _),
      (Ripple.emit_takes _ _).2]
    rfl
  obtain ⟨hok, -, hexact⟩ := batch_exact constants [difference, next] ⟨5⟩
  obtain ⟨netlists, after, hrun⟩ := (hok ⟨0⟩).2 (by
    intro d hd
    simp only [List.mem_cons, List.not_mem_nil, or_false] at hd
    rcases hd with rfl | rfl <;> exact ⟨_, _, rfl⟩)
  obtain ⟨-, -, hmerged⟩ := hexact netlists after hrun
  have hsmall : drivenCount netlists < 2 ^ 64 := by
    cases hrun
    decide
  have hfree : ∀ s ∈ (⟨5⟩ : Allocator).block (drivenCount netlists),
      s ∉ primaries constants (batchOperands [difference, next]) := by
    cases hrun
    decide
  obtain ⟨hclean, heval⟩ := hmerged hsmall hfree
  obtain ⟨bits, hbits, hparts⟩ := heval v (by decide)
  obtain ⟨part, hpart, -, hvalue⟩ := hparts 0 difference rfl
  obtain ⟨part', hpart', -, hvalue'⟩ := hparts 1 next rfl
  rw [show difference.op.value v.bit = -1 - 0 by decide] at hvalue
  rw [show next.op.value v.bit = -1 + 0 by decide] at hvalue'
  have hlen : ((Netlist.merge netlists).slices bits).length = 2 := by
    cases hrun
    rfl
  refine ⟨netlists, after, hrun, hclean, bits, hbits, part, part', ?_, hvalue, hvalue'⟩
  obtain ⟨p, q, hpq⟩ := List.length_eq_two.1 hlen
  rw [hpq] at hpart hpart' ⊢
  rw [Option.some.inj hpart, Option.some.inj hpart']

end RippleCarry
