import Mathlib.Data.List.Nodup
import RippleCarry.Proofs.Collisions
import RippleCarry.Proofs.StraightLine
/-!
# Drafts on one allocator

A `Desk` holds any number of drafts that take their ids from one allocator, which minted the constants
before anything else. Moves come in any order: primaries are allocated, drafts are opened, and gates,
full adders and whole operations are asked of any of them. A request may use the constants, the
primaries there are by then, and what its own draft has returned.

`Desk.Effect` says all that a legal move can do, and `Desk.run_inv` what a run of them keeps.
`drafts_single_assignment`: as long as the ids do not come around, every draft can be closed at any
moment with any of the signals that its caller holds, and makes a clean netlist; and no two drafts drive
the same signal.
-/

namespace RippleCarry

/-- One of several drafts: its gates, and the signals that its callers were handed. -/
structure OpenDraft where
  gates : List Gate
  returned : List Signal
deriving DecidableEq, Repr

structure Desk where
  allocator : Allocator
  constants : Constants
  primaries : List Signal
  drafts : List OpenDraft
deriving DecidableEq, Repr

/-- What can be asked of a draft. -/
inductive Request where
  | halfAdder (a b : Signal)
  | or2 (a b : Signal)
  | inverter (a : Signal)
  | fullAdder (a b carryIn : Signal)
  | call (constants : Constants) (c : Call)
deriving DecidableEq, Repr

inductive Move where
  | fresh
  | freshList (count : Nat)
  | freshConstants
  | freshBus (width : Nat) (signed : Bool)
  /-- Opens a draft, numbered after those there are. -/
  | openDraft
  | request (draft : Nat) (r : Request)
deriving DecidableEq, Repr

/-- The number of primaries that a move takes. -/
def Move.count? : Move → Option Nat
  | fresh => some 1
  | freshList count => some count
  | freshConstants => some 2
  | freshBus width _ => some width
  | openDraft => none
  | request _ _ => none

namespace Request

/-- Carries out the request, and hands back the signals that the caller gets. -/
def place : Request → Build (List Signal)
  | halfAdder a b => ExceptT.lift ((fun out => [out.sum, out.carry]) <$> Draft.run (Emit.halfAdder a b))
  | or2 a b => ExceptT.lift ((fun out => [out]) <$> Draft.run (Emit.or2 a b))
  | inverter a => ExceptT.lift ((fun out => [out]) <$> Draft.run (Emit.inverter a))
  | fullAdder a b carryIn =>
    ExceptT.lift ((fun out => [out.sum, out.carry]) <$> Draft.run (Emit.fullAdder a b carryIn))
  | call constants c => c.place constants

/-- The signals that the caller hands in. -/
def signals : Request → List Signal
  | halfAdder a b => [a, b]
  | or2 a b => [a, b]
  | inverter a => [a]
  | fullAdder a b carryIn => [a, b, carryIn]
  | call constants c => constants.zero :: constants.one :: c.signals

end Request

namespace Desk

/-- An empty desk, right after the constants were minted. -/
def start (alloc : Allocator) : Desk :=
  let minted := Emit.constants alloc
  ⟨minted.allocator, minted.value, [], []⟩

/-- The constants and the primaries. -/
def known (k : Desk) : List Signal := k.constants.zero :: k.constants.one :: k.primaries

/-- Every signal that the callers of a draft hold. -/
def available (k : Desk) (d : OpenDraft) : List Signal := k.known ++ d.returned

/-- Takes primaries from the allocator. -/
def take (k : Desk) (step : Emit (List Signal)) : Desk :=
  let taken := step k.allocator
  { k with allocator := taken.allocator, primaries := k.primaries ++ taken.value }

def step (k : Desk) : Move → Desk
  | .fresh => k.take ((fun s => [s]) <$> Emit.fresh)
  | .freshList count => k.take (Emit.freshList count)
  | .freshConstants => k.take ((fun c => [c.zero, c.one]) <$> Emit.constants)
  | .freshBus width signed => k.take (Bus.bits <$> Emit.bus width signed)
  | .openDraft => { k with drafts := k.drafts ++ [⟨[], []⟩] }
  | .request i r =>
    match k.drafts[i]? with
    | none => k
    | some d =>
      let (result, draft) := r.place.run ⟨k.allocator, d.gates⟩
      { k with
        allocator := draft.allocator
        drafts := k.drafts.set i ⟨draft.gates, d.returned ++ result.toOption.getD []⟩ }

def run (k : Desk) (moves : List Move) : Desk := moves.foldl step k

/-- The move uses only signals that its caller holds. -/
def Allows (k : Desk) : Move → Prop
  | .request i r => ∀ d, k.drafts[i]? = some d → r.signals ⊆ k.available d
  | _ => True

/-- Every move uses only signals that its caller holds when its turn comes. -/
def Legal : Desk → List Move → Prop
  | _, [] => True
  | k, m :: rest => k.Allows m ∧ Legal (k.step m) rest

instance (k : Desk) (i : Nat) (r : Request) : Decidable (k.Allows (.request i r)) :=
  match h : k.drafts[i]? with
  | none => .isTrue fun d hd => by rw [h] at hd; cases hd
  | some d => decidable_of_iff (∀ s ∈ r.signals, s ∈ k.available d)
      ⟨fun hs d' hd => by rw [h] at hd; cases hd; exact hs, fun hs => hs d h⟩

instance (k : Desk) : (m : Move) → Decidable (k.Allows m)
  | .request i r => inferInstanceAs (Decidable (k.Allows (.request i r)))
  | .fresh | .freshList _ | .freshConstants | .freshBus _ _ | .openDraft => .isTrue trivial

instance decidableDeskLegal : (k : Desk) → (moves : List Move) → Decidable (Legal k moves)
  | _, [] => .isTrue trivial
  | k, m :: rest =>
    have := decidableDeskLegal (k.step m) rest
    inferInstanceAs (Decidable (k.Allows m ∧ Legal (k.step m) rest))

/-- Every signal on the desk. -/
def signals (k : Desk) : List Signal := k.known ++ k.drafts.flatMap fun d => drivenBy d.gates

/-- The number of ids handed out, one per signal. -/
def count (k : Desk) : Nat := k.signals.length

end Desk

/-! ## What a request does -/

/-- The draft with new gates on it. They read the given inputs and drive the next ids, among which are
the bits handed back. -/
def Draft.Extends (d : Draft) (inputs bits : List Signal) (after : Draft) : Prop :=
  ∃ gates count, after = ⟨d.allocator.skip count, d.gates ++ gates⟩ ∧ Reads inputs gates ∧
    drivenBy gates = d.allocator.block count ∧ bits ⊆ drivenBy gates

theorem Draft.extends_of_takes {α : Type} {step : Emit α} {count : Nat} (ht : step.Takes count) (d : Draft)
    {inputs bits : List Signal} (hr : Reads inputs (step d.allocator).gates)
    (hs : bits ⊆ drivenBy (step d.allocator).gates) :
    d.Extends inputs bits ⟨(step d.allocator).allocator, d.gates ++ (step d.allocator).gates⟩ := by
  obtain ⟨hdriven, hafter⟩ := ht d.allocator
  exact ⟨_, count, by rw [hafter], hr, hdriven, hs⟩

/-- A request that fails leaves the draft as it was, and any other extends it. -/
theorem Request.place_cases (r : Request) (d : Draft) :
    (∃ e, r.place.run d = (.error e, d)) ∨
      ∃ bits after, r.place.run d = (.ok bits, after) ∧ d.Extends r.signals bits after := by
  cases r with
  | halfAdder a b =>
    refine .inr ⟨_, _, rfl, Draft.extends_of_takes (Emit.halfAdder_takes a b) d ?_ ?_⟩
    · simp [Reads, signals, Gate.inputs]
    · simp [drivenBy, Gate.outputs]
  | or2 a b =>
    refine .inr ⟨_, _, rfl, Draft.extends_of_takes (Emit.or2_takes a b) d ?_ ?_⟩
    · simp [Reads, signals, Gate.inputs]
    · simp [drivenBy, Gate.outputs]
  | inverter a =>
    refine .inr ⟨_, _, rfl, Draft.extends_of_takes (Emit.inverter_takes a) d ?_ ?_⟩
    · simp [Reads, signals, Gate.inputs]
    · simp [drivenBy, Gate.outputs]
  | fullAdder a b carryIn =>
    have hdrives := Emit.fullAdder_drives a b carryIn d.allocator
    refine .inr ⟨_, _, rfl, Draft.extends_of_takes (Emit.fullAdder_takes a b carryIn) d ?_ ?_⟩
    · exact Emit.fullAdder_reads _ (by simp [signals]) (by simp [signals]) (by simp [signals])
    · simp [hdrives]
  | call constants c =>
    rw [place, Call.place_eq]
    cases hr : c.ripple constants with
    | error e => exact .inl ⟨e, rfl⟩
    | ok ripple =>
      refine .inr ⟨_, _, rfl, Draft.extends_of_takes ripple.emit_takes d ?_ (ripple.emit_drives _)⟩
      exact (ripple.emit_reads _).mono (Call.ripple_inputs hr)

/-! ## What a move does -/

namespace Desk

/-- All that a legal move can do to a desk. -/
inductive Effect (k : Desk) : Desk → Prop
  | nothing : Effect k k
  | opens : Effect k { k with drafts := k.drafts ++ [⟨[], []⟩] }
  | takes (count : Nat) :
    Effect k { k with
      allocator := k.allocator.skip count
      primaries := k.primaries ++ k.allocator.block count }
  /-- New gates on one draft, on signals that its callers hold. -/
  | places (before : List OpenDraft) (d : OpenDraft) (later : List OpenDraft) (gates : List Gate)
    (bits : List Signal) (count : Nat) (split : k.drafts = before ++ d :: later) (reads : Reads (k.available d) gates)
    (driven : drivenBy gates = k.allocator.block count) (bits_driven : bits ⊆ drivenBy gates) :
    Effect k { k with
      allocator := k.allocator.skip count
      drafts := before ++ ⟨d.gates ++ gates, d.returned ++ bits⟩ :: later }

/-- A move that takes primaries takes the next ids, and does nothing else. -/
theorem step_takes (k : Desk) {m : Move} {count : Nat} (hm : m.count? = some count) :
    k.step m =
      { k with
        allocator := k.allocator.skip count
        primaries := k.primaries ++ k.allocator.block count } := by
  have htake {step : Emit (List Signal)}
      (h : step k.allocator = ⟨k.allocator.block count, [], k.allocator.skip count⟩) :
      k.take step =
        { k with
          allocator := k.allocator.skip count
          primaries := k.primaries ++ k.allocator.block count } := by
    rw [take, h]
  cases m with
  | fresh =>
    cases hm
    exact htake (by rw [Allocator.skip_succ, Allocator.skip_zero]; rfl)
  | freshList count =>
    cases hm
    exact htake (Emit.freshList_apply count k.allocator)
  | freshConstants =>
    cases hm
    exact htake (by rw [Allocator.skip_succ, Allocator.skip_succ, Allocator.skip_zero]; rfl)
  | freshBus width signed =>
    cases hm
    exact htake (by rw [Emit.map_apply, Emit.bus, Emit.map_apply, Emit.freshList_apply])
  | openDraft => cases hm
  | request i r => cases hm

theorem step_request {k : Desk} {i : Nat} {d : OpenDraft} (hd : k.drafts[i]? = some d) (r : Request) :
    k.step (.request i r) =
      { k with
        allocator := (r.place.run ⟨k.allocator, d.gates⟩).2.allocator
        drafts := k.drafts.set i ⟨(r.place.run ⟨k.allocator, d.gates⟩).2.gates,
          d.returned ++ (r.place.run ⟨k.allocator, d.gates⟩).1.toOption.getD []⟩ } := by
  rw [step, hd]
  rfl

theorem request_effect (k : Desk) {i : Nat} {r : Request} (hl : k.Allows (.request i r)) :
    k.Effect (k.step (.request i r)) := by
  cases hd : k.drafts[i]? with
  | none =>
    rw [step, hd]
    exact .nothing
  | some d =>
    obtain ⟨hlt, hget⟩ := List.getElem?_eq_some_iff.1 hd
    have hsplit : k.drafts = k.drafts.take i ++ d :: k.drafts.drop (i + 1) := by
      rw [← hget, List.getElem_cons_drop hlt, List.take_append_drop]
    rw [step_request hd]
    rcases r.place_cases ⟨k.allocator, d.gates⟩ with ⟨e, he⟩ | ⟨bits, after, hok, gates, count, rfl, hreads, hdriven, hbits⟩
    · have hsame : k.drafts.set i d = k.drafts := by
        rw [← hget]
        exact List.set_getElem_self hlt
      simp only [he, Except.toOption, Option.getD_none, List.append_nil, hsame]
      exact .nothing
    · simp only [hok, Except.toOption, Option.getD_some]
      rw [List.set_eq_take_append_cons_drop, if_pos hlt]
      exact .places _ d _ gates bits count hsplit (hreads.mono (hl d hd)) hdriven hbits

theorem step_effect (k : Desk) {m : Move} (hl : k.Allows m) : k.Effect (k.step m) := by
  cases m with
  | openDraft => exact .opens
  | request i r => exact k.request_effect hl
  | _ =>
    rw [k.step_takes rfl]
    exact .takes _

/-- Whatever a move does, the desk gets the next ids of its allocator and no others. -/
theorem Effect.grows {k k' : Desk} (h : k.Effect k') :
    ∃ count, k'.signals.Perm (k.signals ++ k.allocator.block count) ∧ k'.allocator = k.allocator.skip count := by
  cases h with
  | nothing => exact ⟨0, by rw [Allocator.block, List.append_nil], k.allocator.skip_zero.symm⟩
  | opens =>
    refine ⟨0, ?_, k.allocator.skip_zero.symm⟩
    simp [signals, known, drivenBy, Allocator.block]
  | takes count =>
    refine ⟨count, ?_, rfl⟩
    have hknown : ({ k with allocator := k.allocator.skip count, primaries := k.primaries ++ k.allocator.block count } :
        Desk).known = k.known ++ k.allocator.block count := rfl
    rw [signals, hknown, signals, List.append_assoc, List.append_assoc]
    exact List.perm_append_comm.append_left _
  | places before d later gates bits count hsplit hreads hdriven hbits =>
    refine ⟨count, ?_, rfl⟩
    rw [signals, signals, hsplit, List.append_assoc]
    refine List.Perm.append_left _ ?_
    simp only [List.flatMap_append, List.flatMap_cons, drivenBy_append, hdriven, List.append_assoc]
    exact (List.perm_append_comm.append_left _).append_left _

/-! ## What a run keeps -/

/-- Every draft reads what is there before, what it returned it drives, and the signals on the desk are
the ids handed out, right behind which the allocator stands. -/
structure Inv (alloc : Allocator) (k : Desk) : Prop where
  reads : ∀ d ∈ k.drafts, Reads k.known d.gates
  returned : ∀ d ∈ k.drafts, d.returned ⊆ drivenBy d.gates
  ids : k.signals.Perm (alloc.block k.count)
  next : k.allocator = alloc.skip k.count

variable {alloc : Allocator} {k k' : Desk}

theorem start_inv (alloc : Allocator) : (start alloc).Inv alloc where
  reads := by simp [start]
  returned := by simp [start]
  ids := .refl _
  next := by
    show (⟨alloc.next + 1 + 1⟩ : Allocator) = alloc.skip 2
    rw [Allocator.skip_succ, Allocator.skip_succ, Allocator.skip_zero]

theorem Effect.reads (h : k.Effect k') (hr : ∀ d ∈ k.drafts, Reads k.known d.gates)
    (hd : ∀ d ∈ k.drafts, d.returned ⊆ drivenBy d.gates) : ∀ d ∈ k'.drafts, Reads k'.known d.gates := by
  cases h with
  | nothing => exact hr
  | opens =>
    intro d hm
    rcases List.mem_append.1 hm with hm | hm
    · exact hr d hm
    · rw [List.mem_singleton.1 hm]
      trivial
  | takes count =>
    intro d hm
    exact (hr d hm).mono (List.subset_append_left k.known _)
  | places before d later gates bits count hsplit hreads hdriven hbits =>
    rw [hsplit] at hr hd
    intro e hm
    rcases List.mem_append.1 hm with hm | hm
    · exact hr e (List.mem_append_left _ hm)
    rcases List.mem_cons.1 hm with rfl | hm
    -- What the callers hold is there for the new gates to read.
    · refine reads_append.2 ⟨hr d (by simp), hreads.mono ?_⟩
      intro s hs
      rcases List.mem_append.1 hs with hs | hs
      · exact List.mem_append_left _ hs
      · exact List.mem_append_right _ (hd d (by simp) hs)
    · exact hr e (by simp [hm])

theorem Effect.returned (h : k.Effect k') (hd : ∀ d ∈ k.drafts, d.returned ⊆ drivenBy d.gates) :
    ∀ d ∈ k'.drafts, d.returned ⊆ drivenBy d.gates := by
  cases h with
  | nothing => exact hd
  | opens =>
    intro d hm
    rcases List.mem_append.1 hm with hm | hm
    · exact hd d hm
    · rw [List.mem_singleton.1 hm]
      exact List.nil_subset _
  | takes count => exact hd
  | places before d later gates bits count hsplit hreads hdriven hbits =>
    rw [hsplit] at hd
    intro e hm
    rcases List.mem_append.1 hm with hm | hm
    · exact hd e (List.mem_append_left _ hm)
    rcases List.mem_cons.1 hm with rfl | hm
    · rw [drivenBy_append]
      intro s hs
      rcases List.mem_append.1 hs with hs | hs
      · exact List.mem_append_left _ (hd d (by simp) hs)
      · exact List.mem_append_right _ (hbits hs)
    · exact hd e (by simp [hm])

theorem Effect.inv (h : k.Effect k') (hi : k.Inv alloc) : k'.Inv alloc := by
  obtain ⟨count, hperm, hnext⟩ := h.grows
  have hcount : k'.count = k.count + count := by
    rw [Desk.count, hperm.length_eq, List.length_append, Allocator.length_block]
    rfl
  refine ⟨h.reads hi.reads hi.returned, h.returned hi.returned, ?_, ?_⟩
  · rw [hcount, Allocator.block_append, ← hi.next]
    exact hperm.trans (hi.ids.append_right _)
  · rw [hnext, hi.next, Allocator.skip_skip, hcount]

theorem Effect.count_le (h : k.Effect k') : k.count ≤ k'.count := by
  obtain ⟨count, hperm, -⟩ := h.grows
  rw [Desk.count, Desk.count, hperm.length_eq, List.length_append]
  exact Nat.le_add_right _ _

theorem run_inv {moves : List Move} (hl : Legal k moves) (hi : k.Inv alloc) : (k.run moves).Inv alloc := by
  induction moves generalizing k with
  | nil => exact hi
  | cons m rest ih => exact ih hl.2 ((k.step_effect hl.1).inv hi)

theorem count_le_run {moves : List Move} (hl : Legal k moves) : k.count ≤ (k.run moves).count := by
  induction moves generalizing k with
  | nil => exact Nat.le_refl _
  | cons m rest ih => exact Nat.le_trans (k.step_effect hl.1).count_le (ih hl.2)

theorem legal_append {p q : List Move} : Legal k (p ++ q) ↔ Legal k p ∧ Legal (k.run p) q := by
  induction p generalizing k with
  | nil => simp [Legal, run]
  | cons m rest ih =>
    rw [List.cons_append, Legal, Legal, ih, and_assoc]
    rfl

theorem run_append (p q : List Move) : k.run (p ++ q) = (k.run p).run q := List.foldl_append

/-! ## Closing a draft -/

section Close

variable (hi : k.Inv alloc) (hroom : k.count ≤ 2 ^ 64)
include hi hroom

theorem Inv.signals_nodup : k.signals.Nodup := hi.ids.nodup_iff.2 (alloc.block_nodup hroom)

theorem Inv.driven_unknown {d : OpenDraft} (hd : d ∈ k.drafts) : ∀ s ∈ drivenBy d.gates, s ∉ k.known := by
  obtain ⟨-, -, hdisjoint⟩ := List.nodup_append.1 (hi.signals_nodup hroom)
  intro s hs hk
  exact hdisjoint s hk s (List.mem_flatMap.2 ⟨d, hd, hs⟩) rfl

theorem Inv.drafts_disjoint : k.drafts.Pairwise fun d e => (drivenBy d.gates).Disjoint (drivenBy e.gates) := by
  obtain ⟨-, honce, -⟩ := List.nodup_append.1 (hi.signals_nodup hroom)
  exact (List.nodup_flatMap.1 honce).2

theorem Inv.sound {d : OpenDraft} (hd : d ∈ k.drafts) {bits : List Signal} (hb : bits ⊆ k.available d) :
    Netlist.Sound k.known ⟨d.gates, bits⟩ := by
  obtain ⟨-, honce, -⟩ := List.nodup_append.1 (hi.signals_nodup hroom)
  refine ⟨hi.reads d hd, (List.nodup_flatMap.1 honce).1 d hd, hi.driven_unknown hroom hd, ?_⟩
  intro s hs
  rcases List.mem_append.1 (hb hs) with hk | hr
  · exact List.mem_append_left _ hk
  · exact List.mem_append_right _ (hi.returned d hd hr)

end Close
end Desk

/-- Only the members of the known signals count. -/
theorem Netlist.Sound.of_mem_iff {known known' : List Signal} {n : Netlist} (h : n.Sound known)
    (hm : ∀ s, s ∈ known ↔ s ∈ known') : n.Sound known' where
  reads := h.reads.mono fun s hs => (hm s).1 hs
  once := h.once
  undriven s hs hk := h.undriven s hs ((hm s).2 hk)
  results s hs := by
    rcases List.mem_append.1 (h.results hs) with hk | hd
    · exact List.mem_append_left _ ((hm s).1 hk)
    · exact List.mem_append_right _ hd

/-- Drafts on one allocator are in single assignment. Take any legal run of moves that hands out no more
ids than there are, so that none comes around, as when the allocator does not wrap; and any moment of it.
Each draft, closed then with any of the signals that its callers hold, gives a netlist that is clean for
the constants and the primaries of that moment, however these are grouped into buses. Different drafts
drive different signals, and none drives a constant or a primary. -/
theorem drafts_single_assignment (alloc : Allocator) (moves before : List Move)
    (hlegal : Desk.Legal (Desk.start alloc) moves) (hroom : ((Desk.start alloc).run moves).count ≤ 2 ^ 64)
    (hmoment : before <+: moves) :
    let k := (Desk.start alloc).run before
    (∀ d ∈ k.drafts, ∀ bits ⊆ k.available d, ∀ inputs : List Bus,
      (∀ s, s ∈ inputs.flatMap Bus.bits ↔ s ∈ k.primaries) →
        (Draft.finish ⟨k.allocator, d.gates⟩ bits).1.defects k.constants inputs = []) ∧
    k.drafts.Pairwise (fun d e => (drivenBy d.gates).Disjoint (drivenBy e.gates)) ∧
    ∀ d ∈ k.drafts, ∀ s ∈ drivenBy d.gates, s ∉ k.constants.zero :: k.constants.one :: k.primaries := by
  intro k
  obtain ⟨after, rfl⟩ := hmoment
  obtain ⟨hbefore, hafter⟩ := Desk.legal_append.1 hlegal
  have hi : k.Inv alloc := Desk.run_inv hbefore (Desk.start_inv alloc)
  have hroom' : k.count ≤ 2 ^ 64 := by
    rw [Desk.run_append] at hroom
    exact Nat.le_trans (Desk.count_le_run hafter) hroom
  refine ⟨?_, hi.drafts_disjoint hroom', fun d hd => hi.driven_unknown hroom' hd⟩
  intro d hd bits hb inputs hinputs
  apply Netlist.defects_eq_nil_iff.2
  apply (hi.sound hroom' hd hb).of_mem_iff
  intro s
  simp only [Desk.known, primaries, List.mem_cons, hinputs]

/-- Two drafts in turn. A sum on the second draft uses a primary that came after the first gates of the
first draft; a call without operand bits fails; and later constants, which are primaries like any other,
extend an increment of the first draft's carry. The moment is right before the last move. -/
theorem drafts_single_assignment_two_drafts :
    let constants : Constants := ⟨⟨7⟩, ⟨8⟩⟩
    let before : List Move :=
      [.freshBus 2 true, .openDraft, .openDraft, .request 0 (.halfAdder ⟨9⟩ ⟨10⟩), .fresh,
        .request 1 (.call constants (.add ⟨[⟨9⟩, ⟨13⟩], true⟩ ⟨[⟨7⟩], false⟩ 2)),
        .request 0 (.call constants (.subtract ⟨[], true⟩ ⟨[⟨9⟩], false⟩ 2)), .freshConstants,
        .request 0 (.call ⟨⟨21⟩, ⟨22⟩⟩ (.increment ⟨[⟨12⟩], false⟩ ⟨11⟩ 2))]
    let moves := before ++ [.request 1 (.fullAdder ⟨14⟩ ⟨8⟩ ⟨22⟩)]
    let k := (Desk.start ⟨7⟩).run before
    Desk.Legal (Desk.start ⟨7⟩) moves ∧ ((Desk.start ⟨7⟩).run moves).count ≤ 2 ^ 64 ∧
      k.primaries = [⟨9⟩, ⟨10⟩, ⟨13⟩, ⟨21⟩, ⟨22⟩] ∧
      k.drafts.map (·.returned) = [[⟨11⟩, ⟨12⟩, ⟨23⟩, ⟨25⟩], [⟨14⟩, ⟨18⟩]] ∧
      (∀ d ∈ k.drafts, (Draft.finish ⟨k.allocator, d.gates⟩ d.returned).1.defects constants
        [⟨[⟨9⟩, ⟨10⟩, ⟨13⟩], true⟩, ⟨[⟨21⟩, ⟨22⟩], false⟩] = []) ∧
      k.drafts.Pairwise fun d e => (drivenBy d.gates).Disjoint (drivenBy e.gates) := by
  intro constants before moves k
  have hlegal : Desk.Legal (Desk.start ⟨7⟩) moves := by decide
  have hroom : ((Desk.start ⟨7⟩).run moves).count ≤ 2 ^ 64 := by decide
  have hprimaries : k.primaries = [⟨9⟩, ⟨10⟩, ⟨13⟩, ⟨21⟩, ⟨22⟩] := by decide
  obtain ⟨hclean, hdisjoint, -⟩ :=
    drafts_single_assignment ⟨7⟩ moves before hlegal hroom (List.prefix_append _ _)
  refine ⟨hlegal, hroom, hprimaries, by decide, ?_, hdisjoint⟩
  intro d hd
  apply hclean d hd d.returned (List.subset_append_right _ _)
  intro s
  rw [hprimaries]
  rfl

end RippleCarry
