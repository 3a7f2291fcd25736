import RippleCarry.Proofs.Commands
/-!
# Sessions

A session carries out commands in turn on one workbench (`Workbench.getElem?_session`). A desk can follow it:
`Desk.Shows` says what the two have in common, and `Mirror.run_shows` that every session is a run of moves. If no
draft is finished on the way and the constants stay, the moves are a straight-line program (`Desk.Records.run`).
So what holds of desks and of programs holds of sessions.

`session_clean`: as long as the ids do not come around, a legal session makes clean netlists. `session_exact`: on
one draft, it computes the integers that its calls stand for.
-/

namespace RippleCarry

/-! ## Descriptors as calls -/

theorem Operation.ripple_ok_iff {op : Operation} {constants : Constants} {width : Nat} {r : Ripple} :
    op.ripple constants width = .ok r ↔ ∃ c, op.call? constants width = some c ∧ c.ripple constants = .ok r := by
  cases op with
  | add a b => simp [call?, ripple, Call.ripple]
  | subtract a b => simp [call?, ripple, Call.ripple]
  | increment a literal =>
    cases hs : incrementSeed constants literal with
    | error e =>
      -- Without a seed there is no ripple either, whatever the width.
      cases width <;> simp [call?, ripple, hs, Except.toOption, Ripple.requireWidth, bind, Except.bind]
    | ok seed =>
      have hripple : ripple (.increment a literal) constants width = Ripple.ofIncrement constants a seed width := by
        cases width <;> simp [ripple, hs, Ripple.ofIncrement, Ripple.requireWidth, bind, Except.bind]
      simp [call?, hs, hripple, Except.toOption, Call.ripple]

namespace Descriptor

variable {constants : Constants} {d : Descriptor}

theorem call?_of_ripple {r : Ripple} (h : d.op.ripple constants d.resultWidth = .ok r) :
    ∃ c, d.call? constants = some c ∧ c.ripple constants = .ok r := by
  obtain ⟨c, hc, hr⟩ := Operation.ripple_ok_iff.1 h
  refine ⟨c, ?_, hr⟩
  rw [call?, hc, Option.filter_some, if_pos (by simpa using (Call.exists_ripple_iff constants).1 ⟨r, hr⟩)]

theorem call?_of_error {e : SynthesisError} (h : d.op.ripple constants d.resultWidth = .error e) :
    d.call? constants = none := by
  cases hc : d.op.call? constants d.resultWidth with
  | none => rw [call?, hc, Option.filter_none]
  | some c =>
    have hunfit : ¬ c.Fits := by
      intro hf
      obtain ⟨r, hr⟩ := (Call.exists_ripple_iff constants).2 hf
      rw [Operation.ripple_ok_iff.2 ⟨c, hc, hr⟩] at h
      cases h
    rw [call?, hc, Option.filter_some, if_neg (by simpa using hunfit)]

end Descriptor

namespace Desk

/-! ## Batches on a desk -/

/-- A draft with the gates of a netlist, which returned its result. -/
def draftOf (n : Netlist) : OpenDraft := ⟨n.gates, n.resultBits⟩

/-- A netlist of its own is a new draft with one call on it. -/
theorem run_synthesis {k : Desk} {constants : Constants} {d : Descriptor} {n : Netlist} {after : Allocator}
    (h : (d.synthesize constants).run k.allocator = (.ok n, after)) :
    ∃ c, d.call? constants = some c ∧
      k.run [.openDraft, .request k.drafts.length (.call constants c)] =
        { k with allocator := after, drafts := k.drafts ++ [draftOf n] } := by
  obtain ⟨r, hr, rfl, rfl⟩ := Descriptor.synthesize_ok h
  obtain ⟨c, hc, hcr⟩ := Descriptor.call?_of_ripple hr
  refine ⟨c, hc, ?_⟩
  have hnew : (k.step .openDraft).drafts[k.drafts.length]? = some ⟨[], []⟩ := List.getElem?_concat_length
  have hplace : (Request.call constants c).place.run ⟨(k.step .openDraft).allocator, []⟩ =
      (.ok (r.emit k.allocator).value, ⟨(r.emit k.allocator).allocator, [] ++ (r.emit k.allocator).gates⟩) := by
    rw [Request.place, Call.place_eq, hcr]
    rfl
  rw [run, List.foldl_cons, List.foldl_cons, List.foldl_nil, step_request hnew, hplace]
  simp [step, draftOf, Except.toOption]

theorem run_batch {k : Desk} {constants : Constants} {ds : List Descriptor} {netlists : List Netlist}
    (h : Synthesizes constants k.allocator ds netlists) :
    k.run (batchMoves constants k.drafts.length ds) =
      { k with
        allocator := k.allocator.skip (drivenCount netlists)
        drafts := k.drafts ++ netlists.map draftOf } := by
  obtain ⟨earlier, later, rfl, hmade, hstop⟩ := h
  -- Each netlist takes the desk to one with one more draft, from which the rest of the batch goes on.
  induction netlists generalizing k earlier with
  | nil =>
    obtain rfl := List.length_eq_zero_iff.1 hmade.1.symm
    have hnone : batchMoves constants k.drafts.length later = [] := by
      cases later with
      | nil => rfl
      | cons d later =>
        obtain ⟨e, he⟩ := hstop d rfl
        rw [batchMoves, Descriptor.call?_of_error he]
    simp [hnone, run, drivenCount]
  | cons n netlists ih =>
    cases earlier with
    | nil => cases hmade.1
    | cons d earlier =>
      obtain ⟨hfirst, hrest⟩ := oneByOne_cons.1 hmade
      obtain ⟨c, hc, hrun⟩ := run_synthesis hfirst
      let k' : Desk := { k with allocator := k.allocator.skip n.driven.length, drafts := k.drafts ++ [draftOf n] }
      have hmoves : batchMoves constants k.drafts.length (d :: earlier ++ later) =
          [.openDraft, .request k.drafts.length (.call constants c)] ++
            batchMoves constants k'.drafts.length (earlier ++ later) := by
        rw [List.cons_append, batchMoves, hc, List.length_append]
        rfl
      have hlater : k'.run (batchMoves constants k'.drafts.length (earlier ++ later)) = _ := ih earlier hrest
      rw [hmoves, run_append, hrun, hlater]
      simp [k', drivenCount_cons, Allocator.skip_skip]

/-! ## A desk that follows a workbench -/

/-- The gates are those of drafts other than the current one, one draft after the other. -/
def Beside (drafts : List OpenDraft) (current : Nat) (gates : List Gate) : Prop :=
  ∃ ds : List OpenDraft, gates = ds.flatMap OpenDraft.gates ∧ ∀ d ∈ ds, ∃ i, i ≠ current ∧ drafts[i]? = some d

/-- The desk shows the workbench: the allocator is the same, the draft numbered `current` is the one on the
workbench, and every netlist consists of drafts beside it. -/
structure Shows (k : Desk) (current : Nat) (b : Workbench) : Prop where
  allocator : k.allocator = b.draft.allocator
  draft : ∃ d, k.drafts[current]? = some d ∧ d.gates = b.draft.gates
  netlists : ∀ n ∈ b.netlists, Beside k.drafts current n.gates

variable {k : Desk} {drafts drafts' : List OpenDraft} {current next i : Nat} {gates : List Gate} {b : Workbench}
  {d : OpenDraft}

theorem beside_of (hd : drafts[i]? = some d) (hi : i ≠ current) : Beside drafts current d.gates :=
  ⟨[d], by simp, by simpa using ⟨i, hi, hd⟩⟩

theorem Beside.mono (h : Beside drafts current gates)
    (hk : ∀ i d, i ≠ current → drafts[i]? = some d → i ≠ next ∧ drafts'[i]? = some d) : Beside drafts' next gates := by
  obtain ⟨ds, hgates, hds⟩ := h
  refine ⟨ds, hgates, fun d hd => ?_⟩
  obtain ⟨i, hi, hget⟩ := hds d hd
  exact ⟨i, hk i d hi hget⟩

theorem beside_merge {parts : List Netlist} (h : ∀ n ∈ parts, Beside drafts current n.gates) :
    Beside drafts current (parts.flatMap Netlist.gates) := by
  induction parts with
  | nil => exact ⟨[], rfl, by simp⟩
  | cons n rest ih =>
    obtain ⟨ds, hn, hds⟩ := h n List.mem_cons_self
    obtain ⟨es, hrest, hes⟩ := ih fun m hm => h m (List.mem_cons_of_mem _ hm)
    refine ⟨ds ++ es, by rw [List.flatMap_cons, hn, hrest, List.flatMap_append], fun d hd => ?_⟩
    exact (List.mem_append.1 hd).elim (hds d) (hes d)

/-- Drafts that come after the others leave these where they are. -/
theorem getElem?_more (hd : drafts[i]? = some d) (more : List OpenDraft) :
    i < drafts.length ∧ (drafts ++ more)[i]? = some d := by
  have hlt := (List.getElem?_eq_some_iff.1 hd).1
  exact ⟨hlt, by rw [List.getElem?_append_left hlt, hd]⟩

theorem Shows.current_lt (hs : k.Shows current b) : current < k.drafts.length := by
  obtain ⟨d, hd, -⟩ := hs.draft
  exact (List.getElem?_eq_some_iff.1 hd).1

theorem Shows.request (hs : k.Shows current b) (r : Request) :
    (k.step (.request current r)).Shows current { b with draft := (r.place.run b.draft).2 } := by
  obtain ⟨d, hd, hg⟩ := hs.draft
  have hdraft : (⟨k.allocator, d.gates⟩ : Draft) = b.draft := by rw [hs.allocator, hg]
  rw [step_request hd, hdraft]
  refine ⟨rfl, ⟨_, List.getElem?_set_self hs.current_lt, rfl⟩, fun n hn => ?_⟩
  exact (hs.netlists n hn).mono fun i d hi hd => ⟨hi, by rw [List.getElem?_set_ne hi.symm, hd]⟩

/-- A finished draft stands beside the next one. -/
theorem Shows.close (hs : k.Shows current b) (bits : List Signal) :
    (k.step .openDraft).Shows k.drafts.length
      { b with
        draft := (b.draft.finish bits).2
        netlists := b.netlists ++ [(b.draft.finish bits).1] } := by
  obtain ⟨d, hd, hg⟩ := hs.draft
  have hkeep : ∀ i d, k.drafts[i]? = some d → i ≠ k.drafts.length ∧ (k.step .openDraft).drafts[i]? = some d := by
    intro i d hd
    obtain ⟨hlt, hget⟩ := getElem?_more hd [⟨[], []⟩]
    exact ⟨Nat.ne_of_lt hlt, hget⟩
  refine ⟨hs.allocator, ⟨_, List.getElem?_concat_length, rfl⟩, fun n hn => ?_⟩
  rcases List.mem_append.1 hn with hn | hn
  · exact (hs.netlists n hn).mono fun i d _ hd => hkeep i d hd
  · obtain ⟨hne, hget⟩ := hkeep current d hd
    have hbeside := beside_of hget hne
    rw [hg] at hbeside
    rw [List.mem_singleton.1 hn]
    exact hbeside

/-- Netlists made without the draft are new drafts. -/
theorem Shows.batch (hs : k.Shows current b) {ds : List Descriptor} {netlists : List Netlist}
    (made : Synthesizes b.constants b.draft.allocator ds netlists) :
    (k.run (batchMoves b.constants k.drafts.length ds)).Shows current
      { b with
        draft := ⟨b.draft.allocator.skip (drivenCount netlists), b.draft.gates⟩
        netlists := b.netlists ++ netlists } := by
  rw [← hs.allocator] at made
  rw [run_batch made]
  obtain ⟨d, hd, hg⟩ := hs.draft
  refine ⟨by rw [hs.allocator], ⟨d, (getElem?_more hd _).2, hg⟩, fun n hn => ?_⟩
  rcases List.mem_append.1 hn with hn | hn
  · exact (hs.netlists n hn).mono fun i d hi hd => ⟨hi, (getElem?_more hd _).2⟩
  · obtain ⟨j, hj⟩ := List.mem_iff_getElem?.1 hn
    have hnew : (k.drafts ++ netlists.map draftOf)[k.drafts.length + j]? = some (draftOf n) := by
      rw [List.getElem?_append_right (Nat.le_add_right _ _), Nat.add_sub_cancel_left, List.getElem?_map, hj]
      rfl
    have hlt := hs.current_lt
    refine beside_of hnew ?_
    omega

end Desk

/-- What a command does to the workbench, its moves do to the desk that shows it. -/
theorem Workbench.Effect.shows {b b' : Workbench} {k : Desk} {current next : Nat} {moves : List Move}
    {answer : Except WorkbenchError Reply} (h : Effect b current k.drafts.length moves next answer b')
    (hs : k.Shows current b) : (k.run moves).Shows next b' := by
  cases h with
  | looks => exact hs
  | notes => exact ⟨hs.allocator, hs.draft, hs.netlists⟩
  | merges reply parts there =>
    refine ⟨hs.allocator, hs.draft, fun n hn => ?_⟩
    rcases List.mem_append.1 hn with hn | hn
    · exact hs.netlists n hn
    · rw [List.mem_singleton.1 hn]
      exact Desk.beside_merge fun n hn => hs.netlists n (there hn)
  | takes reply m step same constants buses more =>
    have hrun : k.run [m] = k.take step := same k
    rw [hrun]
    exact ⟨by rw [Desk.take, hs.allocator], hs.draft, hs.netlists⟩
  | requests answer r failed => exact hs.request r
  | closes reply bits => exact hs.close bits
  | synthesizes reply ds netlists made => exact hs.batch ⟨ds, [], (List.append_nil ds).symm, made, by simp⟩
  | stops e ds netlists made =>
    obtain ⟨hallocator, hdraft, hnetlists⟩ := hs.batch made
    exact ⟨hallocator, hdraft, fun n hn => hnetlists n (List.mem_append_left _ hn)⟩

/-! ## Runs -/

namespace Workbench

/-- The workbench after commands in turn. -/
def afterAll (b : Workbench) (commands : List Command) : Workbench := commands.foldl after b

/-- Each command of a session is carried out on the workbench that those before it leave. -/
theorem getElem?_session (b : Workbench) (commands : List Command) (i : Nat) :
    (b.session commands)[i]? = commands[i]?.map fun c => (step c).run (b.afterAll (commands.take i)) := by
  induction commands generalizing b i with
  | nil => rfl
  | cons c rest ih =>
    cases i with
    | zero => rfl
    | succ i => exact ih (b.after c) i

theorem afterAll_grows (b : Workbench) (commands : List Command) : b.Grows (b.afterAll commands) := by
  induction commands generalizing b with
  | nil => exact b.grows_refl
  | cons c rest ih => exact (b.after_grows c).trans (ih (b.after c))

/-- A workbench whose constants were minted before anything else. -/
def ready (alloc : Allocator) : Workbench := (start alloc.next).after .freshConstants

end Workbench

/-- A desk that follows a workbench, and the number of the draft that is on the workbench. -/
structure Mirror where
  desk : Desk
  current : Nat

namespace Mirror

def start (alloc : Allocator) : Mirror := ⟨(Desk.start alloc).step .openDraft, 0⟩

def moves (m : Mirror) (b : Workbench) (c : Command) : List Move := c.moves b m.current m.desk.drafts.length

def step (m : Mirror) (b : Workbench) (c : Command) : Mirror :=
  ⟨m.desk.run (m.moves b c), c.nextDraft m.current m.desk.drafts.length⟩

def run (m : Mirror) (b : Workbench) : List Command → Mirror
  | [] => m
  | c :: rest => (m.step b c).run (b.after c) rest

/-- The moves of a session. -/
def allMoves (m : Mirror) (b : Workbench) : List Command → List Move
  | [] => []
  | c :: rest => m.moves b c ++ (m.step b c).allMoves (b.after c) rest

variable {alloc : Allocator} {m : Mirror} {b : Workbench} {commands : List Command}

theorem desk_run (m : Mirror) (b : Workbench) (commands : List Command) :
    (m.run b commands).desk = m.desk.run (m.allMoves b commands) := by
  induction commands generalizing m b with
  | nil => rfl
  | cons c rest ih => rw [run, ih, allMoves, Desk.run_append, step]

theorem start_shows (alloc : Allocator) : (start alloc).desk.Shows 0 (Workbench.ready alloc) :=
  ⟨rfl, ⟨_, rfl, rfl⟩, fun _ hn => by cases hn⟩

/-- Every session is a run of moves on a desk. -/
theorem run_shows (hs : m.desk.Shows m.current b) (commands : List Command) :
    (m.run b commands).desk.Shows (m.run b commands).current (b.afterAll commands) := by
  induction commands generalizing m b with
  | nil => exact hs
  | cons c rest ih => exact ih ((b.step_effect m.current m.desk.drafts.length c).shows hs)

/-- The draft stays the same one until it is finished. -/
theorem run_current (h : .openDraft ∉ m.allMoves b commands) : (m.run b commands).current = m.current := by
  induction commands generalizing m b with
  | nil => rfl
  | cons c rest ih =>
    rw [allMoves, List.mem_append, not_or] at h
    rw [run, ih h.2]
    cases c with
    | finish bits => exact absurd List.mem_cons_self h.1
    | _ => rfl

theorem start_inv (hl : Desk.Legal (start alloc).desk ((start alloc).allMoves b commands)) :
    ((start alloc).run b commands).desk.Inv alloc := by
  have hopen : (start alloc).desk.Inv alloc := Desk.Effect.opens.inv (Desk.start_inv alloc)
  rw [desk_run]
  exact Desk.run_inv hl hopen

end Mirror

/-! ## Clean sessions -/

theorem reads_drafts {known : List Signal} {ds : List OpenDraft} (h : ∀ d ∈ ds, Reads known d.gates) :
    Reads known (ds.flatMap OpenDraft.gates) := by
  induction ds with
  | nil => trivial
  | cons d rest ih =>
    refine reads_append.2 ⟨h d List.mem_cons_self, ?_⟩
    exact (ih fun e he => h e (List.mem_cons_of_mem _ he)).mono (List.subset_append_left _ _)

/-- Sessions are in single assignment. Take a session that mints its constants first, uses only signals that
are there, and hands out no more ids than there are. Whenever its draft is closed with signals that its caller
holds, the netlist is clean for the constants and the primaries; and in every netlist that the session made, the
gates read only what comes before them, and drive no constant and no primary. -/
theorem session_clean (alloc : Allocator) (commands : List Command)
    (hlegal : Desk.Legal (Mirror.start alloc).desk ((Mirror.start alloc).allMoves (.ready alloc) commands))
    (hroom : ((Mirror.start alloc).run (.ready alloc) commands).desk.count ≤ 2 ^ 64) :
    let k := ((Mirror.start alloc).run (.ready alloc) commands).desk
    let b := (Workbench.ready alloc).afterAll commands
    (∃ d ∈ k.drafts, d.gates = b.draft.gates ∧ ∀ bits ⊆ k.available d, ∀ inputs : List Bus,
      (∀ s, s ∈ inputs.flatMap Bus.bits ↔ s ∈ k.primaries) →
        (b.draft.finish bits).1.defects k.constants inputs = []) ∧
    ∀ n ∈ b.netlists, Reads k.known n.gates ∧ ∀ s ∈ n.driven, s ∉ k.known := by
  intro k b
  have hi : k.Inv alloc := Mirror.start_inv hlegal
  obtain ⟨-, ⟨d, hd, hg⟩, hnetlists⟩ := Mirror.run_shows (Mirror.start_shows alloc) commands
  have hmem := List.mem_of_getElem? hd
  refine ⟨⟨d, hmem, hg, fun bits hb inputs hinputs => ?_⟩, fun n hn => ?_⟩
  · have hclosed : (b.draft.finish bits).1 = ⟨d.gates, bits⟩ := by
      rw [hg]
      rfl
    rw [hclosed, Netlist.defects_eq_nil_iff]
    apply (hi.sound hroom hmem hb).of_mem_iff
    intro s
    simp only [Desk.known, primaries, List.mem_cons, hinputs]
  · obtain ⟨ds, hgates, hds⟩ := hnetlists n hn
    have hon : ∀ d ∈ ds, d ∈ k.drafts := by
      intro d hd
      obtain ⟨i, -, hget⟩ := hds d hd
      exact List.mem_of_getElem? hget
    refine ⟨?_, fun s hs => ?_⟩
    · rw [hgates]
      exact reads_drafts fun d hd => hi.reads d (hon d hd)
    · rw [Netlist.driven, hgates, drivenBy, List.flatMap_assoc] at hs
      obtain ⟨d, hd, hs⟩ := List.mem_flatMap.1 hs
      exact hi.driven_unknown hroom (hon d hd) s hs

/-! ## Straight-line sessions -/

/-- The instruction that a move on one draft stands for, while the constants stay the same. -/
def Move.instruction? (constants : Constants) (draft : Nat) : Move → Option Instruction
  | request i (.call used c) => if i = draft ∧ used = constants then some (.call c) else none
  | m => m.count?.map .allocate

namespace Desk

variable {constants : Constants} {i : Nat} {k : Desk} {h : History}

/-- The history of one draft on the desk. -/
structure Records (constants : Constants) (i : Nat) (k : Desk) (h : History) : Prop where
  constants : k.constants = constants
  allocator : k.allocator = h.draft.allocator
  primaries : k.primaries = h.primaries
  draft : k.drafts[i]? = some ⟨h.draft.gates, h.returned⟩

theorem Records.known (hr : Records constants i k h) : k.known = constants.zero :: constants.one :: h.primaries := by
  rw [Desk.known, hr.constants, hr.primaries]

theorem Records.take (hr : Records constants i k h) {m : Move} {count : Nat} (hm : m.count? = some count) :
    Records constants i (k.step m) (h.step constants (.allocate count)) := by
  rw [step_takes k hm, History.step_allocate]
  exact ⟨hr.constants, by rw [hr.allocator], by rw [hr.allocator, hr.primaries], hr.draft⟩

theorem Records.call (hr : Records constants i k h) (c : Call) :
    Records constants i (k.step (.request i (.call constants c))) (h.step constants (.call c)) := by
  have hlt := (List.getElem?_eq_some_iff.1 hr.draft).1
  have hdraft : (⟨k.allocator, h.draft.gates⟩ : Draft) = h.draft := by rw [hr.allocator]
  rw [step_request hr.draft, hdraft, Request.place, History.step]
  rcases (c.place constants).run h.draft with ⟨result, draft⟩
  cases result with
  | error e =>
    refine ⟨hr.constants, rfl, hr.primaries, ?_⟩
    simp [List.getElem?_set_self hlt, Except.toOption, History.returned]
  | ok bits =>
    refine ⟨hr.constants, rfl, hr.primaries, ?_⟩
    simp [List.getElem?_set_self hlt, Except.toOption, History.returned]

/-- A move on the draft is an instruction, and a legal one if the move is. -/
theorem Records.step (hr : Records constants i k h) {m : Move} {instruction : Instruction}
    (hm : m.instruction? constants i = some instruction) :
    Records constants i (k.step m) (h.step constants instruction) ∧
      (k.Allows m → instruction.Legal constants h) := by
  cases m with
  | request j r =>
    cases r with
    | call used c =>
      rw [Move.instruction?] at hm
      split at hm
      · next hsame =>
        obtain ⟨rfl, rfl⟩ := hsame
        cases hm
        refine ⟨hr.call c, fun hl s hs => ?_⟩
        have hmem := hl _ hr.draft (List.mem_cons_of_mem _ (List.mem_cons_of_mem _ hs))
        rwa [available, hr.known] at hmem
      · cases hm
    | _ => cases hm
  | openDraft => cases hm
  | _ =>
    cases hm
    exact ⟨hr.take rfl, fun _ => trivial⟩

/-- Moves on one draft are a program, and a legal one if the moves are. -/
theorem Records.run (hr : Records constants i k h) {moves : List Move}
    (hm : ∀ m ∈ moves, (m.instruction? constants i).isSome) :
    Records constants i (k.run moves) (h.run constants (moves.filterMap (Move.instruction? constants i))) ∧
      (Legal k moves → RippleCarry.Legal constants h (moves.filterMap (Move.instruction? constants i))) := by
  induction moves generalizing k h with
  | nil => exact ⟨hr, fun _ => trivial⟩
  | cons m rest ih =>
    obtain ⟨instruction, hinstruction⟩ := Option.isSome_iff_exists.1 (hm m List.mem_cons_self)
    obtain ⟨hstep, hlegal⟩ := hr.step hinstruction
    obtain ⟨hrun, hrest⟩ := ih hstep fun m hr => hm m (List.mem_cons_of_mem _ hr)
    rw [List.filterMap_cons_some hinstruction]
    exact ⟨hrun, fun hl => ⟨hlegal hl.1, hrest hl.2⟩⟩

end Desk

/-- Sessions on one draft compute. Take a session as in `session_clean` that finishes no draft and makes its
calls with the constants that it minted first, and the program of its moves. The draft of the session is that of
the program. In any valuation of the constants and the primaries the signals have values `σ` such that the draft
evaluates, closed with any of the bits returned, to their values under `σ`; and the bits of each call are the
integer that it stands for under `σ`, modulo 2 to its width. -/
theorem session_exact (alloc : Allocator) (commands : List Command)
    (hlegal : Desk.Legal (Mirror.start alloc).desk ((Mirror.start alloc).allMoves (.ready alloc) commands))
    (hroom : ((Mirror.start alloc).run (.ready alloc) commands).desk.count ≤ 2 ^ 64)
    (hone : ∀ m ∈ (Mirror.start alloc).allMoves (.ready alloc) commands,
      (m.instruction? (Workbench.ready alloc).constants 0).isSome) :
    let constants := (Workbench.ready alloc).constants
    let program := ((Mirror.start alloc).allMoves (.ready alloc) commands).filterMap (Move.instruction? constants 0)
    let h := (History.start (Workbench.ready alloc).draft.allocator).run constants program
    let draft := ((Workbench.ready alloc).afterAll commands).draft
    draft = h.draft ∧
      ∀ v : Valuation, v.Ready constants h.primaries →
        ∃ σ : Assignment,
          (∀ s ∈ constants.zero :: constants.one :: h.primaries, v.get? s = some (σ s)) ∧
          (∀ bits ⊆ h.returned, (draft.finish bits).1.eval v = .ok (bits.map σ)) ∧
          ∀ o ∈ h.outcomes, o.bits.length = o.call.width ∧
            (bitsToNat (o.bits.map σ) : Int) = o.call.value σ % 2 ^ o.call.width := by
  intro constants program h draft
  have hfirst : Desk.Records constants 0 (Mirror.start alloc).desk
      (History.start (Workbench.ready alloc).draft.allocator) := ⟨rfl, rfl, rfl, rfl⟩
  obtain ⟨hrecords, hprogram⟩ := hfirst.run hone
  have hi : h.Inv constants _ := History.run_inv (History.start_inv constants _) (hprogram hlegal)
  have hdesk := Mirror.start_inv hlegal
  have hshows := Mirror.run_shows (Mirror.start_shows alloc) commands
  rw [Mirror.run_current fun hopen => by cases hone _ hopen] at hshows
  rw [Mirror.desk_run] at hdesk hshows hroom
  obtain ⟨d, hd, hg⟩ := hshows.draft
  obtain rfl : ⟨h.draft.gates, h.returned⟩ = d := Option.some.inj (hrecords.draft.symm.trans hd)
  have hdraft : draft = h.draft := by
    show (⟨draft.allocator, draft.gates⟩ : Draft) = ⟨h.draft.allocator, h.draft.gates⟩
    rw [← hshows.allocator, ← hg, hrecords.allocator]
  refine ⟨hdraft, fun v hv => ?_⟩
  rw [hdraft]
  refine hi.exact (fun bits hb => ?_) hv
  rw [← hrecords.known]
  exact hdesk.sound hroom (List.mem_of_getElem? hd) (List.subset_append_of_subset_right _ hb)

/-- A sum is noted as a bus and subtracted from one of its operands; a bus that is not there is named on the
way. -/
example :
    let commands : List Command :=
      [.freshBus 2 true, .freshBus 1 false, .add 0 1 2, .addBus ⟨[⟨5⟩, ⟨9⟩], true⟩, .add 0 7 2, .subtract 2 0 3,
        .fresh, .increment 2 ⟨3⟩ 1]
    let moves := (Mirror.start ⟨0⟩).allMoves (.ready ⟨0⟩) commands
    Desk.Legal (Mirror.start ⟨0⟩).desk moves ∧
      ((Mirror.start ⟨0⟩).run (.ready ⟨0⟩) commands).desk.count ≤ 2 ^ 64 ∧
      ∀ m ∈ moves, (m.instruction? (Workbench.ready ⟨0⟩).constants 0).isSome := by
  decide

end RippleCarry
