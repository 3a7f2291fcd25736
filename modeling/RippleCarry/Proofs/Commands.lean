import RippleCarry.Proofs.Batches
import RippleCarry.Proofs.Drafting
import RippleCarry.Workbench
/-!
# What a command does

`Workbench.Effect` sums up in eight shapes all that a command can do to a workbench, each beside the moves
that do the same to a desk; `Workbench.step_effect` puts every command into one of them. What holds of every
command is then a case analysis over the shapes. `step_failed`: a command that fails changes nothing but the
allocator. `after_grows`: what has a number keeps it.
-/

namespace RippleCarry

/-! ## The moves of a command -/

/-- The call for the gates of an operation. -/
def Operation.call? (constants : Constants) (width : Nat) : Operation → Option Call
  | add a b => some (.add a b width)
  | subtract a b => some (.subtract a b width)
  | increment a literal => (incrementSeed constants literal).toOption.map fun seed => .increment a seed width

/-- The call for the gates of a descriptor, if it gets any. -/
def Descriptor.call? (constants : Constants) (d : Descriptor) : Option Call :=
  (d.op.call? constants d.resultWidth).filter fun c => c.Fits

/-- The moves that synthesize descriptors, each on a draft of its own, up to the first that fails. The next
draft is numbered `opened`. -/
def batchMoves (constants : Constants) : Nat → List Descriptor → List Move
  | _, [] => []
  | opened, d :: rest =>
    match d.call? constants with
    | none => []
    | some c => .openDraft :: .request opened (.call constants c) :: batchMoves constants (opened + 1) rest

namespace Command

/-- The call that a command makes on the draft, if the buses that it names are there. -/
def call? (b : Workbench) : Command → Option Call
  | add i j width => do return .add (← b.buses[i]?) (← b.buses[j]?) width
  | subtract i j width => do return .subtract (← b.buses[i]?) (← b.buses[j]?) width
  | increment i seed width => do return .increment (← b.buses[i]?) seed width
  | _ => none

/-- The moves that a command stands for, on a desk with as many drafts as `opened`, of which the one
numbered `current` is on the workbench. -/
def moves (b : Workbench) (current opened : Nat) : Command → List Move
  | fresh => [.fresh]
  | freshList count => [.freshList count]
  | freshConstants => [.freshConstants]
  | freshBus width signed => [.freshBus width signed]
  | halfAdder x y => [.request current (.halfAdder x y)]
  | or2 x y => [.request current (.or2 x y)]
  | inverter x => [.request current (.inverter x)]
  | fullAdder x y carryIn => [.request current (.fullAdder x y carryIn)]
  | finish _ => [.openDraft]
  | synthesize d => batchMoves b.constants opened (b.descriptors[d]?).toList
  | synthesizeAll ds => batchMoves b.constants opened ((ds.mapM fun d => b.descriptors[d]?).getD [])
  | c => (c.call? b).toList.map fun call => .request current (.call b.constants call)

/-- The number of the draft on the workbench after a command: a finished one gives way to the next. -/
def nextDraft (current opened : Nat) : Command → Nat
  | finish _ => opened
  | _ => current

end Command

/-! ## Effects -/

/-- The netlists that a batch gets before it ends or fails. -/
def Synthesizes (constants : Constants) (alloc : Allocator) (ds : List Descriptor) (netlists : List Netlist) : Prop :=
  ∃ earlier later, ds = earlier ++ later ∧ OneByOne constants alloc earlier netlists ∧
    ∀ d ∈ later.head?, ∃ e, d.op.ripple constants d.resultWidth = .error e

namespace Workbench

/-- All that a command can do to a workbench, beside the moves that do the same to a desk. -/
inductive Effect (b : Workbench) (current opened : Nat) :
    List Move → Nat → Except WorkbenchError Reply → Workbench → Prop
  /-- An answer alone. -/
  | looks (answer : Except WorkbenchError Reply) : Effect b current opened [] current answer b
  | notes (reply : Reply) (constants : Constants) (buses : List Bus) (descriptors : List Descriptor)
    (more_buses : b.buses <+: buses) (more_descriptors : b.descriptors <+: descriptors) :
    Effect b current opened [] current (.ok reply) { b with constants, buses, descriptors }
  | merges (reply : Reply) (parts : List Netlist) (there : parts ⊆ b.netlists) :
    Effect b current opened [] current (.ok reply)
      { b with netlists := b.netlists ++ [(Netlist.merge parts).toNetlist] }
  /-- New primaries, which can become the constants or a bus. -/
  | takes (reply : Reply) (m : Move) (step : Emit (List Signal)) (same : ∀ k : Desk, k.step m = k.take step)
    (constants : Constants) (buses : List Bus) (more : b.buses <+: buses) :
    Effect b current opened [m] current (.ok reply)
      { b with draft := ⟨(step b.draft.allocator).allocator, b.draft.gates⟩, constants, buses }
  /-- Work on the draft. -/
  | requests (answer : Except WorkbenchError Reply) (r : Request)
    (failed : ∀ e, answer = .error e → ∃ e, (r.place.run b.draft).1 = .error e) :
    Effect b current opened [.request current r] current answer { b with draft := (r.place.run b.draft).2 }
  | closes (reply : Reply) (bits : List Signal) :
    Effect b current opened [.openDraft] opened (.ok reply)
      { b with
        draft := (b.draft.finish bits).2
        netlists := b.netlists ++ [(b.draft.finish bits).1] }
  | synthesizes (reply : Reply) (ds : List Descriptor) (netlists : List Netlist)
    (made : OneByOne b.constants b.draft.allocator ds netlists) :
    Effect b current opened (batchMoves b.constants opened ds) current (.ok reply)
      { b with
        draft := ⟨b.draft.allocator.skip (drivenCount netlists), b.draft.gates⟩
        netlists := b.netlists ++ netlists }
  /-- A batch that fails drops its netlists, and their ids stay used. -/
  | stops (e : WorkbenchError) (ds : List Descriptor) (netlists : List Netlist)
    (made : Synthesizes b.constants b.draft.allocator ds netlists) :
    Effect b current opened (batchMoves b.constants opened ds) current (.error e)
      { b with draft := ⟨b.draft.allocator.skip (drivenCount netlists), b.draft.gates⟩ }

variable {α β : Type} {b : Workbench} {current opened next : Nat} {moves : List Move}

/-! ## Looking things up -/

/-- The work leaves the workbench as it is, and finds what is there or fails. -/
def Looks (b : Workbench) (x : Work α) : Option α → Prop
  | some a => x.run b = (.ok a, b)
  | none => ∃ e, x.run b = (.error e, b)

theorem looks_get : Looks b get (some b) := rfl

theorem looks_pure (a : α) : Looks b (pure a) (some a) := rfl

theorem looks_bind {x : Work α} {f : α → Work β} {o : Option α} {g : α → Option β} (hx : Looks b x o)
    (hf : ∀ a, Looks b (f a) (g a)) : Looks b (x >>= f) (o.bind g) := by
  cases o with
  | none =>
    obtain ⟨e, he⟩ := hx
    exact ⟨e, run_bind_error he⟩
  | some a =>
    have hrun : (x >>= f).run b = (f a).run b := run_bind_ok hx
    have hfa := hf a
    rw [Option.bind_some]
    cases hg : g a with
    | none =>
      obtain ⟨e, he⟩ := hg ▸ hfa
      exact ⟨e, hrun.trans he⟩
    | some c =>
      rw [hg] at hfa
      exact hrun.trans hfa

theorem looks_item (l : List α) (i : Nat) : Looks b (item l i) l[i]? := by
  unfold item
  cases l[i]? with
  | none => exact ⟨.missing i, rfl⟩
  | some a => rfl

theorem looks_bus (i : Nat) : Looks b (bus i) b.buses[i]? := looks_item b.buses i

theorem looks_descriptor (i : Nat) : Looks b (descriptor i) b.descriptors[i]? := looks_item b.descriptors i

theorem looks_netlist (i : Nat) : Looks b (netlist i) b.netlists[i]? := looks_item b.netlists i

theorem looks_mapM {x : Nat → Work α} {look : Nat → Option α} (h : ∀ i, Looks b (x i) (look i)) (is : List Nat) :
    Looks b (is.mapM x) (is.mapM look) := by
  induction is with
  | nil => exact looks_pure []
  | cons i rest ih =>
    rw [List.mapM_cons, List.mapM_cons]
    exact looks_bind (h i) fun a => looks_bind ih fun l => looks_pure (a :: l)

theorem looks_simulating (result : Except SimulationError α) : Looks b (simulating result) result.toOption := by
  cases result with
  | ok a => rfl
  | error e => exact ⟨.simulation e, rfl⟩

theorem exists_of_mapM {look : Nat → Option α} {is : List Nat} {l : List α} (h : is.mapM look = some l) {a : α}
    (ha : a ∈ l) : ∃ i, look i = some a := by
  induction is generalizing l with
  | nil =>
    cases h
    cases ha
  | cons i rest ih =>
    rw [List.mapM_cons] at h
    obtain ⟨x, hx, h⟩ := Option.bind_eq_some_iff.1 h
    obtain ⟨later, hlater, h⟩ := Option.bind_eq_some_iff.1 h
    cases h
    rcases List.mem_cons.1 ha with rfl | ha
    · exact ⟨i, hx⟩
    · exact ih hlater ha

/-! ## What work does -/

/-- The work has an effect with these moves. -/
def Does (b : Workbench) (current opened : Nat) (moves : List Move) (next : Nat) (w : Work Reply) : Prop :=
  Effect b current opened moves next (w.run b).1 (w.run b).2

theorem does_looks {w : Work Reply} {o : Option Reply} (h : Looks b w o) : Does b current opened [] current w := by
  have hsame : (w.run b).2 = b := by
    cases o with
    | none =>
      obtain ⟨e, he⟩ := h
      rw [he]
    | some r => rw [show w.run b = (.ok r, b) from h]
  unfold Does
  rw [hsame]
  exact .looks _

theorem does_get {f : Workbench → Work Reply} (h : Does b current opened moves next (f b)) :
    Does b current opened moves next (get >>= f) := h

/-- A command that misses something does nothing. -/
theorem does_bind {x : Work α} {f : α → Work Reply} {o : Option α} (hx : Looks b x o) (hnone : o = none → moves = [])
    (hsome : ∀ a, o = some a → Does b current opened moves current (f a)) :
    Does b current opened moves current (x >>= f) := by
  unfold Does
  cases o with
  | none =>
    obtain ⟨e, he⟩ := hx
    rw [hnone rfl, run_bind_error he]
    exact .looks _
  | some a =>
    rw [run_bind_ok (show x.run b = (.ok a, b) from hx)]
    exact hsome a rfl

theorem does_on_buses {i j : Nat} {f : Bus → Bus → Work Reply}
    (hnone : b.buses[i]? = none ∨ b.buses[j]? = none → moves = [])
    (hsome : ∀ x y, b.buses[i]? = some x → b.buses[j]? = some y → Does b current opened moves current (f x y)) :
    Does b current opened moves current (bus i >>= fun x => bus j >>= f x) :=
  does_bind (looks_bus i) (fun h => hnone (.inl h)) fun x hx =>
    does_bind (looks_bus j) (fun h => hnone (.inr h)) fun y hy => hsome x y hx hy

theorem does_describe (op : Operation) (width : Nat) : Does b current opened [] current (newDescriptor op width) := by
  let d : Descriptor := ⟨op, width⟩
  exact .notes (.descriptor d) b.constants b.buses (b.descriptors ++ [d]) (List.prefix_refl _) (List.prefix_append _ _)

/-- Taking primaries leaves the gates alone. -/
theorem run_bare {step : Emit α} (h : (step b.draft.allocator).gates = []) :
    (run step).run b = (.ok (step b.draft.allocator).value,
      { b with draft := ⟨(step b.draft.allocator).allocator, b.draft.gates⟩ }) := by
  show (_, { b with draft := ⟨_, b.draft.gates ++ _⟩ }) = _
  rw [h, List.append_nil]

/-- A command that takes primaries and goes on without the draft. -/
theorem does_takes {step : Emit α} {f : α → Work Reply} {reply : Reply} {constants : Constants} {buses : List Bus}
    (m : Move) (view : α → List Signal) (same : ∀ k : Desk, k.step m = k.take (view <$> step))
    (bare : (step b.draft.allocator).gates = []) (more : b.buses <+: buses)
    (hf : (f (step b.draft.allocator).value).run
        { b with draft := ⟨(step b.draft.allocator).allocator, b.draft.gates⟩ } =
      (.ok reply, { b with draft := ⟨(step b.draft.allocator).allocator, b.draft.gates⟩, constants, buses })) :
    Does b current opened [m] current (run step >>= f) := by
  unfold Does
  rw [run_bind_ok (run_bare bare), hf]
  exact .takes reply m (view <$> step) same constants buses more

theorem run_build (work : Build α) :
    (build work).run b =
      ((work.run b.draft).1.mapError .synthesis, { b with draft := (work.run b.draft).2 }) := by
  rw [build, run_bind_ok looks_get]
  rcases work.run b.draft with ⟨result, draft⟩
  cases result <;> rfl

theorem run_allocate (work : Allocating α) :
    (allocate work).run b =
      ((work.run b.draft.allocator).1.mapError .synthesis,
        { b with draft := ⟨(work.run b.draft.allocator).2, b.draft.gates⟩ }) := by
  rw [allocate, run_bind_ok looks_get]
  rcases work.run b.draft.allocator with ⟨result, alloc⟩
  cases result <;> rfl

theorem does_call (c : Call) :
    Does b current opened [.request current (.call b.constants c)] current
      (build (c.place b.constants) >>= fun bits => pure (.signals bits)) := by
  let r : Request := .call b.constants c
  have hbuild : (build (c.place b.constants)).run b =
      ((r.place.run b.draft).1.mapError .synthesis, { b with draft := (r.place.run b.draft).2 }) := run_build _
  unfold Does
  cases hresult : (r.place.run b.draft).1 with
  | error e =>
    rw [hresult] at hbuild
    rw [run_bind_error hbuild]
    exact .requests _ r fun _ _ => ⟨e, hresult⟩
  | ok bits =>
    rw [hresult] at hbuild
    rw [run_bind_ok hbuild]
    exact .requests _ r fun _ h => by cases h

theorem does_batch (reply : List Netlist → Reply) (ds : List Descriptor) :
    Does b current opened (batchMoves b.constants opened ds) current
      (allocate (Descriptor.synthesizeAll b.constants ds) >>= fun netlists =>
        keepNetlists netlists >>= fun _ => pure (reply netlists)) := by
  have hallocate := run_allocate (b := b) (Descriptor.synthesizeAll b.constants ds)
  unfold Does
  rcases Descriptor.synthesizeAll_cases b.constants ds b.draft.allocator with
    ⟨netlists, hrun, hmade⟩ | ⟨earlier, d, later, netlists, e, rfl, hrun, hmade, he⟩
  · rw [hrun] at hallocate
    rw [run_bind_ok hallocate]
    exact .synthesizes _ ds netlists hmade
  · rw [hrun] at hallocate
    rw [run_bind_error hallocate]
    exact .stops _ _ netlists ⟨earlier, d :: later, rfl, hmade, by simpa using ⟨e, he⟩⟩

theorem does_synthesize (d : Descriptor) :
    Does b current opened (batchMoves b.constants opened [d]) current
      (allocate (d.synthesize b.constants) >>= fun netlist =>
        keepNetlists [netlist] >>= fun _ => pure (.netlist netlist)) := by
  have hallocate := run_allocate (b := b) (d.synthesize b.constants)
  unfold Does
  cases hr : d.op.ripple b.constants d.resultWidth with
  | error e =>
    have hstops : Effect b current opened _ current (.error (.synthesis e)) _ :=
      .stops _ [d] [] ⟨[], [d], rfl, oneByOne_nil _ _, by simpa using ⟨e, hr⟩⟩
    rw [Descriptor.synthesize_error hr] at hallocate
    rw [run_bind_error hallocate]
    rwa [show drivenCount [] = 0 from rfl, Allocator.skip_zero] at hstops
  | ok r =>
    have hrun := Descriptor.synthesize_eq hr b.draft.allocator
    have hcount : ∀ n : Netlist, drivenCount [n] = n.driven.length := fun n => by simp [drivenCount]
    rw [Descriptor.synthesize_after hrun] at hrun
    rw [hrun, ← hcount] at hallocate
    rw [run_bind_ok hallocate]
    exact .synthesizes _ [d] [_] (oneByOne_cons.2 ⟨hrun, oneByOne_nil _ _⟩)

/-- What a command does, it does by its moves. -/
theorem step_effect (b : Workbench) (current opened : Nat) (c : Command) :
    Does b current opened (c.moves b current opened) (c.nextDraft current opened) (step c) := by
  cases c with
  | fresh => exact does_takes .fresh (fun s => [s]) (fun _ => rfl) rfl (List.prefix_refl _) rfl
  | freshList count =>
    exact does_takes (.freshList count) id (fun _ => rfl) (by rw [Emit.freshList_apply]) (List.prefix_refl _) rfl
  | freshConstants =>
    exact does_takes .freshConstants (fun c => [c.zero, c.one]) (fun _ => rfl) rfl (List.prefix_refl _) rfl
  | setConstants constants =>
    exact .notes .done constants b.buses b.descriptors (List.prefix_refl _) (List.prefix_refl _)
  | addBus bus =>
    exact .notes _ b.constants (b.buses ++ [bus]) b.descriptors (List.prefix_append _ _) (List.prefix_refl _)
  | freshBus width signed =>
    exact does_takes (.freshBus width signed) Bus.bits (fun _ => rfl)
      (by rw [Emit.bus, Emit.map_apply, Emit.freshList_apply]) (List.prefix_append _ [_]) rfl
  | halfAdder x y => exact .requests _ (.halfAdder x y) fun e he => by cases he
  | or2 x y => exact .requests _ (.or2 x y) fun e he => by cases he
  | inverter x => exact .requests _ (.inverter x) fun e he => by cases he
  | fullAdder x y carryIn => exact .requests _ (.fullAdder x y carryIn) fun e he => by cases he
  | add i j width =>
    refine does_get (does_on_buses (fun h => ?_) fun x y hx hy => ?_)
    · rcases h with h | h <;> simp [Command.moves, Command.call?, h]
    · simp only [Command.moves, Command.call?, hx, hy]
      exact does_call (.add x y width)
  | subtract i j width =>
    refine does_get (does_on_buses (fun h => ?_) fun x y hx hy => ?_)
    · rcases h with h | h <;> simp [Command.moves, Command.call?, h]
    · simp only [Command.moves, Command.call?, hx, hy]
      exact does_call (.subtract x y width)
  | increment i seed width =>
    refine does_get (does_bind (looks_bus i) (fun h => ?_) fun x hx => ?_)
    · simp [Command.moves, Command.call?, h]
    · simp only [Command.moves, Command.call?, hx]
      exact does_call (.increment x seed width)
  | finish bits => exact .closes _ bits
  | describeAdd i j width => exact does_on_buses (fun _ => rfl) fun x y _ _ => does_describe _ _
  | describeSubtract i j width => exact does_on_buses (fun _ => rfl) fun x y _ _ => does_describe _ _
  | describeIncrement i literal width =>
    cases literal with
    | none => exact does_bind (looks_bus i) (fun _ => rfl) fun x _ => does_describe _ _
    | some j => exact does_on_buses (fun _ => rfl) fun x y _ _ => does_describe _ _
  | synthesize i =>
    refine does_bind (looks_descriptor i) (fun h => ?_) fun d h => does_get ?_
    · simp [Command.moves, h, batchMoves]
    · simp only [Command.moves, h]
      exact does_synthesize d
  | synthesizeAll is =>
    refine does_get (does_bind (looks_mapM looks_descriptor is) (fun h => ?_) fun ds h => ?_)
    · simp [Command.moves, h, batchMoves]
    · simp only [Command.moves, h]
      exact does_batch .netlists ds
  | merge is =>
    refine does_bind (looks_mapM looks_netlist is) (fun _ => rfl) fun parts h => .merges _ parts fun n hn => ?_
    obtain ⟨i, hi⟩ := exists_of_mapM h hn
    exact List.mem_of_getElem? hi
  | compute i j x y =>
    exact does_looks (looks_bind (looks_descriptor i) fun d => looks_bind (looks_netlist j) fun n =>
      looks_bind looks_get fun _ => looks_bind (looks_simulating _) fun value => looks_pure _)
  | eval i v =>
    exact does_looks (looks_bind (looks_netlist i) fun n => looks_bind looks_get fun _ =>
      looks_bind (looks_simulating _) fun bits => looks_pure _)
  | check i inputs =>
    exact does_looks (looks_bind (looks_netlist i) fun n => looks_bind looks_get fun _ =>
      looks_bind (looks_mapM looks_bus inputs) fun buses => looks_pure _)
  | checkFor i j =>
    exact does_looks (looks_bind (looks_netlist j) fun n => looks_bind looks_get fun _ =>
      looks_bind (looks_descriptor i) fun d => looks_pure _)
  | netlist i => exact does_looks (looks_bind (looks_netlist i) fun n => looks_pure _)
  | emit i j name library =>
    exact does_looks (looks_bind (looks_netlist j) fun n => looks_bind (looks_descriptor i) fun d =>
      looks_bind looks_get fun _ => looks_pure _)
  | same i j =>
    exact does_looks (looks_bind (looks_netlist i) fun n => looks_bind (looks_netlist j) fun m => looks_pure _)

/-! ## What every command keeps -/

variable {answer : Except WorkbenchError Reply} {b' : Workbench}

theorem Effect.failed {e : WorkbenchError} (h : Effect b current opened moves next (.error e) b') :
    ∃ count, b' = { b with draft := ⟨b.draft.allocator.skip count, b.draft.gates⟩ } := by
  cases h with
  | looks => exact ⟨0, by rw [Allocator.skip_zero]⟩
  | requests answer r failed =>
    obtain ⟨_, he⟩ := failed e rfl
    rcases r.place_cases b.draft with ⟨_, hrun⟩ | ⟨_, _, hrun, -⟩
    · exact ⟨0, by rw [hrun, Allocator.skip_zero]⟩
    · rw [hrun] at he
      cases he
  | stops => exact ⟨_, rfl⟩

/-- A command that fails leaves all as it was, but for the ids of netlists that it dropped. -/
theorem step_failed {c : Command} {e : WorkbenchError} (h : (step c).run b = (.error e, b')) :
    ∃ count, b' = { b with draft := ⟨b.draft.allocator.skip count, b.draft.gates⟩ } := by
  have heffect := step_effect b 0 0 c
  unfold Does at heffect
  rw [h] at heffect
  exact heffect.failed

/-- What is numbered on one workbench has the same number on the other. -/
structure Grows (b b' : Workbench) : Prop where
  buses : b.buses <+: b'.buses
  descriptors : b.descriptors <+: b'.descriptors
  netlists : b.netlists <+: b'.netlists

theorem grows_refl (b : Workbench) : b.Grows b := ⟨List.prefix_refl _, List.prefix_refl _, List.prefix_refl _⟩

theorem Grows.trans {b'' : Workbench} (h : b.Grows b') (h' : b'.Grows b'') : b.Grows b'' :=
  ⟨h.buses.trans h'.buses, h.descriptors.trans h'.descriptors, h.netlists.trans h'.netlists⟩

theorem Effect.grows (h : Effect b current opened moves next answer b') : b.Grows b' := by
  have hsame := b.grows_refl
  cases h with
  | looks => exact hsame
  | notes reply constants buses descriptors hb hd => exact ⟨hb, hd, hsame.netlists⟩
  | takes reply m step same constants buses more => exact ⟨more, hsame.descriptors, hsame.netlists⟩
  | requests | stops => exact ⟨hsame.buses, hsame.descriptors, hsame.netlists⟩
  | merges | closes | synthesizes => exact ⟨hsame.buses, hsame.descriptors, List.prefix_append _ _⟩

/-- The workbench after a command, whether it failed or not. -/
def after (b : Workbench) (c : Command) : Workbench := ((step c).run b).2

/-- What has a number keeps it. -/
theorem after_grows (b : Workbench) (c : Command) : b.Grows (b.after c) := (step_effect b 0 0 c).grows

end Workbench
end RippleCarry
