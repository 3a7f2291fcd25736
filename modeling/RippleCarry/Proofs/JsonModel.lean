import RippleCarry.Proofs.Arguments
import RippleCarry.Proofs.CommandRuns
import RippleCarry.Proofs.JsonText
/-!
# Circuits and their JSON

A type of the model is written as a `Json` and read back from one. `Lossless` is what has to be shown for
each type: that it writes plain values only, and that reading undoes writing. What holds of the texts follows
(`Lossless.roundTrips`), for the text has one reading in either layout.

`json_lossless`: no type of the model loses anything in its texts, nor does the object that a run prints.
-/

namespace RippleCarry

namespace Json

/-! ## Writers and readers -/

/-- The value of a text. -/
def decode? {α : Type} (read? : Json → Option α) (text : String) : Option α := (parse? text).bind read?

/-- One of the two texts of a value. -/
def IsText (j : Json) (text : String) : Prop := text = j.compact ∨ text = j.pretty

/-- Texts lose nothing of the values that fit: both texts of one are read as it, whatever is read can be
written and read again, and no text belongs to two. -/
structure RoundTrips {α : Type} (write : α → Json) (read? : Json → Option α) (Fits : α → Prop) : Prop where
  decode : ∀ x text, Fits x → (write x).IsText text → decode? read? text = some x
  rewrite : ∀ source x text, decode? read? source = some x → (write x).IsText text → decode? read? text = some x
  distinct : ∀ x y text, Fits x → Fits y → (write x).IsText text → (write y).IsText text → x = y

/-- Reading undoes writing, on the values that fit, and gives only such. -/
structure Lossless {α : Type} (write : α → Json) (read? : Json → Option α) (Fits : α → Prop) : Prop where
  plain : ∀ x, (write x).Plain
  read_write : ∀ x, Fits x → read? (write x) = some x
  fits : ∀ j x, read? j = some x → Fits x

theorem Lossless.of_all {α : Type} {write : α → Json} {read? : Json → Option α} (hplain : ∀ x, (write x).Plain)
    (hread : ∀ x, read? (write x) = some x) : Lossless write read? fun _ => True :=
  ⟨hplain, fun x _ => hread x, fun _ _ _ => trivial⟩

theorem Plain.parse?_isText {j : Json} (h : j.Plain) {text : String} (ht : j.IsText text) : parse? text = some j := by
  rcases ht with rfl | rfl
  · exact h.parse?_compact
  · exact h.parse?_pretty

theorem Lossless.roundTrips {α : Type} {write : α → Json} {read? : Json → Option α} {Fits : α → Prop}
    (h : Lossless write read? Fits) : RoundTrips write read? Fits := by
  have hdecode : ∀ x text, Fits x → (write x).IsText text → decode? read? text = some x := by
    intro x text hx ht
    rw [decode?, (h.plain x).parse?_isText ht, Option.bind_some, h.read_write x hx]
  refine ⟨hdecode, fun source x text hs ht => ?_, fun x y text hx hy htx hty => ?_⟩
  · obtain ⟨j, -, hj⟩ := Option.bind_eq_some_iff.1 hs
    exact hdecode x text (h.fits j x hj) ht
  · have hboth := hdecode x text hx htx
    rw [hdecode y text hy hty] at hboth
    exact (Option.some.inj hboth).symm

/-! ## Shapes -/

theorem mapM_map_of_eq_some {α β γ : Type} {f : β → Option γ} {g : α → β} {h : α → γ} {l : List α}
    (hf : ∀ x ∈ l, f (g x) = some (h x)) : (l.map g).mapM f = some (l.map h) := by
  induction l with
  | nil => rfl
  | cons x l ih =>
    rw [List.map_cons, List.mapM_cons, hf x (by simp), ih (fun y hy => hf y (by simp [hy]))]
    rfl

theorem plain_record {members : List (String × Json)} (h : ∀ m ∈ members, m.2.Plain) : (record members).Plain := by
  apply Plain.object
  intro m hm
  obtain ⟨m', hm', rfl⟩ := List.mem_map.1 hm
  exact h m' hm'

theorem plain_ofList {α : Type} {item : α → Json} (h : ∀ x, (item x).Plain) (l : List α) :
    (ofList item l).Plain := by
  apply Plain.array
  intro j hj
  obtain ⟨x, -, rfl⟩ := List.mem_map.1 hj
  exact h x

theorem list?_ofList {α : Type} {item : α → Json} {read? : Json → Option α} (h : ∀ x, read? (item x) = some x)
    (l : List α) : (ofList item l).list? read? = some l := by
  have hread := mapM_map_of_eq_some (l := l) (f := read?) (g := item) (h := id) (fun x _ => h x)
  rwa [List.map_id] at hread

theorem case?_record (name : String) (body : Json) : (record [(name, body)]).case? = some (name, some body) := rfl

theorem word?_ofNat {n : Nat} (h : n < UInt64.size) : (ofNat n).word? = some n := if_pos h

theorem word?_lt {j : Json} {n : Nat} (h : j.word? = some n) : n < UInt64.size := by
  unfold word? at h
  split at h
  · split at h
    · next hlt => exact Option.some.inj h ▸ hlt
    · cases h
  · cases h

theorem lookup_record {members : List (String × Json)} (hnames : (members.map Prod.fst).Nodup) {key : String}
    {value : Json} (hm : (key, value) ∈ members) :
    lookup (members.map fun (key, value) => (some key, value)) key = some (some value) := by
  have hfilter : (members.map fun (key, value) => (some key, value)).filter (fun m => m.1 == some key) =
      [(some key, value)] := by
    induction members with
    | nil => cases hm
    | cons m members ih =>
      obtain ⟨hfresh, hnames⟩ := List.nodup_cons.1 hnames
      rcases List.mem_cons.1 hm with rfl | hm
      · rw [List.map_cons, List.filter_cons_of_pos (by simp), List.filter_eq_nil_iff.2]
        intro m' hm'
        obtain ⟨m'', hm'', rfl⟩ := List.mem_map.1 hm'
        simp only [beq_iff_eq, Option.some.injEq]
        exact fun heq => hfresh (List.mem_map.2 ⟨m'', hm'', heq⟩)
      · have hne : m.1 ≠ key := fun heq => hfresh (heq ▸ List.mem_map_of_mem hm)
        rw [List.map_cons, List.filter_cons_of_neg (by simpa using hne), ih hnames hm]
  rw [lookup, hfilter]

/-- The fields of a record are found by their names. -/
theorem fields?_record (members : List (String × Json)) (hnames : (members.map Prod.fst).Nodup) :
    (record members).fields? (members.map Prod.fst) = some (members.map fun m => some m.2) := by
  rw [record, fields?, if_pos (by simp)]
  exact mapM_map_of_eq_some fun m hm => lookup_record hnames hm

theorem fields?_pair {first second : String} (h : first ≠ second) (x y : Json) :
    (record [(first, x), (second, y)]).fields? [first, second] = some [some x, some y] :=
  fields?_record [(first, x), (second, y)] (by simpa using h)

end Json

open Json

/-! ## Types of the model -/

namespace Signal

theorem ofJson?_toJson (s : Signal) : ofJson? s.toJson = some s := by
  have hfields : s.toJson.fields? ["id"] = some [some (.ofNat s.id.toNat)] :=
    fields?_record [("id", .ofNat s.id.toNat)] (by simp)
  simp [ofJson?, hfields, word?_ofNat s.id.toNat_lt_size]

theorem plain_toJson (s : Signal) : s.toJson.Plain := plain_record fun m hm => by
  rw [List.mem_singleton.1 hm]
  exact .nat _

end Signal

namespace Constants

theorem ofJson?_toJson (c : Constants) : ofJson? c.toJson = some c := by
  simp [ofJson?, toJson, fields?_pair, Signal.ofJson?_toJson]

theorem plain_toJson (c : Constants) : c.toJson.Plain :=
  plain_record (by simp [Signal.plain_toJson])

end Constants

theorem GateKind.ofJson?_toJson (k : GateKind) : ofJson? k.toJson = some k := by
  cases k <;> rfl

theorem OpKind.ofJson?_toJson (k : OpKind) : ofJson? k.toJson = some k := by
  cases k <;> rfl

theorem OpKind.plain_toJson (k : OpKind) : k.toJson.Plain := by
  cases k <;> exact .string _

namespace Gate

theorem ofJson?_toJson (g : Gate) : ofJson? g.toJson = some g := by
  cases g with
  | halfAdder a b sum carry =>
    have hfields := fields?_record
      [("a", a.toJson), ("b", b.toJson), ("sum", sum.toJson), ("cout", carry.toJson)] (by simp)
    simp only [List.map_cons, List.map_nil] at hfields
    simp [ofJson?, toJson, case?_record, hfields, Signal.ofJson?_toJson]
  | or2 a b out =>
    have hfields := fields?_record [("a", a.toJson), ("b", b.toJson), ("x", out.toJson)] (by simp)
    simp only [List.map_cons, List.map_nil] at hfields
    simp [ofJson?, toJson, case?_record, hfields, Signal.ofJson?_toJson]
  | not a out => simp [ofJson?, toJson, case?_record, fields?_pair, Signal.ofJson?_toJson]

theorem plain_toJson (g : Gate) : g.toJson.Plain := by
  cases g <;> exact plain_record (by simpa using plain_record (by simp [Signal.plain_toJson]))

end Gate

namespace Bus

theorem ofJson?_toJson (bus : Bus) : ofJson? bus.toJson = some bus := by
  simp [ofJson?, toJson, fields?_pair, list?_ofList Signal.ofJson?_toJson, bool?]

theorem plain_toJson (bus : Bus) : bus.toJson.Plain :=
  plain_record (by simp [plain_ofList Signal.plain_toJson, Plain.bool])

end Bus

theorem literalOfJson?_literalToJson (literal : Option Bus) :
    literalOfJson? (some (literalToJson literal)) = some literal := by
  cases literal with
  | none => rfl
  | some bus =>
    -- a bus is an object, so it is not taken for a missing one
    have hread : literalOfJson? (some bus.toJson) = (Bus.ofJson? bus.toJson).map some := rfl
    rw [literalToJson, hread, Bus.ofJson?_toJson]
    rfl

theorem plain_literalToJson (literal : Option Bus) : (literalToJson literal).Plain := by
  cases literal with
  | none => exact .null
  | some bus => exact bus.plain_toJson

namespace Operation

theorem ofJson?_toJson (op : Operation) : ofJson? op.toJson = some op := by
  cases op with
  | add a b | subtract a b => simp [ofJson?, toJson, case?_record, fields?_pair, Bus.ofJson?_toJson]
  | increment a literal =>
    simp [ofJson?, toJson, case?_record, fields?_pair, Bus.ofJson?_toJson, literalOfJson?_literalToJson]

theorem plain_toJson (op : Operation) : op.toJson.Plain := by
  cases op <;>
    exact plain_record (by simpa using plain_record (by simp [Bus.plain_toJson, plain_literalToJson]))

end Operation

namespace Descriptor

theorem ofJson?_toJson {d : Descriptor} (h : d.resultWidth < UInt64.size) : ofJson? d.toJson = some d := by
  simp [ofJson?, toJson, fields?_pair, Operation.ofJson?_toJson, word?_ofNat h]

theorem plain_toJson (d : Descriptor) : d.toJson.Plain :=
  plain_record (by simp [Operation.plain_toJson, ofNat, Plain.nat])

/-- Only widths of at most 64 bits are read. -/
theorem resultWidth_of_ofJson? {j : Json} {d : Descriptor} (h : ofJson? j = some d) : d.resultWidth < UInt64.size := by
  obtain ⟨fields, -, h⟩ := Option.bind_eq_some_iff.1 h
  split at h
  · next op width =>
    obtain ⟨op', -, h⟩ := Option.bind_eq_some_iff.1 h
    obtain ⟨width', hwidth, h⟩ := Option.bind_eq_some_iff.1 h
    cases h
    exact word?_lt hwidth
  · cases h

end Descriptor

namespace Netlist

theorem ofJson?_toJson (n : Netlist) : ofJson? n.toJson = some n := by
  simp [ofJson?, toJson, fields?_pair, list?_ofList Gate.ofJson?_toJson, list?_ofList Signal.ofJson?_toJson]

theorem plain_toJson (n : Netlist) : n.toJson.Plain :=
  plain_record (by simp [plain_ofList Gate.plain_toJson, plain_ofList Signal.plain_toJson])

end Netlist

/-! ## What a run prints -/

namespace CommandLine

/-- A design is what its options ask for, and its netlist is synthesized from its own descriptor. -/
theorem Options.design_made {o : Options} {d : Design} (h : o.design = .ok d) :
    o.operation? = some d.descriptor.op ∧ d.descriptor.resultWidth = o.resultWidth ∧
      ∃ alloc after, (d.descriptor.synthesize d.constants).run alloc = (.ok d.netlist, after) := by
  rw [design_eq] at h
  cases hop : o.operation? with
  | none =>
    rw [hop] at h
    cases h
  | some op =>
    simp only [hop, designOf] at h
    cases hrun : (Descriptor.synthesize mintedConstants ⟨op, o.resultWidth⟩).run (firstAllocator.skip o.minted) with
    | mk result after =>
      rw [hrun] at h
      cases result with
      | error e => cases h
      | ok netlist =>
        simp only [Except.mapError, bind, Except.bind] at h
        split at h
        · cases h
          exact ⟨rfl, rfl, _, _, hrun⟩
        · cases h

theorem Design.plain_toJson (d : Design) : d.toJson.Plain :=
  plain_record (by simp [d.descriptor.plain_toJson, d.constants.plain_toJson, d.netlist.plain_toJson])

/-- A run in the JSON format prints its design and a line end. -/
theorem Options.run_json {o : Options} {readFile : ReadFile} {config : Config} {d : Design}
    (hconfig : loadConfig readFile o.config = .ok config) (hd : o.design = .ok d) (heval : o.eval = none)
    (hformat : (o.format.orElse fun _ => config.outputFormat) = some .json) :
    o.run readFile = ⟨0, d.toJson.pretty ++ "\n", ""⟩ := by
  have hprint : d.print o config = d.toJson.pretty ++ "\n" := by
    rw [Design.print, hformat]
    rfl
  apply run_ok
  simp only [output, hconfig, hd, heval, bind, Except.bind, hprint]
  rfl

theorem Design.parse?_printed (d : Design) : parse? (d.toJson.pretty ++ "\n") = some d.toJson := by
  have hline : ∀ c ∈ ['\n'], isBlank c := by simp [isBlank]
  have hparse := d.plain_toJson.parse?_render Layout.pretty_blank hline
  rwa [String.ofList_append] at hparse

end CommandLine

open CommandLine

/-- Nothing is lost in JSON. Each type of the model reads back from both of its texts, whatever is read can be
written and read again, and different values have different texts; a descriptor, when its width is a number of
64 bits, as every width is that is read. And a run in the JSON format prints an object whose three members
read back as the descriptor, the constants and the netlist that was synthesized from them. -/
theorem json_lossless :
    RoundTrips Signal.toJson Signal.ofJson? (fun _ => True) ∧
    RoundTrips Constants.toJson Constants.ofJson? (fun _ => True) ∧
    RoundTrips GateKind.toJson GateKind.ofJson? (fun _ => True) ∧
    RoundTrips OpKind.toJson OpKind.ofJson? (fun _ => True) ∧
    RoundTrips Gate.toJson Gate.ofJson? (fun _ => True) ∧
    RoundTrips Bus.toJson Bus.ofJson? (fun _ => True) ∧
    RoundTrips Operation.toJson Operation.ofJson? (fun _ => True) ∧
    RoundTrips Descriptor.toJson Descriptor.ofJson? (fun d => d.resultWidth < UInt64.size) ∧
    RoundTrips Netlist.toJson Netlist.ofJson? (fun _ => True) ∧
    ∀ args o readFile config d, Options.ofArgs? args = some o → loadConfig readFile o.config = .ok config →
      o.design = .ok d → o.eval = none → (o.format.orElse fun _ => config.outputFormat) = some .json →
      (∃ alloc after, (d.descriptor.synthesize d.constants).run alloc = (.ok d.netlist, after)) ∧
      ∃ text descriptor constants network, o.run readFile = ⟨0, text, ""⟩ ∧
        parse? text = some (.record [("descriptor", descriptor), ("constants", constants), ("network", network)]) ∧
        Descriptor.ofJson? descriptor = some d.descriptor ∧ Constants.ofJson? constants = some d.constants ∧
        Netlist.ofJson? network = some d.netlist := by
  refine ⟨(Lossless.of_all Signal.plain_toJson Signal.ofJson?_toJson).roundTrips,
    (Lossless.of_all Constants.plain_toJson Constants.ofJson?_toJson).roundTrips,
    (Lossless.of_all (fun _ => .string _) GateKind.ofJson?_toJson).roundTrips,
    (Lossless.of_all OpKind.plain_toJson OpKind.ofJson?_toJson).roundTrips,
    (Lossless.of_all Gate.plain_toJson Gate.ofJson?_toJson).roundTrips,
    (Lossless.of_all Bus.plain_toJson Bus.ofJson?_toJson).roundTrips,
    (Lossless.of_all Operation.plain_toJson Operation.ofJson?_toJson).roundTrips,
    (Lossless.mk Descriptor.plain_toJson (fun _ => Descriptor.ofJson?_toJson)
      fun _ _ => Descriptor.resultWidth_of_ofJson?).roundTrips,
    (Lossless.of_all Netlist.plain_toJson Netlist.ofJson?_toJson).roundTrips, ?_⟩
  intro args o readFile config d hargs hconfig hd heval hformat
  obtain ⟨-, hwidth, hmade⟩ := Options.design_made hd
  have hfits : d.descriptor.resultWidth < UInt64.size := hwidth ▸ Options.resultWidth_lt hargs
  exact ⟨hmade, _, _, _, _, Options.run_json hconfig hd heval hformat, d.parse?_printed,
    Descriptor.ofJson?_toJson hfits, d.constants.ofJson?_toJson, d.netlist.ofJson?_toJson⟩

/-- An increment of the widest result width reads back without its literal; and so do the three members that a
run of an increment prints. -/
theorem json_lossless_increment :
    decode? Descriptor.ofJson? (Descriptor.toJson ⟨.increment ⟨[⟨7⟩], true⟩ none, 18446744073709551615⟩).pretty =
      some ⟨.increment ⟨[⟨7⟩], true⟩ none, 18446744073709551615⟩ ∧
    let args := ["--op=inc", "--a-width=1", "--result-width=2", "--format", "json"]
    ∃ o d, Options.ofArgs? args = some o ∧ o.design = .ok d ∧ ∀ readFile,
      ∃ text descriptor constants network, o.run readFile = ⟨0, text, ""⟩ ∧
        parse? text = some (.record [("descriptor", descriptor), ("constants", constants), ("network", network)]) ∧
        Descriptor.ofJson? descriptor = some d.descriptor ∧ Constants.ofJson? constants = some d.constants ∧
        Netlist.ofJson? network = some d.netlist := by
  obtain ⟨-, -, -, -, -, -, -, hdescriptor, -, hrun⟩ := json_lossless
  refine ⟨hdescriptor.decode _ _ (by decide) (.inr rfl), ?_⟩
  intro args
  let o : Options := ⟨.increment, 1, false, none, false, 2, none, some .json, none, none⟩
  have hargs : Options.ofArgs? args = some o := rfl
  have hrange : o.InRange := ⟨by decide, by decide, .inl rfl⟩
  obtain ⟨d, hd, -⟩ := hrange.design
  exact ⟨o, d, hargs, hd, fun readFile => (hrun args o readFile .empty d hargs rfl hd rfl rfl).2⟩

end RippleCarry
