import Mathlib.Data.List.TakeWhile
import RippleCarry.CommandLine.Run
/-!
# What arguments ask for

Settings are in order when each is of an option that takes its value, and no option is set twice. Then the
options are there unless a required one is missing (`Options.ofSettings?_eq_none_iff`), and nothing that was
set is dropped (`Options.keeps_settings`). A call for help counts only where the reading from the left comes to
it: `Invocation.help_iff` says when it does, and `Invocation.run_iff` that it takes no run away. The exit code
is 2 in the cases left, and only then (`run_exitCode`).
-/

namespace RippleCarry

namespace Numeral

theorem readFrom_lt {radix value n : Nat} {digits : List Char} (hvalue : value < UInt64.size)
    (h : readFrom radix value digits = .ok n) : n < UInt64.size := by
  induction digits generalizing value with
  | nil =>
    cases h
    exact hvalue
  | cons c digits ih =>
    unfold readFrom at h
    split at h
    · cases h
    · simp only at h
      split at h
      · next hlt => exact ih hlt h
      · cases h

theorem readUnsigned_lt {radix n : Nat} {text : List Char} (h : readUnsigned radix text = .ok n) :
    n < UInt64.size := by
  unfold readUnsigned at h
  split at h
  · cases h
  · cases h
  · exact readFrom_lt (by decide) h
  · exact readFrom_lt (by decide) h

end Numeral

namespace CommandLine

variable {args : List String} {settings : List Setting} {name : String}

theorem width?_lt {text : String} {width : Nat} (h : width? text = some width) : width < UInt64.size := by
  unfold width? at h
  cases hread : Numeral.readUnsigned 10 text.toList with
  | error fault =>
    rw [hread] at h
    cases h
  | ok n =>
    rw [hread] at h
    cases h
    exact Numeral.readUnsigned_lt hread

/-! ## Settings -/

theorem allAccepted_cons {s : Setting} :
    allAccepted (s :: settings) ↔ (isAccepted s ∧ ∀ t ∈ settings, t.1 ≠ s.1) ∧ allAccepted settings := by
  simp [allAccepted]

theorem isAccepted_of_lookup {text : String} (h : allAccepted settings) (hl : settings.lookup name = some text) :
    isAccepted (name, text) := by
  induction settings with
  | nil => cases hl
  | cons s rest ih =>
    obtain ⟨⟨hs, -⟩, hrest⟩ := allAccepted_cons.1 h
    rw [List.lookup_cons] at hl
    split at hl
    · next heq =>
      cases hl
      rw [beq_iff_eq.1 heq]
      exact hs
    · exact ih hrest hl

/-- A value that its option takes is read. -/
theorem value?_eq_none_iff {α : Type} {read : String → Option α} (h : allAccepted settings)
    (hread : ∀ info ∈ optionTable, info.name = name → info.accepts = fun text => (read text).isSome) :
    value? settings name read = none ↔ settings.lookup name = none := by
  cases hl : settings.lookup name with
  | none => simp [value?, hl]
  | some text =>
    obtain ⟨info, hinfo, hs⟩ := List.any_eq_true.1 (isAccepted_of_lookup h hl)
    obtain ⟨hname, haccepts⟩ := Bool.and_eq_true_iff.1 hs
    rw [hread info hinfo (beq_iff_eq.1 hname)] at haccepts
    simp [value?, hl, Option.isSome_iff_ne_none.1 haccepts]

/-- The options are there unless a required one is missing. -/
theorem Options.ofSettings?_eq_none_iff (h : allAccepted settings) :
    ofSettings? settings = none ↔ ∃ info ∈ optionTable, info.required ∧ settings.lookup info.name = none := by
  have hop : value? settings "op" opKind? = none ↔ settings.lookup "op" = none :=
    value?_eq_none_iff h (by simp [optionTable, OptionInfo.of])
  have ha : value? settings "a-width" width? = none ↔ settings.lookup "a-width" = none :=
    value?_eq_none_iff h (by simp [optionTable, OptionInfo.of])
  have hresult : value? settings "result-width" width? = none ↔ settings.lookup "result-width" = none :=
    value?_eq_none_iff h (by simp [optionTable, OptionInfo.of])
  have hmissing : (∃ info ∈ optionTable, info.required ∧ settings.lookup info.name = none) ↔
      settings.lookup "op" = none ∨ settings.lookup "a-width" = none ∨ settings.lookup "result-width" = none := by
    simp [optionTable, OptionInfo.of]
  rw [hmissing, ← hop, ← ha, ← hresult]
  unfold ofSettings?
  split
  · next hop ha hresult => simp [hop, ha, hresult]
  · next hnone =>
    refine iff_of_true rfl ?_
    rcases hop : value? settings "op" opKind? with _ | op
    · exact .inl rfl
    rcases ha : value? settings "a-width" width? with _ | aWidth
    · exact .inr (.inl rfl)
    rcases hresult : value? settings "result-width" width? with _ | resultWidth
    · exact .inr (.inr rfl)
    exact absurd hresult (hnone op aWidth resultWidth hop ha)

/-- An option that can be left out is left out of the options only if it was not set. -/
theorem Options.keeps_settings {o : Options} (h : allAccepted settings) (ho : ofSettings? settings = some o) :
    (o.bWidth = none ↔ settings.lookup "b-width" = none) ∧
    (o.config = none ↔ settings.lookup "config" = none) ∧
    (o.format = none ↔ settings.lookup "format" = none) ∧
    (o.moduleName = none ↔ settings.lookup "module-name" = none) ∧
    (o.eval = none ↔ settings.lookup "eval" = none) := by
  unfold ofSettings? at ho
  split at ho
  · cases ho
    refine ⟨value?_eq_none_iff h ?_, value?_eq_none_iff h ?_, value?_eq_none_iff h ?_, value?_eq_none_iff h ?_,
      value?_eq_none_iff h ?_⟩ <;> simp [optionTable, OptionInfo.of]
  · cases ho

theorem Options.resultWidth_of_ofSettings? {o : Options} (h : ofSettings? settings = some o) :
    value? settings "result-width" width? = some o.resultWidth := by
  unfold ofSettings? at h
  split at h
  · cases h
    assumption
  · cases h

/-- Arguments cannot ask for a width of more than 64 bits. -/
theorem Options.resultWidth_lt {o : Options} (h : ofArgs? args = some o) : o.resultWidth < UInt64.size := by
  obtain ⟨settings, -, h⟩ := Option.bind_eq_some_iff.1 h
  obtain ⟨text, -, hread⟩ := Option.bind_eq_some_iff.1 (resultWidth_of_ofSettings? h)
  exact width?_lt hread

/-! ## Calls for help -/

theorem goesOn_of_split {arg : String} {parts : String × Option String} (h : splitOption arg = some parts)
    (hhelp : parts ≠ ("help", none)) (hend : parts ≠ ("", none)) : goesOn arg := by
  have hasks : asksForHelp arg = (arg == "--help") := by
    unfold splitOption at h
    split at h
    · next harg => simp [asksForHelp, harg]
    · cases h
  have hne : arg ≠ "--help" := by
    rintro rfl
    exact hhelp (Option.some.inj h).symm
  have hne' : arg ≠ "--" := by
    rintro rfl
    exact hend (Option.some.inj h).symm
  simp [goesOn, hasks, hne, hne']

theorem goesOn_of_isValue {arg : String} (h : isValue arg) : goesOn arg := by
  have hne : arg ≠ "--help" := by
    rintro rfl
    cases h
  have hne' : arg ≠ "--" := by
    rintro rfl
    cases h
  have hasks : asksForHelp arg = false := by
    unfold asksForHelp
    split
    · next harg => simp [isValue, harg] at h
    · simpa using hne
  simp [goesOn, hasks, hne']

/-- No option has the name that calls for help, or an empty one. -/
theorem goesOn_of_option {arg name value : String} (h : splitOption arg = some (name, none))
    (ha : isAccepted (name, value)) : goesOn arg := by
  apply goesOn_of_split h
  · rintro ⟨⟩
    simp [isAccepted, optionTable, OptionInfo.of] at ha
  · rintro ⟨⟩
    simp [isAccepted, optionTable, OptionInfo.of] at ha

/-- Arguments that are in order are read to their end. -/
theorem dropWhile_goesOn (h : settings? args = some settings) (ha : allAccepted settings) :
    args.dropWhile goesOn = [] ∨ args.dropWhile goesOn = ["--"] := by
  fun_induction settings? args generalizing settings with
  | case1 => exact .inl rfl
  | case2 => exact .inr rfl
  | case3 arg name value rest hsplit _ ih =>
    obtain ⟨later, hlater, rfl⟩ := Option.map_eq_some_iff.1 h
    rw [List.dropWhile_cons_of_pos (goesOn_of_split hsplit (by simp) (by simp))]
    exact ih hlater (allAccepted_cons.1 ha).2
  | case4 arg name value rest hsplit hvalue _ ih =>
    obtain ⟨later, hlater, rfl⟩ := Option.map_eq_some_iff.1 h
    obtain ⟨⟨hfirst, -⟩, hrest⟩ := allAccepted_cons.1 ha
    rw [List.dropWhile_cons_of_pos (goesOn_of_option hsplit hfirst),
      List.dropWhile_cons_of_pos (goesOn_of_isValue hvalue)]
    exact ih hlater hrest
  | case5 => cases h
  | case6 => cases h

namespace Invocation

/-- What runs is what the arguments set: none of them calls for help. -/
theorem run_iff {o : Options} : ofArgs? args = some (.run o) ↔ Options.ofArgs? args = some o := by
  unfold ofArgs?
  split
  · simp
  · simp
  · next arg rest hfirst hdrop =>
    refine iff_of_false (by simp) fun ho => ?_
    obtain ⟨settings, hs, -⟩ := Option.bind_eq_some_iff.1 ho
    obtain ⟨hs, ha⟩ := Option.filter_eq_some_iff.1 hs
    rcases dropWhile_goesOn hs ha with hall | hend
    · rw [hdrop] at hall
      cases hall
    · rw [hdrop] at hend
      exact hfirst (List.cons.inj hend).1

/-- There is help exactly when a call for it follows settings that are in order and still open. -/
theorem help_iff :
    ofArgs? args = some .help ↔
      ∃ before arg rest, args = before ++ arg :: rest ∧ asksForHelp arg ∧ "--" ∉ before ∧
        (accepted? before).isSome := by
  constructor
  · intro h
    unfold ofArgs? at h
    split at h
    · simp at h
    · simp at h
    · next arg rest hfirst hdrop =>
      obtain ⟨settings, hs, -⟩ := Option.map_eq_some_iff.1 h
      refine ⟨args.takeWhile goesOn, arg, rest, ?_, ?_, ?_, by rw [hs]; rfl⟩
      · rw [← hdrop, List.takeWhile_append_dropWhile]
      · have hstop : goesOn arg = false := by
          have hne : args.dropWhile goesOn ≠ [] := by simp [hdrop]
          simpa [hdrop] using List.head_dropWhile_not goesOn hne
        simpa [goesOn, show arg ≠ "--" from hfirst] using hstop
      · intro hm
        have hgoes : goesOn "--" := (List.mem_takeWhile_imp hm)
        cases hgoes
  · rintro ⟨before, arg, rest, rfl, harg, hopen, haccepted⟩
    obtain ⟨settings, hs⟩ := Option.isSome_iff_exists.1 haccepted
    have hall : ∀ a ∈ before, goesOn a := by
      obtain ⟨hs, ha⟩ := Option.filter_eq_some_iff.1 hs
      rcases dropWhile_goesOn hs ha with hnil | hend
      · exact List.dropWhile_eq_nil_iff.1 hnil
      · refine absurd ((List.dropWhile_suffix goesOn).subset ?_) hopen
        rw [hend]
        exact List.mem_singleton_self _
    have hstop : ¬ goesOn arg := by simp [goesOn, harg]
    unfold ofArgs?
    rw [List.dropWhile_append_of_pos hall, List.takeWhile_append_of_pos hall, List.dropWhile_cons_of_neg hstop,
      List.takeWhile_cons_of_neg hstop, List.append_nil, hs]
    split
    · next hnil => cases hnil
    · next hcons =>
      cases hcons
      cases harg
    · rfl

end Invocation

/-- The exit code is 2 for wrong arguments, and for nothing else. -/
theorem run_exitCode (readFile : ReadFile) : (run args readFile).exitCode = 2 ↔ Invocation.ofArgs? args = none := by
  unfold run
  cases Invocation.ofArgs? args with
  | none => exact iff_of_true rfl rfl
  | some invocation =>
    refine iff_of_false ?_ (by simp)
    cases invocation with
    | help => simp [Invocation.outcome]
    | run o =>
      show ¬ (o.run readFile).exitCode = 2
      unfold Options.run
      split <;> simp

end CommandLine
end RippleCarry
