import RippleCarry.Proofs.Numerals
/-!
# Numerals on the command line

What `parse` and `parsePair` accept, and what they say of everything else. `Trimmed` and `Components` describe the
text without its outer blanks and the text between commas; `PairFault` says which error counts where there are
several. No numeral has a comma in it (`comma_notMem`), so a text in which two numerals stand with a comma between
them has exactly these two parts.
-/

namespace RippleCarry
namespace Numeral

/-! ## Blanks around a numeral -/

/-- The core is the text without the blanks at either end. -/
structure Trimmed (text core : List Char) : Prop where
  around : ∃ before after, text = before ++ core ++ after ∧ ∀ c ∈ before ++ after, Text.isBlank c
  first : ∀ c ∈ core.head?, ¬ Text.isBlank c
  last : ∀ c ∈ core.getLast?, ¬ Text.isBlank c

theorem head?_dropWhile_isBlank (text : List Char) : ∀ c ∈ (text.dropWhile Text.isBlank).head?, ¬ Text.isBlank c := by
  intro c hc
  have h := text.head?_dropWhile_not Text.isBlank
  rw [hc] at h
  simp [h]

theorem trimmed_trim (text : List Char) : Trimmed text (Text.trim text) := by
  let behind := text.dropWhile Text.isBlank
  let after := (behind.reverse.takeWhile Text.isBlank).reverse
  have hbehind : behind = Text.trim text ++ after := by
    rw [← behind.reverse_reverse, ← behind.reverse.takeWhile_append_dropWhile (p := Text.isBlank), List.reverse_append]
    rfl
  refine ⟨⟨text.takeWhile Text.isBlank, after, ?_, ?_⟩, ?_, ?_⟩
  · rw [List.append_assoc, ← hbehind]
    exact List.takeWhile_append_dropWhile.symm
  · intro c hc
    rcases List.mem_append.1 hc with hc | hc
    · exact List.all_eq_true.1 List.all_takeWhile c hc
    · exact List.all_eq_true.1 List.all_takeWhile c (List.mem_reverse.1 hc)
  · intro c hc
    refine head?_dropWhile_isBlank text c ?_
    change behind.head? = some c
    rw [hbehind, List.head?_append, hc]
    rfl
  · intro c hc
    rw [Text.trim, List.getLast?_reverse] at hc
    exact head?_dropWhile_isBlank _ c hc

variable {text : List Char}

theorem parse_ok_iff {v : UInt64} : parse text = .ok v ↔ StandsFor (Text.trim text) v := by
  rw [← read_ok_iff, parse]
  cases read (Text.trim text) <;> simp [Except.mapError]

theorem parse_error_iff {e : Error} :
    parse text = .error e ↔ ∃ fault, e = .invalid (Text.trim text) fault ∧ Fails (Text.trim text) fault := by
  simp only [← read_fault_iff, parse]
  cases read (Text.trim text) with
  | ok v => simp [Except.mapError]
  | error fault => simp [Except.mapError, eq_comm]

/-! ## Numerals between commas -/

/-- The parts stand in the text with commas between them, and have none themselves. -/
structure Components (text : List Char) (parts : List (List Char)) : Prop where
  joined : text = [','].intercalate parts
  nonempty : parts ≠ []
  commaFree : ∀ part ∈ parts, ',' ∉ part

theorem splitCommas_cons {c : Char} {rest : List Char} (h : c ≠ ',') (hrest : splitCommas rest ≠ []) :
    splitCommas (c :: rest) = (splitCommas rest).modifyHead (c :: ·) := by
  rw [splitCommas]
  · cases hparts : splitCommas rest with
    | nil => exact absurd hparts hrest
    | cons part parts => rfl
  · exact h

theorem splitCommas_eq (text : List Char) : splitCommas text = text.splitOn ',' := by
  induction text with
  | nil => rfl
  | cons c rest ih =>
    have hrest : splitCommas rest ≠ [] := by
      rw [ih]
      exact List.splitOn_ne_nil ',' rest
    by_cases hc : c = ','
    · rw [hc, splitCommas, ih]
      simp [List.splitOn, List.splitOnP_cons_eq_if_modifyHead]
    · rw [splitCommas_cons hc hrest, ih]
      simp [List.splitOn, List.splitOnP_cons_eq_if_modifyHead, hc]

theorem splitCommas_ne_nil (text : List Char) : splitCommas text ≠ [] := by
  rw [splitCommas_eq]
  exact List.splitOn_ne_nil ',' text

theorem comma_notMem_splitCommas (text : List Char) : ∀ part ∈ splitCommas text, ',' ∉ part := by
  fun_induction splitCommas text with
  | case1 => simp
  | case2 rest ih => simpa using ih
  | case3 c rest hc hnil => simpa using fun h => hc h.symm
  | case4 c rest hc part parts hparts ih =>
    rw [hparts, List.forall_mem_cons] at ih
    rw [List.forall_mem_cons]
    refine ⟨?_, ih.2⟩
    rw [List.mem_cons, not_or]
    exact ⟨fun h => hc h.symm, ih.1⟩

theorem components_iff {parts : List (List Char)} : Components text parts ↔ splitCommas text = parts := by
  constructor
  · rintro ⟨rfl, hparts, hfree⟩
    rw [splitCommas_eq]
    exact List.splitOn_intercalate ',' hfree hparts
  · rintro rfl
    refine ⟨?_, splitCommas_ne_nil text, comma_notMem_splitCommas text⟩
    rw [splitCommas_eq]
    exact (List.intercalate_splitOn ',').symm

/-- Which error counts for the parts of a text: that of the first part, else that of the second, else that there are
more. -/
inductive PairFault : List (List Char) → Error → Prop where
  | first {part : List Char} {rest : List (List Char)} {e : Error} :
    parse part = .error e → PairFault (part :: rest) e
  | second {first part : List Char} {rest : List (List Char)} {x : UInt64} {e : Error} :
    parse first = .ok x → parse part = .error e → PairFault (first :: part :: rest) e
  | more {first second part : List Char} {rest : List (List Char)} {x y : UInt64} :
    parse first = .ok x → parse second = .ok y → PairFault (first :: second :: part :: rest) .tooMany

theorem parsePair_one {first : List Char} (h : splitCommas text = [first]) :
    parsePair text = (parse first).map (·, 0) := by
  rw [parsePair, h]

theorem parsePair_more {first second : List Char} {rest : List (List Char)}
    (h : splitCommas text = first :: second :: rest) :
    parsePair text = (do
      let x ← parse first
      let y ← parse second
      if rest.isEmpty then return (x, y) else throw .tooMany) := by
  rw [parsePair, h]

theorem PairFault.parsePair_eq {parts : List (List Char)} {e : Error} (h : PairFault parts e)
    (hparts : splitCommas text = parts) : parsePair text = .error e := by
  cases h with
  | @first _ rest _ hx =>
    cases rest with
    | nil =>
      rw [parsePair_one hparts, hx]
      rfl
    | cons =>
      rw [parsePair_more hparts, hx]
      rfl
  | second hx hy =>
    rw [parsePair_more hparts, hx, hy]
    rfl
  | more hx hy =>
    rw [parsePair_more hparts, hx, hy]
    rfl

/-- What reading a pair can come to. -/
theorem parsePair_cases (text : List Char) :
    (∃ first x, splitCommas text = [first] ∧ parse first = .ok x ∧ parsePair text = .ok (x, 0)) ∨
    (∃ first second x y, splitCommas text = [first, second] ∧ parse first = .ok x ∧ parse second = .ok y ∧
      parsePair text = .ok (x, y)) ∨
    ∃ e, PairFault (splitCommas text) e ∧ parsePair text = .error e := by
  have hfault : ∀ {e}, PairFault (splitCommas text) e →
      ∃ e, PairFault (splitCommas text) e ∧ parsePair text = .error e := fun h => ⟨_, h, h.parsePair_eq rfl⟩
  rcases hparts : splitCommas text with _ | ⟨first, rest⟩
  · exact absurd hparts (splitCommas_ne_nil text)
  rw [hparts] at hfault
  cases hx : parse first with
  | error e => exact .inr (.inr (hfault (.first hx)))
  | ok x =>
    rcases rest with _ | ⟨second, rest⟩
    · refine .inl ⟨first, x, rfl, hx, ?_⟩
      rw [parsePair_one hparts, hx]
      rfl
    · cases hy : parse second with
      | error e => exact .inr (.inr (hfault (.second hx hy)))
      | ok y =>
        cases rest with
        | nil =>
          refine .inr (.inl ⟨first, second, x, y, rfl, hx, hy, ?_⟩)
          rw [parsePair_more hparts, hx, hy]
          rfl
        | cons => exact .inr (.inr (hfault (.more hx hy)))

theorem comma_notMem_of_continues {base value m : Nat} (hb : base ≤ 16) {digits : List Char}
    (h : Continues base value digits m) : ',' ∉ digits := by
  induction digits generalizing value with
  | nil => simp
  | cons c rest ih =>
    obtain ⟨d, hd, hrest⟩ := continues_cons.1 h
    rw [List.mem_cons, not_or]
    exact ⟨fun he => (isDigit_ne hb hd).2.2 he.symm, ih hrest⟩

theorem comma_notMem_of_standsFor {v : UInt64} (h : StandsFor text v) : ',' ∉ text := by
  obtain ⟨f, m, rfl, -, hdenotes, -, -⟩ := h
  have hdigits := comma_notMem_of_continues f.radix.base_le (denotes_iff.1 hdenotes)
  have hsign : ',' ∉ (if f.negative then ['-'] else []) := by cases f.negative <;> decide
  have hmark : ',' ∉ f.radix.mark := by cases f.radix <;> decide
  have hplus : ',' ∉ (if f.plus then ['+'] else []) := by cases f.plus <;> decide
  simp only [Form.text, List.mem_append, not_or]
  exact ⟨hsign, hmark, hplus, hdigits⟩

/-- No numeral has a comma in it, also among the blanks. -/
theorem comma_notMem {v : UInt64} (h : parse text = .ok v) : ',' ∉ text := by
  obtain ⟨before, after, htext, hblank⟩ := (trimmed_trim text).around
  have hcore := comma_notMem_of_standsFor (parse_ok_iff.1 h)
  have hout : ',' ∉ before ++ after := fun hmem => absurd (hblank _ hmem) (by decide)
  rw [htext]
  simp only [List.mem_append, not_or] at hout ⊢
  exact ⟨⟨hout.1, hcore⟩, hout.2⟩

theorem parsePair_ok_iff {x y : UInt64} :
    parsePair text = .ok (x, y) ↔
      parse text = .ok x ∧ y = 0 ∨
        ∃ first second, text = first ++ ',' :: second ∧ parse first = .ok x ∧ parse second = .ok y := by
  constructor
  · intro h
    rcases parsePair_cases text with ⟨first, v, hparts, hv, hpair⟩ | ⟨first, second, v, w, hparts, hv, hw, hpair⟩ |
      ⟨e, -, hpair⟩ <;> rw [hpair] at h <;> cases h
    · have htext : text = first := by simpa using (components_iff.2 hparts).joined
      exact .inl ⟨htext ▸ hv, rfl⟩
    · exact .inr ⟨first, second, by simpa using (components_iff.2 hparts).joined, hv, hw⟩
  · rintro (⟨h, rfl⟩ | ⟨first, second, rfl, hx, hy⟩)
    · have hone : Components text [text] := ⟨by simp, by simp, by simpa using comma_notMem h⟩
      rw [parsePair_one (components_iff.1 hone), h]
      rfl
    · have htwo : Components (first ++ ',' :: second) [first, second] :=
        ⟨by simp, by simp, by simpa using ⟨comma_notMem hx, comma_notMem hy⟩⟩
      rw [parsePair_more (components_iff.1 htwo), hx, hy]
      rfl

theorem parsePair_error_iff {e : Error} :
    parsePair text = .error e ↔ ∃ parts, Components text parts ∧ PairFault parts e := by
  constructor
  · intro h
    rcases parsePair_cases text with ⟨_, _, -, -, hpair⟩ | ⟨_, _, _, _, -, -, -, hpair⟩ | ⟨e', hfault, hpair⟩ <;>
      rw [hpair] at h <;> cases h
    exact ⟨splitCommas text, components_iff.2 rfl, hfault⟩
  · rintro ⟨parts, hparts, hfault⟩
    exact hfault.parsePair_eq (components_iff.1 hparts)

/-- A text is read as the numeral that it is apart from the blanks around it, and otherwise for the reason that it is
none; a text is read as a pair when it is one numeral, or two with a comma between them. -/
theorem numerals_exact (text : List Char) :
    Trimmed text (Text.trim text) ∧
    (∀ v, parse text = .ok v ↔ StandsFor (Text.trim text) v) ∧
    (∀ e, parse text = .error e ↔ ∃ fault, e = .invalid (Text.trim text) fault ∧ Fails (Text.trim text) fault) ∧
    (∀ x y, parsePair text = .ok (x, y) ↔
      parse text = .ok x ∧ y = 0 ∨
        ∃ first second, text = first ++ ',' :: second ∧ parse first = .ok x ∧ parse second = .ok y) ∧
    ∀ e, parsePair text = .error e ↔ ∃ parts, Components text parts ∧ PairFault parts e :=
  ⟨trimmed_trim text, fun _ => parse_ok_iff, fun _ => parse_error_iff, fun _ _ => parsePair_ok_iff,
    fun _ => parsePair_error_iff⟩

/-- The empty second part counts before there being a third. -/
example : parsePair [' ', '-', '0', 'x', '+', '0', 'F', ',', '\t', ',', '1'] = .error (.invalid [] .empty) := by
  rfl

end Numeral
end RippleCarry
