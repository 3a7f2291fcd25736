import Mathlib.Data.Nat.Digits.Defs
import RippleCarry.Numeral
/-!
# What numerals stand for

A `Form` is one way to write a numeral, and `Form.text` writes it down. `StandsFor`, `IsBare` and `Overflows`
say with it what a text stands for, that it has no digits at all, and that its digits are too many; they do not
say how a text is read. The reader gives exactly what a text stands for (`read_ok_iff`), and otherwise the fault that
it has (`read_fault_iff`).

`Form.of` takes a text apart the way the reader does, and `read_eq` says that the reader does nothing else but
to read the digits of that form. It is the only form whose digits begin with a digit (`Form.of_text`), so that
whatever can be said of a form with such digits is said of this one. What is left is to read digits, in
`readFrom_ok_iff` and `readFrom_tooLarge_iff`.
-/

namespace RippleCarry
namespace Numeral

/-! ## Written numerals -/

inductive Radix where
  | hexadecimal
  | binary
  | decimal
deriving DecidableEq, Repr

namespace Radix

def base : Radix → Nat
  | hexadecimal => 16
  | binary => 2
  | decimal => 10

def mark : Radix → List Char
  | hexadecimal => ['0', 'x']
  | binary => ['0', 'b']
  | decimal => []

theorem base_le (radix : Radix) : radix.base ≤ 16 := by cases radix <;> decide

theorem base_pos (radix : Radix) : 0 < radix.base := by cases radix <;> decide

end Radix

/-- A way to write a numeral. -/
structure Form where
  negative : Bool
  radix : Radix
  plus : Bool
  digits : List Char
deriving DecidableEq, Repr

/-- A minus or nothing, the radix mark, a plus or nothing, and the digits. -/
def Form.text (f : Form) : List Char :=
  (if f.negative then ['-'] else []) ++ (f.radix.mark ++ ((if f.plus then ['+'] else []) ++ f.digits))

/-- The character is a digit in the base, a letter in either case. -/
def IsDigit (base : Nat) (c : Char) (d : Nat) : Prop :=
  d < base ∧ (c = Nat.digitChar d ∨ c = (Nat.digitChar d).toUpper)

/-- The characters are digits of the number, the most significant first. -/
def Denotes (base : Nat) (digits : List Char) (m : Nat) : Prop :=
  ∃ ds, List.Forall₂ (IsDigit base) digits ds ∧ m = Nat.ofDigits base ds.reverse

/-- The text is a numeral of at most 64 bits, and the word is its value, or its negative in two's complement. -/
def StandsFor (text : List Char) (v : UInt64) : Prop :=
  ∃ (f : Form) (m : Nat), text = f.text ∧ f.digits ≠ [] ∧ Denotes f.radix.base f.digits m ∧ m < 2 ^ 64 ∧
    v.toNat = if f.negative then (2 ^ 64 - m) % 2 ^ 64 else m

/-- Nothing follows the sign and the radix mark. -/
def IsBare (text : List Char) : Prop := ∃ negative radix, text = Form.text ⟨negative, radix, false, []⟩

/-- The first so many characters after the sign, the radix mark and the plus are digits, and the number that they
make is past 64 bits already. -/
def Overflows (text : List Char) : Prop :=
  ∃ (f : Form) (lead : List Char) (m : Nat), text = f.text ∧ lead <+: f.digits ∧ Denotes f.radix.base lead m ∧ 2 ^ 64 ≤ m

/-! ## Digits -/

theorem lt_of_hexDigit? {c : Char} {d : Nat} (h : Text.hexDigit? c = some d) : c.toNat < 103 := by
  have hle : ∀ {a b : Char}, a ≤ b → a.toNat ≤ b.toNat := id
  unfold Text.hexDigit? at h
  split at h
  · next hc => exact Nat.lt_of_le_of_lt (hle hc.2) (by decide)
  · split at h
    · next hc => exact Nat.lt_of_le_of_lt (hle hc.2) (by decide)
    · split at h
      · next hc => exact Nat.lt_of_le_of_lt (hle hc.2) (by decide)
      · cases h

theorem hexDigit?_eq_some_iff {c : Char} {d : Nat} : Text.hexDigit? c = some d ↔ IsDigit 16 c d := by
  constructor
  · have hall : ∀ n < 103, ∀ d ∈ Text.hexDigit? (Char.ofNat n),
        d < 16 ∧ (Char.ofNat n = Nat.digitChar d ∨ Char.ofNat n = (Nat.digitChar d).toUpper) := by decide
    intro h
    have hc := hall c.toNat (lt_of_hexDigit? h) d
    rw [c.ofNat_toNat] at hc
    exact hc h
  · have hall : ∀ d < 16, Text.hexDigit? (Nat.digitChar d) = some d ∧
        Text.hexDigit? (Nat.digitChar d).toUpper = some d := by decide
    rintro ⟨hd, rfl | rfl⟩
    · exact (hall d hd).1
    · exact (hall d hd).2

theorem digit?_eq_some_iff {base : Nat} (hb : base ≤ 16) {c : Char} {d : Nat} :
    Text.digit? base c = some d ↔ IsDigit base c d := by
  rw [Text.digit?, Option.filter_eq_some_iff, hexDigit?_eq_some_iff, decide_eq_true_eq]
  constructor
  · rintro ⟨⟨-, hc⟩, hd⟩
    exact ⟨hd, hc⟩
  · rintro ⟨hd, hc⟩
    exact ⟨⟨by omega, hc⟩, hd⟩

theorem not_isDigit {base : Nat} (hb : base ≤ 16) {c : Char} (h : Text.digit? base c = none) (d : Nat) :
    ¬ IsDigit base c d := by
  rw [← digit?_eq_some_iff hb, h]
  simp

theorem isDigit_ne {base : Nat} (hb : base ≤ 16) {c : Char} {d : Nat} (h : IsDigit base c d) :
    c ≠ '+' ∧ c ≠ '-' ∧ c ≠ ',' := by
  have hc := (digit?_eq_some_iff (Nat.le_refl 16)).2 ⟨Nat.lt_of_lt_of_le h.1 hb, h.2⟩
  refine ⟨?_, ?_, ?_⟩ <;> rintro rfl <;> cases hc

/-- The characters are digits, and make up the number behind those that make up the value. -/
def Continues (base value : Nat) (digits : List Char) (m : Nat) : Prop :=
  ∃ ds, List.Forall₂ (IsDigit base) digits ds ∧ m = ds.foldl (fun n d => n * base + d) value

section Digits

variable {base value m : Nat} {c : Char} {rest : List Char}

theorem denotes_iff {digits : List Char} : Denotes base digits m ↔ Continues base 0 digits m := by
  have hvalue : ∀ ds : List Nat, Nat.ofDigits base ds.reverse = ds.foldl (fun n d => n * base + d) 0 := by
    intro ds
    rw [Nat.ofDigits_eq_foldr, List.foldr_reverse]
    simp [Nat.mul_comm, Nat.add_comm]
  simp only [Denotes, Continues, hvalue]

theorem continues_nil : Continues base value [] m ↔ m = value := by
  constructor
  · rintro ⟨_, hds, rfl⟩
    cases hds
    rfl
  · rintro rfl
    exact ⟨[], .nil, rfl⟩

theorem continues_cons :
    Continues base value (c :: rest) m ↔ ∃ d, IsDigit base c d ∧ Continues base (value * base + d) rest m := by
  constructor
  · rintro ⟨_, hds, rfl⟩
    cases hds with
    | @cons _ d _ ds hc hrest => exact ⟨d, hc, ds, hrest, rfl⟩
  · rintro ⟨d, hc, ds, hrest, rfl⟩
    exact ⟨d :: ds, .cons hc hrest, rfl⟩

/-- More digits never make a number smaller. -/
theorem le_of_continues (hb : 0 < base) {digits : List Char} (h : Continues base value digits m) : value ≤ m := by
  induction digits generalizing value with
  | nil => exact Nat.le_of_eq (continues_nil.1 h).symm
  | cons c rest ih =>
    obtain ⟨d, -, hrest⟩ := continues_cons.1 h
    have hstep : value ≤ value * base := Nat.le_mul_of_pos_right value hb
    have hmore := ih hrest
    omega

theorem readFrom_cons_none (h : Text.digit? base c = none) :
    readFrom base value (c :: rest) = .error .invalidDigit := by
  rw [readFrom, h]

theorem readFrom_cons_some {d : Nat} (h : Text.digit? base c = some d) :
    readFrom base value (c :: rest) =
      if value * base + d < 2 ^ 64 then readFrom base (value * base + d) rest else .error .tooLarge := by
  rw [readFrom, h]
  rfl

theorem continues_cons_of_digit (hb : base ≤ 16) {d : Nat} (h : Text.digit? base c = some d) :
    Continues base value (c :: rest) m ↔ Continues base (value * base + d) rest m := by
  rw [continues_cons]
  simp [← digit?_eq_some_iff hb, h]

theorem not_continues_of_none (hb : base ≤ 16) (h : Text.digit? base c = none) :
    ¬ Continues base value (c :: rest) m := by
  rw [continues_cons]
  rintro ⟨d, hd, -⟩
  exact not_isDigit hb h d hd

/-- Digits are read to the end exactly when all of them are digits and the number fits. -/
theorem readFrom_ok_iff (hpos : 0 < base) (hb : base ≤ 16) (hv : value < 2 ^ 64) {digits : List Char} :
    readFrom base value digits = .ok m ↔ Continues base value digits m ∧ m < 2 ^ 64 := by
  induction digits generalizing value with
  | nil =>
    rw [readFrom, continues_nil, Except.ok.injEq]
    constructor
    · rintro rfl
      exact ⟨rfl, hv⟩
    · rintro ⟨rfl, -⟩
      rfl
  | cons c rest ih =>
    cases hc : Text.digit? base c with
    | none =>
      rw [readFrom_cons_none hc]
      exact iff_of_false (by simp) fun h => not_continues_of_none hb hc h.1
    | some d =>
      rw [readFrom_cons_some hc, continues_cons_of_digit hb hc]
      split
      · next hlt => exact ih hlt
      · next hge =>
        refine iff_of_false (by simp) ?_
        rintro ⟨h, hm⟩
        have hle := le_of_continues hpos h
        omega

/-- Digits are too many exactly when those before the first other character are. -/
theorem readFrom_tooLarge_iff (hb : base ≤ 16) (hv : value < 2 ^ 64) {digits : List Char} :
    readFrom base value digits = .error .tooLarge ↔
      ∃ lead m, lead <+: digits ∧ Continues base value lead m ∧ 2 ^ 64 ≤ m := by
  induction digits generalizing value with
  | nil =>
    refine iff_of_false (by simp [readFrom]) ?_
    rintro ⟨lead, m, hlead, h, hm⟩
    rw [List.prefix_nil.1 hlead, continues_nil] at h
    omega
  | cons c rest ih =>
    -- What is read so far fits, so the characters that are too many include this one.
    have hlead : (∃ lead m, lead <+: c :: rest ∧ Continues base value lead m ∧ 2 ^ 64 ≤ m) ↔
        ∃ lead m, lead <+: rest ∧ Continues base value (c :: lead) m ∧ 2 ^ 64 ≤ m := by
      constructor
      · rintro ⟨lead, m, hlead, h, hm⟩
        rcases List.prefix_cons_iff.1 hlead with rfl | ⟨more, rfl, hmore⟩
        · rw [continues_nil] at h
          omega
        · exact ⟨more, m, hmore, h, hm⟩
      · rintro ⟨lead, m, hlead, h, hm⟩
        exact ⟨c :: lead, m, (List.prefix_cons_inj c).2 hlead, h, hm⟩
    rw [hlead]
    cases hc : Text.digit? base c with
    | none =>
      rw [readFrom_cons_none hc]
      refine iff_of_false (by simp) ?_
      rintro ⟨lead, m, -, h, -⟩
      exact not_continues_of_none hb hc h
    | some d =>
      simp only [readFrom_cons_some hc, continues_cons_of_digit hb hc]
      split
      · next hlt => exact ih hlt
      · next hge =>
        exact iff_of_true rfl ⟨[], _, List.nil_prefix, continues_nil.2 rfl, Nat.le_of_not_lt hge⟩

theorem readFrom_ne_empty (digits : List Char) : readFrom base value digits ≠ .error .empty := by
  induction digits generalizing value with
  | nil => simp [readFrom]
  | cons c rest ih =>
    cases hc : Text.digit? base c with
    | none => simp [readFrom_cons_none hc]
    | some d =>
      rw [readFrom_cons_some hc]
      split
      · exact ih
      · simp

end Digits

/-! ## The form that is read -/

def splitSign : List Char → Bool × List Char
  | '-' :: rest => (true, rest)
  | rest => (false, rest)

def splitMark : List Char → Radix × List Char
  | '0' :: 'x' :: rest => (.hexadecimal, rest)
  | '0' :: 'b' :: rest => (.binary, rest)
  | rest => (.decimal, rest)

def splitPlus : List Char → Bool × List Char
  | '+' :: rest => (true, rest)
  | rest => (false, rest)

/-- A text taken apart, with a sign, a radix mark and a plus wherever there is one. -/
def Form.of (text : List Char) : Form :=
  let signed := splitSign text
  let marked := splitMark signed.2
  let plussed := splitPlus marked.2
  ⟨signed.1, marked.1, plussed.1, plussed.2⟩

theorem splitSign_text (text : List Char) :
    (if (splitSign text).1 then ['-'] else []) ++ (splitSign text).2 = text := by
  unfold splitSign
  split <;> rfl

theorem splitMark_text (text : List Char) : (splitMark text).1.mark ++ (splitMark text).2 = text := by
  unfold splitMark
  split <;> rfl

theorem splitPlus_text (text : List Char) :
    (if (splitPlus text).1 then ['+'] else []) ++ (splitPlus text).2 = text := by
  unfold splitPlus
  split <;> rfl

theorem Form.text_of (text : List Char) : (Form.of text).text = text := by
  rw [Form.text, Form.of, splitPlus_text, splitMark_text, splitSign_text]

/-- The form is written so that its digits do not run into what is before them. -/
structure Form.Apart (f : Form) : Prop where
  starts : ∃ c rest d, f.digits = c :: rest ∧ IsDigit f.radix.base c d
  unmarked : f.radix = .decimal → ∀ rest, f.digits ≠ '0' :: 'x' :: rest ∧ f.digits ≠ '0' :: 'b' :: rest

theorem splitPlus_other {rest : List Char} (h : ∀ r, rest ≠ '+' :: r) : splitPlus rest = (false, rest) := by
  unfold splitPlus
  split
  · exact absurd rfl (h _)
  · rfl

theorem splitMark_other {rest : List Char} (hx : ∀ r, rest ≠ '0' :: 'x' :: r) (hb : ∀ r, rest ≠ '0' :: 'b' :: r) :
    splitMark rest = (.decimal, rest) := by
  unfold splitMark
  split
  · exact absurd rfl (hx _)
  · exact absurd rfl (hb _)
  · rfl

theorem splitSign_other {rest : List Char} (h : ∀ r, rest ≠ '-' :: r) : splitSign rest = (false, rest) := by
  unfold splitSign
  split
  · exact absurd rfl (h _)
  · rfl

theorem Form.of_text {f : Form} (h : f.Apart) : Form.of f.text = f := by
  obtain ⟨negative, radix, plus, digits⟩ := f
  obtain ⟨⟨c, rest, d, rfl, hc⟩, hunmarked⟩ := h
  obtain ⟨hplus, hminus, -⟩ := isDigit_ne radix.base_le hc
  have hp : splitPlus ((if plus then ['+'] else []) ++ c :: rest) = (plus, c :: rest) := by
    cases plus
    · exact splitPlus_other fun r he => hplus (List.cons.inj he).1
    · rfl
  have hm : splitMark (radix.mark ++ ((if plus then ['+'] else []) ++ c :: rest)) =
      (radix, (if plus then ['+'] else []) ++ c :: rest) := by
    cases radix with
    | hexadecimal => rfl
    | binary => rfl
    | decimal =>
      cases plus
      · exact splitMark_other (fun r => (hunmarked rfl r).1) fun r => (hunmarked rfl r).2
      · exact splitMark_other (by simp [Radix.mark]) (by simp [Radix.mark])
  have hs : splitSign ((if negative then ['-'] else []) ++
      (radix.mark ++ ((if plus then ['+'] else []) ++ c :: rest))) =
      (negative, radix.mark ++ ((if plus then ['+'] else []) ++ c :: rest)) := by
    cases negative
    · refine splitSign_other fun r he => ?_
      cases radix <;> cases plus <;> simp [Radix.mark, hminus] at he
    · rfl
  rw [Form.text, Form.of, hs, hm, hp]

/-- Reads the digits of a form. -/
def readForm (f : Form) : Except Fault Nat :=
  if f.digits = [] then .error (if f.plus then .invalidDigit else .empty) else readFrom f.radix.base 0 f.digits

theorem readUnsigned_eq (base : Nat) (text : List Char) :
    readUnsigned base text =
      if (splitPlus text).2 = [] then .error (if (splitPlus text).1 then .invalidDigit else .empty)
      else readFrom base 0 (splitPlus text).2 := by
  unfold readUnsigned
  split
  · rfl
  · rfl
  · next digits h =>
    have hdigits : digits ≠ [] := fun he => h (by rw [he])
    exact (if_neg hdigits).symm
  · next hne _ hplus =>
    rw [splitPlus_other hplus]
    exact (if_neg hne).symm

theorem readMagnitude_eq (text : List Char) :
    readMagnitude text = readUnsigned (splitMark text).1.base (splitMark text).2 := by
  unfold readMagnitude
  split
  · rfl
  · rfl
  · next hx hb =>
    rw [splitMark_other hx hb]
    rfl

/-- A text is read as the form that it is taken apart into. -/
theorem read_eq (text : List Char) :
    read text = (readForm (Form.of text)).map fun m =>
      if (Form.of text).negative then -m.toUInt64 else m.toUInt64 := by
  have hsign : read text = (readMagnitude (splitSign text).2).map fun m =>
      if (splitSign text).1 then -m.toUInt64 else m.toUInt64 := by
    unfold read
    split
    · rfl
    · next h =>
      rw [splitSign_other h]
      rfl
  rw [hsign, readMagnitude_eq, readUnsigned_eq]
  rfl

/-! ## What a reading says -/

/-- Digits that make up a number do not run into what is before them, if they are all there are or the number is
not 0. -/
theorem Form.apart {f : Form} {lead : List Char} {m : Nat} (hlead : lead <+: f.digits)
    (h : Denotes f.radix.base lead m) (hlong : lead = f.digits ∧ lead ≠ [] ∨ 0 < m) : f.Apart := by
  rw [denotes_iff] at h
  constructor
  · cases lead with
    | nil =>
      have hm := continues_nil.1 h
      exact absurd hlong (by simp [hm])
    | cons c rest =>
      obtain ⟨tail, htail⟩ := hlead
      obtain ⟨d, hd, -⟩ := continues_cons.1 h
      exact ⟨c, rest ++ tail, d, htail.symm, hd⟩
  · intro hdecimal
    rw [hdecimal] at h
    -- A zero before a letter is the whole of the number, and the letter is left over.
    have hmark : ∀ {mark : Char} {rest : List Char}, Text.digit? 10 mark = none → f.digits ≠ '0' :: mark :: rest := by
      intro mark rest hnone he
      rw [he] at hlead hlong
      rcases List.prefix_cons_iff.1 hlead with rfl | ⟨more, rfl, hmore⟩
      · have hm := continues_nil.1 h
        exact absurd hlong (by simp [hm])
      · have hzero := (continues_cons_of_digit (by decide) (show Text.digit? 10 '0' = some 0 from rfl)).1 h
        rcases List.prefix_cons_iff.1 hmore with rfl | ⟨_, rfl, -⟩
        · have hm := continues_nil.1 hzero
          exact absurd hlong (by simp [hm])
        · exact not_continues_of_none (by decide) hnone hzero
    exact fun rest => ⟨hmark rfl, hmark rfl⟩

section Forms

variable {f : Form} {m : Nat}

theorem readForm_ok_iff :
    readForm f = .ok m ↔ f.digits ≠ [] ∧ Denotes f.radix.base f.digits m ∧ m < 2 ^ 64 := by
  rw [readForm, denotes_iff]
  split
  · next hnil => exact iff_of_false (by simp) fun h => h.1 hnil
  · next hdigits =>
    rw [readFrom_ok_iff f.radix.base_pos f.radix.base_le (by decide)]
    exact (and_iff_right hdigits).symm

theorem readForm_tooLarge_iff :
    readForm f = .error .tooLarge ↔
      ∃ lead m, lead <+: f.digits ∧ Denotes f.radix.base lead m ∧ 2 ^ 64 ≤ m := by
  simp only [readForm, denotes_iff]
  split
  · next hnil =>
    refine iff_of_false (by split <;> simp) ?_
    rintro ⟨lead, m, hlead, h, hm⟩
    rw [hnil, List.prefix_nil] at hlead
    rw [hlead, continues_nil] at h
    omega
  · exact readFrom_tooLarge_iff f.radix.base_le (by decide)

theorem readForm_empty_iff : readForm f = .error .empty ↔ f.plus = false ∧ f.digits = [] := by
  rw [readForm]
  split
  · next hnil => cases f.plus <;> simp [hnil]
  · next hdigits => exact iff_of_false (readFrom_ne_empty f.digits) fun h => hdigits h.2

end Forms

variable {text : List Char}

theorem word_eq_iff {negative : Bool} {m : Nat} {v : UInt64} (hm : m < 2 ^ 64) :
    (if negative then -m.toUInt64 else m.toUInt64) = v ↔
      v.toNat = if negative then (2 ^ 64 - m) % 2 ^ 64 else m := by
  have hword : m.toUInt64.toNat = m := Nat.mod_eq_of_lt hm
  rw [← UInt64.toNat_inj, eq_comm]
  cases negative with
  | false => rw [if_neg Bool.false_ne_true, if_neg Bool.false_ne_true, hword]
  | true =>
    rw [if_pos rfl, if_pos rfl, UInt64.toNat_neg, hword]
    exact Iff.rfl

theorem read_ok_iff {v : UInt64} : read text = .ok v ↔ StandsFor text v := by
  rw [read_eq]
  constructor
  · intro h
    cases hform : readForm (Form.of text) with
    | error fault =>
      rw [hform] at h
      cases h
    | ok m =>
      rw [hform] at h
      obtain ⟨hdigits, hdenotes, hm⟩ := readForm_ok_iff.1 hform
      exact ⟨Form.of text, m, (Form.text_of text).symm, hdigits, hdenotes, hm,
        (word_eq_iff hm).1 (Except.ok.inj h)⟩
  · rintro ⟨f, m, rfl, hdigits, hdenotes, hm, hv⟩
    have hapart : f.Apart := Form.apart List.prefix_rfl hdenotes (.inl ⟨rfl, hdigits⟩)
    rw [Form.of_text hapart, readForm_ok_iff.2 ⟨hdigits, hdenotes, hm⟩]
    exact congrArg Except.ok ((word_eq_iff hm).2 hv)

theorem read_error_iff {fault : Fault} : read text = .error fault ↔ readForm (Form.of text) = .error fault := by
  rw [read_eq]
  cases readForm (Form.of text) <;> simp [Except.map]

theorem read_tooLarge_iff : read text = .error .tooLarge ↔ Overflows text := by
  rw [read_error_iff, readForm_tooLarge_iff]
  constructor
  · rintro ⟨lead, m, h⟩
    exact ⟨Form.of text, lead, m, (Form.text_of text).symm, h⟩
  · rintro ⟨f, lead, m, rfl, hlead, hdenotes, hm⟩
    have hapart : f.Apart := Form.apart hlead hdenotes (.inr (by omega))
    rw [Form.of_text hapart]
    exact ⟨lead, m, hlead, hdenotes, hm⟩

theorem read_empty_iff : read text = .error .empty ↔ IsBare text := by
  rw [read_error_iff, readForm_empty_iff]
  constructor
  · rintro ⟨hplus, hdigits⟩
    refine ⟨(Form.of text).negative, (Form.of text).radix, ?_⟩
    rw [← hplus, ← hdigits]
    exact (Form.text_of text).symm
  · rintro ⟨negative, radix, rfl⟩
    cases negative <;> cases radix <;> decide

/-- Why a text is no numeral. -/
def Fails (text : List Char) : Fault → Prop
  | .empty => IsBare text
  | .tooLarge => Overflows text
  | .invalidDigit => ¬ IsBare text ∧ ¬ Overflows text ∧ ∀ v, ¬ StandsFor text v

theorem read_fault_iff {fault : Fault} : read text = .error fault ↔ Fails text fault := by
  cases fault with
  | empty => exact read_empty_iff
  | tooLarge => exact read_tooLarge_iff
  | invalidDigit =>
    rw [Fails, ← read_empty_iff, ← read_tooLarge_iff]
    simp only [← read_ok_iff]
    cases read text with
    | ok v => simp
    | error other => cases other <;> simp

end Numeral
end RippleCarry
