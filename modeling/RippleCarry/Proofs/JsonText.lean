import RippleCarry.Json.Reader
/-!
# Reading back JSON

Every reader takes something off the front of a text, so each lemma is about a written form with any rest
behind it. Only a number can run on into the rest: `EndsNumber` says that it does not.

`Json.Plain.readsBack`: a value that is written with any layout reads back as itself, and leaves the rest.
`Json.Plain.parse?_render`: so does the whole text of a value, with blanks behind it.
-/

namespace RippleCarry

/-! ## Digits -/

namespace Text

theorem digit?_digitChar {d : Nat} (h : d < 10) : digit? 10 (Nat.digitChar d) = some d := by
  have hall : ∀ d < 10, digit? 10 (Nat.digitChar d) = some d := by decide
  exact hall d h

theorem isDigit_toDigits (n : Nat) : ∀ c ∈ Nat.toDigits 10 n, isDigit 10 c := by
  induction n using Nat.strongRecOn with
  | ind n ih =>
    intro c hc
    rw [Nat.toDigits_eq_if (by decide)] at hc
    split at hc
    · next hn =>
      rw [List.mem_singleton.1 hc, isDigit, digit?_digitChar hn]
      rfl
    · next hn =>
      rcases List.mem_append.1 hc with hc | hc
      · exact ih (n / 10) (by omega) c hc
      · rw [List.mem_singleton.1 hc, isDigit, digit?_digitChar (by omega)]
        rfl

theorem natOfDigits_toDigits (n : Nat) : natOfDigits 10 (Nat.toDigits 10 n) = n := by
  induction n using Nat.strongRecOn with
  | ind n ih =>
    rw [Nat.toDigits_eq_if (by decide)]
    split
    · next hn => simp [natOfDigits, digit?_digitChar hn]
    · next hn =>
      rw [natOfDigits_append_singleton, ih (n / 10) (by omega), digit?_digitChar (by omega), Option.getD_some]
      omega

theorem head?_toDigits {n : Nat} (h : 0 < n) : (Nat.toDigits 10 n).head? ≠ some '0' := by
  induction n using Nat.strongRecOn with
  | ind n ih =>
    rw [Nat.toDigits_eq_if (by decide)]
    split
    · next hn =>
      simp only [List.head?_cons, ne_eq, Option.some.injEq, Nat.digitChar_eq_zero]
      omega
    · next hn =>
      rw [List.head?_append, Option.or_of_isSome (by simp [Nat.toDigits_ne_nil])]
      exact ih (n / 10) (by omega) (by omega)

end Text

namespace Json

/-! ## Blanks -/

theorem skipBlanks_append {gap : List Char} (h : ∀ c ∈ gap, isBlank c) (text : List Char) :
    skipBlanks (gap ++ text) = skipBlanks text :=
  List.dropWhile_append_of_pos h

theorem skipBlanks_cons {c : Char} (h : isBlank c = false) (text : List Char) : skipBlanks (c :: text) = c :: text := by
  rw [skipBlanks, List.dropWhile_cons_of_neg (by simp [h])]

/-! ## Strings -/

theorem hexDigit?_digitChar {d : Nat} (h : d < 16) : Text.hexDigit? (Nat.digitChar d) = some d := by
  have hall : ∀ d < 16, Text.hexDigit? (Nat.digitChar d) = some d := by decide
  exact hall d h

theorem ofUnit_toNat {c : Char} (h : c.toNat < 0x20) : Element.ofUnit c.toNat = .char c := by
  rw [Element.ofUnit, if_neg (by omega), Char.ofNat_toNat]

theorem readElements_cons {c : Char} (hquote : c ≠ '"') (hslash : c ≠ '\\') (hc : ¬c.toNat < 0x20)
    (text : List Char) :
    readElements (c :: text) =
      (readElements text).map fun (elements, rest) => (.char c :: elements, rest) := by
  rw [readElements]
  · rw [if_neg (by simp [hslash, hc])]
    cases readElements text <;> rfl
  · exact hquote
  · intro _ _ _ _ _ h
    exact absurd h hslash
  · intro _ _ h
    exact absurd h hslash

theorem readElements_unescape {e c : Char} (h : unescape? e = some c) (text : List Char) :
    readElements ('\\' :: e :: text) =
      (readElements text).map fun (elements, rest) => (.char c :: elements, rest) := by
  rw [readElements]
  · rw [h]
    cases readElements text <;> rfl
  · -- a `u` is no letter of its own
    intro _ _ _ _ _ he
    rw [he] at h
    exact absurd h (by simp [unescape?])

/-- An escaped character reads back as itself. -/
theorem readElements_escapeChar (c : Char) (text : List Char) :
    readElements (escapeChar c ++ text) =
      (readElements text).map fun (elements, rest) => (.char c :: elements, rest) := by
  unfold escapeChar
  split
  case h_8 =>
    next hquote hslash _ _ _ _ _ =>
    split
    · next hc =>
      have hhigh := hexDigit?_digitChar (d := c.toNat / 16) (by omega)
      have hlow := hexDigit?_digitChar (d := c.toNat % 16) (by omega)
      have hzero : Text.hexDigit? '0' = some 0 := by decide
      have hcode : (0 * 16 + 0) * 256 + (c.toNat / 16 * 16 + c.toNat % 16) = c.toNat := by omega
      simp only [List.cons_append, List.nil_append, readElements, hzero, hhigh, hlow, Option.bind_eq_bind,
        Option.bind_some, hcode, ofUnit_toNat hc]
      cases readElements text <;> rfl
    · next hc => exact readElements_cons hquote hslash hc text
  all_goals exact readElements_unescape rfl text

theorem readElements_flatMap (chars rest : List Char) :
    readElements (chars.flatMap escapeChar ++ '"' :: rest) = some (chars.map .char, rest) := by
  induction chars with
  | nil => simp [readElements]
  | cons c chars ih => rw [List.flatMap_cons, List.append_assoc, readElements_escapeChar, ih]; rfl

theorem assemble_map_char (chars : List Char) : assemble (chars.map .char) = some chars := by
  induction chars with
  | nil => rfl
  | cons c chars ih => rw [List.map_cons, assemble, ih]; rfl

/-- A string literal reads back as its content, also one that has no text. -/
theorem readString_quote (content : Option String) :
    ∃ body, quote content = '"' :: body ∧ ∀ rest, readString (body ++ rest) = some (content, rest) := by
  cases content with
  | none => exact ⟨_, rfl, fun rest => by simp [readString, readElements, Text.hexDigit?, Element.ofUnit, assemble]⟩
  | some s =>
    refine ⟨s.toList.flatMap escapeChar ++ ['"'], rfl, fun rest => ?_⟩
    rw [List.append_assoc, List.singleton_append, readString, readElements_flatMap]
    simp [assemble_map_char]

/-! ## Numbers -/

/-- No number that stands in front of the text goes on in it. -/
def EndsNumber (text : List Char) : Prop :=
  ∀ c ∈ text.head?, Text.isDigit 10 c = false ∧ c ≠ '.' ∧ c ≠ 'e' ∧ c ≠ 'E'

theorem endsNumber_cons {c : Char} (h : c ∈ [',', ']', '\x7d', ' ', '\t', '\n', '\r']) (text : List Char) :
    EndsNumber (c :: text) := by
  intro d hd
  obtain rfl : c = d := by simpa using hd
  simp only [List.mem_cons, List.not_mem_nil, or_false] at h
  rcases h with rfl | rfl | rfl | rfl | rfl | rfl | rfl <;> decide

theorem mem_blanks {c : Char} (h : isBlank c) : c ∈ [' ', '\t', '\n', '\r'] := by
  simpa [isBlank, or_assoc] using h

theorem EndsNumber.append {gap text : List Char} (hgap : ∀ c ∈ gap, isBlank c) (h : EndsNumber text) :
    EndsNumber (gap ++ text) := by
  cases gap with
  | nil => exact h
  | cons c gap =>
    have hc := mem_blanks (hgap c (by simp))
    exact endsNumber_cons (by grind) _

theorem readDigits_append {digits rest : List Char} (hne : digits ≠ []) (hd : ∀ c ∈ digits, Text.isDigit 10 c)
    (h : EndsNumber rest) : readDigits (digits ++ rest) = some (digits, rest) := by
  have htake : rest.takeWhile (Text.isDigit 10) = [] := by
    cases rest with
    | nil => rfl
    | cons c rest => rw [List.takeWhile_cons_of_neg (by simp [(h c rfl).1])]
  have hdrop : rest.dropWhile (Text.isDigit 10) = rest := by
    cases rest with
    | nil => rfl
    | cons c rest => rw [List.dropWhile_cons_of_neg (by simp [(h c rfl).1])]
  rw [readDigits, List.takeWhile_append_of_pos hd, List.dropWhile_append_of_pos hd, htake, hdrop, List.append_nil]
  cases digits with
  | nil => exact absurd rfl hne
  | cons => rfl

theorem readWhole_toDigits (n : Nat) {rest : List Char} (h : EndsNumber rest) :
    readWhole (Nat.toDigits 10 n ++ rest) = some (Nat.toDigits 10 n, rest) := by
  rw [readWhole, readDigits_append Nat.toDigits_ne_nil (Text.isDigit_toDigits n) h]
  simp only [Option.bind_eq_bind, Option.bind_some]
  split
  · next heq =>
    have hdigits := (Prod.mk.inj heq).1
    rcases Nat.eq_zero_or_pos n with rfl | hn
    · simp at hdigits
    · exact absurd (by rw [hdigits]; rfl) (Text.head?_toDigits hn)
  · rfl

theorem readFraction_of_ends {text : List Char} (h : EndsNumber text) : readFraction text = some ([], text) := by
  unfold readFraction
  split
  · exact absurd rfl (h '.' rfl).2.1
  · rfl

theorem readExponent_of_ends {text : List Char} (h : EndsNumber text) : readExponent text = some ([], text) := by
  cases text with
  | nil => rfl
  | cons c text => rw [readExponent, if_neg (by simp [h c rfl])]

theorem readNumber_toDigits (n : Nat) {rest : List Char} (h : EndsNumber rest) :
    readNumber (Nat.toDigits 10 n ++ rest) = some (.nat n, rest) := by
  have hminus : ∀ t, Nat.toDigits 10 n ++ rest ≠ '-' :: t := by
    intro t ht
    obtain ⟨d, ds, hds⟩ := List.exists_cons_of_ne_nil (Nat.toDigits_ne_nil (b := 10) (n := n))
    have hd := Text.isDigit_toDigits n d (by simp [hds])
    rw [hds, List.cons_append] at ht
    rw [(List.cons.inj ht).1] at hd
    exact absurd hd (by decide)
  unfold readNumber
  split
  next minus tail heq =>
  split at heq
  · next t ht => exact absurd ht (hminus t)
  · cases heq
    simp [readWhole_toDigits n h, readFraction_of_ends h, readExponent_of_ends h, Text.natOfDigits_toDigits]

/-! ## Values -/

/-- A layout that puts only blanks between the tokens. -/
structure Layout.Blank (l : Layout) : Prop where
  gap : ∀ depth, ∀ c ∈ l.gap depth, isBlank c
  afterColon : ∀ c ∈ l.afterColon, isBlank c

theorem Layout.compact_blank : Layout.compact.Blank := by
  constructor <;> simp [Layout.compact]

theorem Layout.pretty_blank : Layout.pretty.Blank := by
  constructor
  · intro depth c hc
    rcases List.mem_cons.1 hc with rfl | hc
    · rfl
    · rw [List.eq_of_mem_replicate hc]
      rfl
  · intro c hc
    rw [List.mem_singleton.1 hc]
    rfl

/-- A value whose numbers are all plain digits. -/
inductive Plain : Json → Prop where
  | null : Plain .null
  | bool (b : Bool) : Plain (.bool b)
  | nat (n : Nat) : Plain (.number (.nat n))
  | string (content : Option String) : Plain (.string content)
  | array {items : List Json} (h : ∀ j ∈ items, Plain j) : Plain (.array items)
  | object {members : List (Option String × Json)} (h : ∀ m ∈ members, Plain m.2) : Plain (.object members)

theorem isBlank_of_isDigit {c : Char} (h : Text.isDigit 10 c) : isBlank c = false := by
  cases hc : isBlank c with
  | false => rfl
  | true =>
    have hmem := mem_blanks hc
    simp only [List.mem_cons, List.not_mem_nil, or_false] at hmem
    rcases hmem with rfl | rfl | rfl | rfl <;> exact absurd h (by decide)

/-- The text of a value begins with a token, and not with the end of an array. -/
theorem Plain.render_head {j : Json} (h : j.Plain) (l : Layout) (depth : Nat) :
    ∃ c text, j.render l depth = c :: text ∧ isBlank c = false ∧ c ≠ ']' := by
  cases h with
  | null => exact ⟨_, _, by rw [render]; rfl, by decide, by decide⟩
  | bool b => cases b <;> exact ⟨_, _, by rw [render]; rfl, by decide, by decide⟩
  | nat n =>
    obtain ⟨d, ds, hds⟩ := List.exists_cons_of_ne_nil (Nat.toDigits_ne_nil (b := 10) (n := n))
    have hd := Text.isDigit_toDigits n d (by simp [hds])
    refine ⟨d, ds, by rw [render, Number.render, hds], isBlank_of_isDigit hd, ?_⟩
    rintro rfl
    exact absurd hd (by decide)
  | string content =>
    obtain ⟨body, hbody, -⟩ := readString_quote content
    exact ⟨_, body, by rw [render, hbody], by decide, by decide⟩
  | @array items _ =>
    cases items with
    | nil => exact ⟨'[', [']'], by rw [render], by decide, by decide⟩
    | cons => exact ⟨'[', _, by rw [render]; rfl, by decide, by decide⟩
  | @object members _ =>
    cases members with
    | nil => exact ⟨'\x7b', ['\x7d'], by rw [render], by decide, by decide⟩
    | cons => exact ⟨'\x7b', _, by rw [render]; rfl, by decide, by decide⟩

theorem readValue_append {gap : List Char} (h : ∀ c ∈ gap, isBlank c) (depth : Nat) (text : List Char) :
    readValue depth (gap ++ text) = readValue depth text := by
  rw [readValue.eq_def, readValue.eq_def depth text, skipBlanks_append h]

theorem readValue_digit {d : Char} (h : Text.isDigit 10 d) (depth : Nat) (text : List Char) :
    readValue depth (d :: text) = (readNumber (d :: text)).map fun (n, rest) => (.number n, rest) := by
  rw [readValue.eq_def, skipBlanks_cons (isBlank_of_isDigit h)]
  split
  case h_7 => cases readNumber (d :: text) <;> rfl
  all_goals
    next heq =>
    rw [(List.cons.inj heq).1] at h
    exact absurd h (by decide)

/-- Every text of the value reads back as the value, as long as a number at its end is over. -/
def ReadsBack (l : Layout) (j : Json) : Prop :=
  ∀ level depth rest, (j.render l level).length ≤ depth → EndsNumber rest →
    readValue depth (j.render l level ++ rest) = some (j, rest)

theorem length_le_renderItems (l : Layout) (level : Nat) (items : List Json) :
    items.length ≤ (renderItems l level items).length := by
  induction items with
  | nil => exact Nat.zero_le _
  | cons item items ih =>
    simp only [renderItems, List.length_append, List.length_cons]
    omega

theorem length_le_renderMembers (l : Layout) (level : Nat) (members : List (Option String × Json)) :
    members.length ≤ (renderMembers l level members).length := by
  induction members with
  | nil => exact Nat.zero_le _
  | cons m members ih =>
    obtain ⟨key, value⟩ := m
    simp only [renderMembers, List.length_append, List.length_cons]
    omega

theorem readKey_quote {gap : List Char} (hgap : ∀ c ∈ gap, isBlank c) (key : Option String) (text : List Char) :
    readKey (gap ++ (quote key ++ ':' :: text)) = some (key, text) := by
  obtain ⟨body, hbody, hread⟩ := readString_quote key
  rw [readKey, skipBlanks_append hgap, hbody, List.cons_append, skipBlanks_cons (by decide)]
  simp only [hread, Option.bind_eq_bind, Option.bind_some, skipBlanks_cons (show isBlank ':' = false by decide)]
  rfl

theorem readArray_append {gap : List Char} (hgap : ∀ c ∈ gap, isBlank c) {c : Char} (hblank : isBlank c = false)
    (hclose : c ≠ ']') (value : ValueReader) (text : List Char) :
    readArray value (gap ++ c :: text) = do
      let (first, rest) ← value (c :: text)
      let (items, rest) ← readItems value (rest.length + 1) rest
      return (.array (first :: items), rest) := by
  rw [readArray, skipBlanks_append hgap, skipBlanks_cons hblank]
  split
  · next heq => exact absurd (List.cons.inj heq).1 hclose
  · rfl

theorem readObject_append {gap : List Char} (hgap : ∀ c ∈ gap, isBlank c) (value : ValueReader) (text : List Char) :
    readObject value (gap ++ '"' :: text) = do
      let (key, rest) ← readKey ('"' :: text)
      let (first, rest) ← value rest
      let (members, rest) ← readMembers value (rest.length + 1) rest
      return (.object ((key, first) :: members), rest) := by
  rw [readObject, skipBlanks_append hgap, skipBlanks_cons (by decide)]
  rfl

section Layouts

variable {l : Layout} (hl : l.Blank)
include hl

theorem endsNumber_items (level outer : Nat) (items : List Json) (rest : List Char) :
    EndsNumber (renderItems l level items ++ (l.gap outer ++ ']' :: rest)) := by
  cases items with
  | nil =>
    rw [renderItems, List.nil_append]
    exact EndsNumber.append (hl.gap outer) (endsNumber_cons (by decide) rest)
  | cons => exact endsNumber_cons (by decide) _

theorem endsNumber_members (level outer : Nat) (members : List (Option String × Json)) (rest : List Char) :
    EndsNumber (renderMembers l level members ++ (l.gap outer ++ '\x7d' :: rest)) := by
  cases members with
  | nil =>
    rw [renderMembers, List.nil_append]
    exact EndsNumber.append (hl.gap outer) (endsNumber_cons (by decide) rest)
  | cons => exact endsNumber_cons (by decide) _

theorem readItems_render (level outer : Nat) (rest : List Char) {depth fuel : Nat} {items : List Json}
    (hitems : ∀ j ∈ items, ReadsBack l j) (hdepth : (renderItems l level items).length ≤ depth)
    (hfuel : items.length < fuel) :
    readItems (readValue depth) fuel (renderItems l level items ++ (l.gap outer ++ ']' :: rest)) =
      some (items, rest) := by
  -- an item costs one unit of fuel, and none of the depth, which all items share
  induction items generalizing fuel with
  | nil =>
    obtain ⟨fuel, rfl⟩ := Nat.exists_eq_succ_of_ne_zero (Nat.ne_of_gt hfuel)
    rw [readItems, renderItems, List.nil_append, skipBlanks_append (hl.gap outer), skipBlanks_cons (by decide)]
    rfl
  | cons item items ih =>
    obtain ⟨fuel, rfl⟩ := Nat.exists_eq_succ_of_ne_zero (Nat.ne_of_gt (Nat.zero_lt_of_lt hfuel))
    simp only [renderItems, List.length_append, List.length_cons] at hdepth hfuel
    have hitem := hitems item (by simp) level depth _ (by omega) (endsNumber_items hl level outer items rest)
    have hrest := ih (fun j hj => hitems j (by simp [hj])) (by omega) (show items.length < fuel by omega)
    simp only [renderItems, List.cons_append, List.append_assoc]
    rw [readItems, skipBlanks_cons (by decide)]
    simp only [readValue_append (hl.gap level), hitem, hrest, Option.bind_eq_bind, Option.bind_some]
    rfl

theorem readMembers_render (level outer : Nat) (rest : List Char) {depth fuel : Nat}
    {members : List (Option String × Json)} (hmembers : ∀ m ∈ members, ReadsBack l m.2)
    (hdepth : (renderMembers l level members).length ≤ depth) (hfuel : members.length < fuel) :
    readMembers (readValue depth) fuel (renderMembers l level members ++ (l.gap outer ++ '\x7d' :: rest)) =
      some (members, rest) := by
  induction members generalizing fuel with
  | nil =>
    obtain ⟨fuel, rfl⟩ := Nat.exists_eq_succ_of_ne_zero (Nat.ne_of_gt hfuel)
    rw [readMembers, renderMembers, List.nil_append, skipBlanks_append (hl.gap outer), skipBlanks_cons (by decide)]
    rfl
  | cons m members ih =>
    obtain ⟨key, value⟩ := m
    obtain ⟨fuel, rfl⟩ := Nat.exists_eq_succ_of_ne_zero (Nat.ne_of_gt (Nat.zero_lt_of_lt hfuel))
    simp only [renderMembers, List.length_append, List.length_cons] at hdepth hfuel
    have hvalue := hmembers (key, value) (by simp) level depth _ (by simp only; omega)
      (endsNumber_members hl level outer members rest)
    have hrest := ih (fun m hm => hmembers m (by simp [hm])) (by omega) (show members.length < fuel by omega)
    simp only [renderMembers, List.cons_append, List.append_assoc]
    rw [readMembers, skipBlanks_cons (by decide)]
    simp only [readKey_quote (hl.gap level), readValue_append hl.afterColon, hvalue, hrest, Option.bind_eq_bind,
      Option.bind_some]
    rfl

theorem readsBack_array {items : List Json} (hplain : ∀ j ∈ items, j.Plain) (h : ∀ j ∈ items, ReadsBack l j) :
    ReadsBack l (.array items) := by
  intro level depth rest hdepth _
  cases items with
  | nil =>
    obtain ⟨depth, rfl⟩ := Nat.exists_eq_succ_of_ne_zero (n := depth) (by rintro rfl; simp [render] at hdepth)
    rw [render, readValue.eq_def]
    rfl
  | cons first items =>
    simp only [render, List.length_append, List.length_cons, List.length_nil] at hdepth
    obtain ⟨depth, rfl⟩ := Nat.exists_eq_succ_of_ne_zero (n := depth) (by omega)
    obtain ⟨c, text, htext, hblank, hclose⟩ := (hplain first (by simp)).render_head l (level + 1)
    have hfirst := h first (by simp) (level + 1) depth _ (by omega)
      (endsNumber_items hl (level + 1) level items rest)
    -- the text that is left is longer than the list, so there is fuel for every item
    have hlength := length_le_renderItems l (level + 1) items
    have hfuel : items.length < (renderItems l (level + 1) items ++ (l.gap level ++ ']' :: rest)).length + 1 := by
      simp only [List.length_append]
      omega
    have hdepth : (renderItems l (level + 1) items).length ≤ depth := by omega
    have hitems := readItems_render hl (level + 1) level rest (fun j hj => h j (List.mem_cons_of_mem _ hj)) hdepth hfuel
    rw [htext, List.cons_append] at hfirst
    simp only [render, htext, List.cons_append, List.append_assoc, List.nil_append]
    rw [readValue.eq_def, skipBlanks_cons (by decide)]
    simp only [readArray_append (hl.gap (level + 1)) hblank hclose, hfirst, hitems, Option.bind_eq_bind,
      Option.bind_some]
    rfl

theorem readsBack_object {members : List (Option String × Json)} (h : ∀ m ∈ members, ReadsBack l m.2) :
    ReadsBack l (.object members) := by
  intro level depth rest hdepth _
  cases members with
  | nil =>
    obtain ⟨depth, rfl⟩ := Nat.exists_eq_succ_of_ne_zero (n := depth) (by rintro rfl; simp [render] at hdepth)
    rw [render, readValue.eq_def]
    rfl
  | cons m members =>
    obtain ⟨key, first⟩ := m
    simp only [render, List.length_append, List.length_cons, List.length_nil] at hdepth
    obtain ⟨depth, rfl⟩ := Nat.exists_eq_succ_of_ne_zero (n := depth) (by omega)
    obtain ⟨body, hbody, -⟩ := readString_quote key
    have hfirst := h (key, first) (by simp) (level + 1) depth _ (by simp only; omega)
      (endsNumber_members hl (level + 1) level members rest)
    have hkey := readKey_quote (List.forall_mem_nil _) key (l.afterColon ++ (render l (level + 1) first ++
      (renderMembers l (level + 1) members ++ (l.gap level ++ '\x7d' :: rest))))
    have hlength := length_le_renderMembers l (level + 1) members
    have hfuel :
        members.length < (renderMembers l (level + 1) members ++ (l.gap level ++ '\x7d' :: rest)).length + 1 := by
      simp only [List.length_append]
      omega
    have hdepth : (renderMembers l (level + 1) members).length ≤ depth := by omega
    have hmembers :=
      readMembers_render hl (level + 1) level rest (fun m hm => h m (List.mem_cons_of_mem _ hm)) hdepth hfuel
    rw [hbody, List.nil_append, List.cons_append] at hkey
    simp only [render, hbody, List.cons_append, List.append_assoc, List.nil_append]
    rw [readValue.eq_def, skipBlanks_cons (by decide)]
    simp only [readObject_append (hl.gap (level + 1)), hkey, readValue_append hl.afterColon, hfirst, hmembers,
      Option.bind_eq_bind, Option.bind_some]
    rfl

/-- A plain value reads back from its text, whatever stands behind it. -/
theorem Plain.readsBack {j : Json} (h : j.Plain) : ReadsBack l j := by
  induction h with
  | null => exact fun _ _ _ _ _ => by rw [render, readValue.eq_def]; rfl
  | bool b => cases b <;> exact fun _ _ _ _ _ => by rw [render, readValue.eq_def]; rfl
  | nat n =>
    intro level depth rest _ hrest
    obtain ⟨d, ds, hds⟩ := List.exists_cons_of_ne_nil (Nat.toDigits_ne_nil (b := 10) (n := n))
    have hnumber := readNumber_toDigits n hrest
    rw [hds, List.cons_append] at hnumber
    rw [render, Number.render, hds, List.cons_append,
      readValue_digit (Text.isDigit_toDigits n d (by simp [hds])), hnumber]
    rfl
  | string content =>
    intro level depth rest _ _
    obtain ⟨body, hbody, hread⟩ := readString_quote content
    rw [render, hbody, List.cons_append, readValue.eq_def, skipBlanks_cons (by decide)]
    simp only [hread, Option.bind_eq_bind, Option.bind_some]
    rfl
  | array hplain ih => exact readsBack_array hl hplain ih
  | object _ ih => exact readsBack_object hl ih

/-- The text of a plain value, with blanks behind it, is read as that value. -/
theorem Plain.parse?_render {j : Json} (h : j.Plain) {blanks : List Char} (hblanks : ∀ c ∈ blanks, isBlank c) :
    parse? (String.ofList (j.render l 0 ++ blanks)) = some j := by
  have hend : EndsNumber blanks := by
    rw [← List.append_nil blanks]
    exact EndsNumber.append hblanks (by simp [EndsNumber])
  have hskip : skipBlanks blanks = [] := by
    rw [← List.append_nil blanks, skipBlanks_append hblanks]
    rfl
  simp only [parse?, String.toList_ofList]
  rw [h.readsBack hl 0 _ blanks (by simp) hend]
  simp [hskip]

end Layouts

theorem Plain.parse?_compact {j : Json} (h : j.Plain) : parse? j.compact = some j := by
  simpa [compact] using h.parse?_render Layout.compact_blank (List.forall_mem_nil _)

theorem Plain.parse?_pretty {j : Json} (h : j.Plain) : parse? j.pretty = some j := by
  simpa [pretty] using h.parse?_render Layout.pretty_blank (List.forall_mem_nil _)

end Json

end RippleCarry
