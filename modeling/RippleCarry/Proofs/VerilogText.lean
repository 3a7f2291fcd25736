import RippleCarry.Verilog
/-!
# Reading structural Verilog

A reader for the text of a module. The text is cut into words and marks with blanks dropped, the
tokens are cut into statements at the semicolons, and each statement is read by its first word.
Main statement: reading what a module with legible names renders to gives the module back
(`parse?_render`).
-/

namespace RippleCarry.Verilog

/-! ## Tokens -/

inductive Token where
  | word (text : String)
  | mark (c : Char)
deriving DecidableEq, Repr

def isNameStart (c : Char) : Bool := c.isAlpha || c == '_'

def isNameChar (c : Char) : Bool := isNameStart c || c.isDigit || c == '$'

/-- A word is a name or a sized constant such as `1'b0`. -/
def isWordChar (c : Char) : Bool := isNameChar c || c == '\x27'

def endWord : List Char → List Token
  | [] => []
  | word => [.word (String.ofList word)]

/-- The tokens of a text, of whose first word some characters are read already. -/
def lex (word : List Char) : List Char → List Token
  | [] => endWord word
  | c :: rest =>
    if isWordChar c then lex (word ++ [c]) rest
    else endWord word ++ (if c.isWhitespace then [] else [.mark c]) ++ lex [] rest

def isIdentifier (x : String) : Bool :=
  match x.toList with
  | [] => false
  | c :: rest => isNameStart c && rest.all isNameChar

/-- A cell type is any name that does not start another statement. -/
def isCellName (x : String) : Bool :=
  isIdentifier x && x ∉ ["wire", "assign", "endmodule"]

/-! ## The reader -/

def readWord (accepts : String → Bool) : Token → Option String
  | .word x => if accepts x then some x else none
  | .mark _ => none

/-- Reads the parts between separators; no tokens are no parts. -/
def readList {α : Type} (separator : Char) (read : List Token → Option α)
    (tokens : List Token) : Option (List α) :=
  if tokens = [] then some [] else (tokens.splitOn (.mark separator)).mapM read

def inBrackets : List Token → Option (List Token)
  | .mark '(' :: rest => if rest.getLast? = some (.mark ')') then some rest.dropLast else none
  | _ => none

def readPin : List Token → Option Pin
  | [.word "input", .word "wire", net] => (readWord isIdentifier net).map (⟨.input, ·⟩)
  | [.word "output", .word "wire", net] => (readWord isIdentifier net).map (⟨.output, ·⟩)
  | _ => none

def readConnection : List Token → Option (String × String)
  | [.mark '.', pin, .mark '(', net, .mark ')'] => do
    return (← readWord isIdentifier pin, ← readWord isIdentifier net)
  | _ => none

/-- The right side of an assign: a net or a one-bit constant. -/
def readSource (net : String) (source : Token) : Option Item :=
  if source = .word "1'b0" then some (.tie net false)
  else if source = .word "1'b1" then some (.tie net true)
  else (readWord isIdentifier source).map (.assign net)

def readItem : List Token → Option Item
  | [.word "wire", net] => (readWord isIdentifier net).map .wire
  | [.word "assign", net, .mark '=', source] => do
    readSource (← readWord isIdentifier net) source
  | type :: label :: rest => do
    return .cell (← readWord isCellName type) (← readWord isIdentifier label)
      (← readList ',' readConnection (← inBrackets rest))
  | _ => none

def readHeader : List Token → Option (String × List Pin)
  | .word "module" :: name :: rest => do
    return (← readWord isIdentifier name, ← readList ',' readPin (← inBrackets rest))
  | _ => none

/-- Reads a module: a header, its items and the closing word. -/
def Module.parse? (text : String) : Option Module :=
  match (lex [] text.toList).splitOn (.mark ';') with
  | [] => none
  | header :: statements =>
    if statements.getLast? = some [.word "endmodule"] then do
      let (name, pins) ← readHeader header
      return ⟨name, pins, ← statements.dropLast.mapM readItem⟩
    else none

/-! ## Legible modules -/

/-- Every name in the item can be read back as the kind of name it is. -/
def Item.Legible : Item → Prop
  | wire net => isIdentifier net
  | tie net _ => isIdentifier net
  | assign net source => isIdentifier net ∧ isIdentifier source
  | cell type label connections =>
    isCellName type ∧ isIdentifier label ∧
      ∀ c ∈ connections, isIdentifier c.1 ∧ isIdentifier c.2

structure Module.Legible (m : Module) : Prop where
  name : isIdentifier m.name
  pins : ∀ p ∈ m.pins, isIdentifier p.net
  items : ∀ i ∈ m.items, i.Legible

def Pin.tokens (p : Pin) : List Token :=
  [.word (match p.direction with | .input => "input" | .output => "output"), .word "wire",
    .word p.net]

def connectionTokens (c : String × String) : List Token :=
  [.mark '.', .word c.1, .mark '(', .word c.2, .mark ')']

/-- The tokens of an item, up to its semicolon. -/
def Item.tokens : Item → List Token
  | wire net => [.word "wire", .word net]
  | tie net value => [.word "assign", .word net, .mark '=', .word (if value then "1'b1" else "1'b0")]
  | assign net source => [.word "assign", .word net, .mark '=', .word source]
  | cell type label connections =>
    .word type :: .word label :: .mark '(' ::
      ([.mark ','].intercalate (connections.map connectionTokens) ++ [.mark ')'])

def Module.headerTokens (m : Module) : List Token :=
  .word "module" :: .word m.name :: .mark '(' ::
    ([.mark ','].intercalate (m.pins.map Pin.tokens) ++ [.mark ')'])

/-! ## Cutting the text into tokens -/

/-- The text gives these tokens whatever follows it. -/
def Spells (text : String) (tokens : List Token) : Prop :=
  ∀ rest, lex [] (text.toList ++ rest) = tokens ++ lex [] rest

/-- The text starts with a character that ends a word. -/
def EndsWord (text : String) : Prop := ∃ c rest, text.toList = c :: rest ∧ isWordChar c = false

/-- The text gives these tokens before any text that ends a word. -/
def SpellsBefore (text : String) (tokens : List Token) : Prop :=
  ∀ tail tailTokens, Spells tail tailTokens → EndsWord tail →
    Spells (text ++ tail) (tokens ++ tailTokens)

theorem Spells.append {a b : String} {ts us : List Token} (ha : Spells a ts) (hb : Spells b us) :
    Spells (a ++ b) (ts ++ us) := by
  intro rest
  rw [String.toList_append, List.append_assoc, ha, hb, List.append_assoc]

theorem Spells.before {a : String} {ts : List Token} (ha : Spells a ts) : SpellsBefore a ts :=
  fun _ _ htail _ => ha.append htail

theorem SpellsBefore.append_left {a b : String} {ts us : List Token} (ha : Spells a ts)
    (hb : SpellsBefore b us) : SpellsBefore (a ++ b) (ts ++ us) := by
  intro tail tailTokens htail hend
  rw [String.append_assoc, List.append_assoc]
  exact ha.append (hb tail tailTokens htail hend)

theorem EndsWord.append {a : String} (ha : EndsWord a) (b : String) : EndsWord (a ++ b) := by
  obtain ⟨c, rest, htext, hc⟩ := ha
  exact ⟨c, rest ++ b.toList, by rw [String.toList_append, htext, List.cons_append], hc⟩

theorem lex_word {w : List Char} (hw : ∀ c ∈ w, isWordChar c) (word rest : List Char) :
    lex word (w ++ rest) = lex (word ++ w) rest := by
  induction w generalizing word with
  | nil => simp
  | cons c w ih =>
    rw [List.cons_append, lex, if_pos (hw c (by simp)), ih (fun d hd => hw d (by simp [hd]))]
    simp

theorem lex_endWord {c : Char} (hc : isWordChar c = false) (word rest : List Char) :
    lex word (c :: rest) = endWord word ++ lex [] (c :: rest) := by
  simp [lex, hc, endWord]

theorem isWordChar_of_isIdentifier {x : String} (hx : isIdentifier x) :
    x.toList ≠ [] ∧ ∀ c ∈ x.toList, isWordChar c := by
  unfold isIdentifier at hx
  split at hx
  · contradiction
  · rename_i c rest htext
    simp only [Bool.and_eq_true, List.all_eq_true] at hx
    rw [htext]
    refine ⟨by simp, ?_⟩
    intro d hd
    rcases List.mem_cons.1 hd with rfl | hd
    · simp [isWordChar, isNameChar, hx.1]
    · simp [isWordChar, hx.2 d hd]

theorem spellsBefore_name {x : String} (hx : isIdentifier x) : SpellsBefore x [.word x] := by
  intro tail tailTokens htail hend rest
  obtain ⟨hne, hchars⟩ := isWordChar_of_isIdentifier hx
  obtain ⟨c, after, htext, hc⟩ := hend
  have hword : endWord x.toList = [.word x] := by
    unfold endWord
    split
    · contradiction
    · rw [String.ofList_toList]
  have hlex := htail rest
  rw [htext, List.cons_append] at hlex
  rw [String.toList_append, List.append_assoc, lex_word hchars, htext, List.cons_append,
    lex_endWord hc, hlex, List.nil_append, hword, List.append_assoc]

theorem isIdentifier_of_isCellName {x : String} (hx : isCellName x) : isIdentifier x := by
  simp only [isCellName, Bool.and_eq_true] at hx
  exact hx.1

-- Each part is followed by a separator or by the closing text, and both end a word.
theorem spells_list {α : Type} {render : α → String} {tokens : α → List Token}
    {separator closing : String} {c : Char} {closingTokens : List Token}
    (hsep : Spells separator [.mark c]) (hsepEnds : EndsWord separator)
    (hclosing : Spells closing closingTokens) (hclosingEnds : EndsWord closing)
    {l : List α} (hl : ∀ a ∈ l, SpellsBefore (render a) (tokens a)) :
    Spells (String.intercalate separator (l.map render) ++ closing)
      ([.mark c].intercalate (l.map tokens) ++ closingTokens) := by
  induction l with
  | nil => simpa using hclosing
  | cons a l ih =>
    have ha := hl a (by simp)
    cases l with
    | nil => simpa using ha closing closingTokens hclosing hclosingEnds
    | cons b l =>
      have hrest := hsep.append (ih (fun x hx => hl x (List.mem_cons_of_mem a hx)))
      simpa [String.append_assoc] using ha _ _ hrest (hsepEnds.append _)

theorem Pin.spellsBefore {p : Pin} (hp : isIdentifier p.net) : SpellsBefore p.render p.tokens := by
  obtain ⟨direction, net⟩ := p
  cases direction with
  | input =>
    have hstart : Spells "  input wire " [.word "input", .word "wire"] := fun _ => rfl
    exact .append_left hstart (spellsBefore_name hp)
  | output =>
    have hstart : Spells "  output wire " [.word "output", .word "wire"] := fun _ => rfl
    exact .append_left hstart (spellsBefore_name hp)

theorem spells_connection {c : String × String} (hpin : isIdentifier c.1)
    (hnet : isIdentifier c.2) : Spells (renderConnection c) (connectionTokens c) := by
  have hdot : Spells "." [.mark '.'] := fun _ => rfl
  have hopen : Spells "(" [.mark '('] := fun _ => rfl
  have hclose : Spells ")" [.mark ')'] := fun _ => rfl
  have hinner := hopen.append (spellsBefore_name hnet ")" _ hclose ⟨_, _, rfl, rfl⟩)
  have houter := hdot.append (spellsBefore_name hpin _ _ hinner (.append ⟨_, _, rfl, rfl⟩ _))
  simpa only [renderConnection, connectionTokens, String.append_assoc, List.singleton_append,
    List.cons_append, List.nil_append] using houter

theorem Item.spells {i : Item} (hi : i.Legible) : Spells i.render (i.tokens ++ [Token.mark ';']) := by
  have hsemi : Spells ";\n" [.mark ';'] := fun _ => rfl
  have hassign : Spells "  assign " [.word "assign"] := fun _ => rfl
  cases i with
  | wire net =>
    have hwire : Spells "  wire " [.word "wire"] := fun _ => rfl
    show Spells ("  wire " ++ net ++ ";\n") _
    rw [String.append_assoc]
    exact hwire.append (spellsBefore_name hi _ _ hsemi ⟨_, _, rfl, rfl⟩)
  | tie net value =>
    have hvalue : Spells (" = 1'b" ++ ((if value then "1" else "0") ++ ";\n"))
        [.mark '=', .word (if value then "1'b1" else "1'b0"), .mark ';'] := by
      cases value <;> exact fun _ => rfl
    show Spells ("  assign " ++ net ++ " = 1'b" ++ (if value then "1" else "0") ++ ";\n") _
    simp only [String.append_assoc]
    exact hassign.append (spellsBefore_name hi _ _ hvalue (.append ⟨_, _, rfl, rfl⟩ _))
  | assign net source =>
    have heq : Spells " = " [.mark '='] := fun _ => rfl
    have hsource := heq.append (spellsBefore_name hi.2 _ _ hsemi ⟨_, _, rfl, rfl⟩)
    show Spells ("  assign " ++ net ++ " = " ++ source ++ ";\n") _
    simp only [String.append_assoc]
    exact hassign.append (spellsBefore_name hi.1 _ _ hsource (.append ⟨_, _, rfl, rfl⟩ _))
  | cell type label connections =>
    obtain ⟨htype, hlabel, hconnections⟩ := hi
    have hblanks : Spells "  " [] := fun _ => rfl
    have hblank : Spells " " [] := fun _ => rfl
    have hopen : Spells " (" [.mark '('] := fun _ => rfl
    have hsep : Spells ", " [.mark ','] := fun _ => rfl
    have hclose : Spells ");\n" [.mark ')', .mark ';'] := fun _ => rfl
    have hlist := spells_list hsep ⟨_, _, rfl, rfl⟩ hclose ⟨_, _, rfl, rfl⟩
      (fun c hc => (spells_connection (hconnections c hc).1 (hconnections c hc).2).before)
    have hlabelled := hblank.append
      (spellsBefore_name hlabel _ _ (hopen.append hlist) (.append ⟨_, _, rfl, rfl⟩ _))
    have h := hblanks.append (spellsBefore_name (isIdentifier_of_isCellName htype) _ _ hlabelled
      (.append ⟨_, _, rfl, rfl⟩ _))
    show Spells ("  " ++ type ++ " " ++ label ++ " (" ++
      String.intercalate ", " (connections.map renderConnection) ++ ");\n") _
    simp only [String.append_assoc]
    simpa only [tokens, List.cons_append, List.nil_append, List.append_assoc] using h

theorem spells_items {items : List Item} (hitems : ∀ i ∈ items, i.Legible) :
    Spells (String.join (items.map Item.render))
      (items.flatMap fun i => i.tokens ++ [Token.mark ';']) := by
  induction items with
  | nil => exact fun _ => rfl
  | cons i items ih =>
    rw [List.map_cons, String.join_cons, List.flatMap_cons]
    exact (Item.spells (hitems i (by simp))).append (ih fun j hj => hitems j (by simp [hj]))

theorem Module.lex_render {m : Module} (hm : m.Legible) :
    lex [] m.render.toList = m.headerTokens ++ .mark ';' ::
      (m.items.flatMap (fun i => i.tokens ++ [Token.mark ';']) ++ [.word "endmodule"]) := by
  have hmodule : Spells "module " [.word "module"] := fun _ => rfl
  have hopen : Spells "(\n" [.mark '('] := fun _ => rfl
  have hsep : Spells ",\n" [.mark ','] := fun _ => rfl
  have hclose : Spells "\n);\n" [.mark ')', .mark ';'] := fun _ => rfl
  have hend : Spells "endmodule\n" [.word "endmodule"] := fun _ => rfl
  have hpins := spells_list hsep ⟨_, _, rfl, rfl⟩ hclose ⟨_, _, rfl, rfl⟩
    (fun p hp => Pin.spellsBefore (hm.pins p hp))
  have hheader := hmodule.append
    (spellsBefore_name hm.name _ _ (hopen.append hpins) (.append ⟨_, _, rfl, rfl⟩ _))
  have h := (hheader.append ((spells_items hm.items).append hend)) []
  simpa only [render, headerTokens, String.append_assoc, List.singleton_append, List.cons_append,
    List.nil_append, List.append_nil, List.append_assoc, lex, endWord] using h

/-! ## Reading the tokens -/

theorem readWord_word {accepts : String → Bool} {x : String} (hx : accepts x) :
    readWord accepts (.word x) = some x := by
  simp [readWord, hx]

@[simp] theorem inBrackets_brackets (tokens : List Token) :
    inBrackets (.mark '(' :: (tokens ++ [.mark ')'])) = some tokens := by
  simp [inBrackets]

theorem not_mem_intercalate {α : Type} {write : α → List Token} {t separator : Token}
    (h : t ≠ separator) {l : List α} (hl : ∀ a ∈ l, t ∉ write a) :
    t ∉ [separator].intercalate (l.map write) := by
  induction l with
  | nil => simp
  | cons a l ih =>
    have hrest := ih fun x hx => hl x (List.mem_cons_of_mem a hx)
    cases l with
    | nil => simpa using hl a (by simp)
    | cons b l =>
      rw [List.map_cons, List.map_cons, List.intercalate_cons_cons]
      rw [List.map_cons] at hrest
      simp [hl a (by simp), h, hrest]

theorem mapM_read {α : Type} {read : List Token → Option α} {write : α → List Token} {l : List α}
    (hread : ∀ a ∈ l, read (write a) = some a) : (l.map write).mapM read = some l := by
  induction l with
  | nil => rfl
  | cons a l ih =>
    rw [List.map_cons, List.mapM_cons, hread a (by simp),
      ih fun x hx => hread x (List.mem_cons_of_mem a hx)]
    rfl

theorem readList_intercalate {α : Type} (separator : Char) {read : List Token → Option α}
    {write : α → List Token} (l : List α) (hread : ∀ a ∈ l, read (write a) = some a)
    (hwrite : ∀ a ∈ l, write a ≠ [] ∧ .mark separator ∉ write a) :
    readList separator read ([.mark separator].intercalate (l.map write)) = some l := by
  cases l with
  | nil => rfl
  | cons a l =>
    have hne : [Token.mark separator].intercalate ((a :: l).map write) ≠ [] := by
      have ha := (hwrite a (by simp)).1
      cases l with
      | nil => simpa using ha
      | cons b l => simp [ha]
    have hsplit : ([Token.mark separator].intercalate ((a :: l).map write)).splitOn
        (.mark separator) = (a :: l).map write := by
      apply List.splitOn_intercalate
      · intro part hpart
        obtain ⟨b, hb, rfl⟩ := List.mem_map.1 hpart
        exact (hwrite b hb).2
      · simp
    rw [readList, if_neg hne, hsplit, mapM_read hread]

theorem readPin_tokens {p : Pin} (hp : isIdentifier p.net) : readPin p.tokens = some p := by
  obtain ⟨direction, net⟩ := p
  cases direction <;> simp [Pin.tokens, readPin, readWord_word hp]

theorem readConnection_tokens {c : String × String} (hpin : isIdentifier c.1)
    (hnet : isIdentifier c.2) : readConnection (connectionTokens c) = some c := by
  simp [connectionTokens, readConnection, readWord_word hpin, readWord_word hnet]

theorem readSource_name {net source : String} (hsource : isIdentifier source) :
    readSource net (.word source) = some (.assign net source) := by
  have hzero : source ≠ "1'b0" := fun h => absurd (h ▸ hsource) (by decide)
  have hone : source ≠ "1'b1" := fun h => absurd (h ▸ hsource) (by decide)
  simp [readSource, hzero, hone, readWord_word hsource]

theorem readItem_tokens {i : Item} (hi : i.Legible) : readItem i.tokens = some i := by
  cases i with
  | wire net => simp [Item.tokens, readItem, readWord_word hi]
  | tie net value =>
    cases value <;> simp [Item.tokens, readItem, readWord_word hi, readSource]
  | assign net source => simp [Item.tokens, readItem, readWord_word hi.1, readSource_name hi.2]
  | cell type label connections =>
    obtain ⟨htype, hlabel, hconnections⟩ := hi
    have hlist := readList_intercalate ',' connections
      (fun c hc => readConnection_tokens (hconnections c hc).1 (hconnections c hc).2)
      (fun c _ => by simp [connectionTokens])
    simp [Item.tokens, readItem, readWord_word htype, readWord_word hlabel, hlist]

theorem Item.semicolon_not_mem {i : Item} : .mark ';' ∉ i.tokens := by
  cases i with
  | wire net => simp [tokens]
  | tie net value => simp [tokens]
  | assign net source => simp [tokens]
  | cell type label connections =>
    have hlist : .mark ';' ∉ [.mark ','].intercalate (connections.map connectionTokens) :=
      not_mem_intercalate (by decide) (by simp [connectionTokens])
    simp [tokens, hlist]

theorem splitOn_items (items : List Item) {last : Token} (hlast : last ≠ .mark ';') :
    (items.flatMap (fun i : Item => i.tokens ++ [Token.mark ';']) ++ [last]).splitOn (.mark ';') =
      items.map Item.tokens ++ [[last]] := by
  induction items with
  | nil => exact List.splitOn_eq_singleton (by simpa using hlast.symm)
  | cons i items ih =>
    rw [List.flatMap_cons, List.append_assoc, List.append_assoc, List.singleton_append,
      List.splitOn_append_cons_self_of_not_mem i.semicolon_not_mem, ih]
    rfl

theorem readHeader_tokens {m : Module} (hm : m.Legible) :
    readHeader m.headerTokens = some (m.name, m.pins) := by
  have hlist := readList_intercalate ',' m.pins
    (fun p hp => readPin_tokens (hm.pins p hp)) (fun p _ => by simp [Pin.tokens])
  simp [Module.headerTokens, readHeader, readWord_word hm.name, hlist]

theorem Module.semicolon_not_mem_header (m : Module) : .mark ';' ∉ m.headerTokens := by
  have hlist : .mark ';' ∉ [.mark ','].intercalate (m.pins.map Pin.tokens) :=
    not_mem_intercalate (by decide) (by simp [Pin.tokens])
  simp [headerTokens, hlist]

/-- A module with legible names is read back from its text. -/
theorem Module.parse?_render {m : Module} (hm : m.Legible) : parse? m.render = some m := by
  have hsplit : (lex [] m.render.toList).splitOn (.mark ';') =
      m.headerTokens :: (m.items.map Item.tokens ++ [[.word "endmodule"]]) := by
    rw [lex_render hm, List.splitOn_append_cons_self_of_not_mem m.semicolon_not_mem_header,
      splitOn_items m.items (by decide)]
  simp [parse?, hsplit, readHeader_tokens hm, mapM_read fun i hi => readItem_tokens (hm.items i hi)]

end RippleCarry.Verilog
