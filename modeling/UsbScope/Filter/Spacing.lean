import UsbScope.Filter.Predicates

/-! # Spacing of printed expressions

No white space is needed around the operators of a printed expression: a word
follows every operator that another character could double. -/
namespace UsbScope.Filter
open UsbScope.Lib UsbScope.Common

/-! ## Sequences of lexemes -/

/-- Nothing behind the lexeme can double it. -/
def Lexeme.Closed (l : Lexeme) : Prop := ∀ c, l = .operator [c] → ∀ chars, doubled c chars = false

/-- The lexeme doubles no operator before it. -/
def Lexeme.Apart (l : Lexeme) : Prop := ∀ c ∈ l.chars.head?, c ≠ '=' ∧ c ≠ '&' ∧ c ≠ '|'

theorem Lexeme.Closed.fits {l : Lexeme} (h : l.Closed) (next : Lexeme) : l.Fits next :=
  fun c hc => h c hc _

theorem Lexeme.Apart.fits {next : Lexeme} (h : next.Apart) (l : Lexeme) : l.Fits next := by
  intro c _
  cases hchars : next.chars with
  | nil => rfl
  | cons d rest => exact doubled_of_ne (h d (by rw [hchars]; rfl)) rest

/-- Lexemes that the tokenizer can tell apart, whatever follows them. -/
structure Sound (ls : List Lexeme) : Prop where
  valid : ∀ l ∈ ls, l.Valid
  fits : ls.IsChain Lexeme.Fits
  closed : ∀ l ∈ ls.getLast?, l.Closed

namespace Sound

theorem nil : Sound [] := ⟨by simp, .nil, by simp⟩

theorem single {l : Lexeme} (hvalid : l.Valid) (hclosed : l.Closed) : Sound [l] := by
  refine ⟨by simpa using hvalid, .singleton l, ?_⟩
  intro l' h
  cases h
  exact hclosed

theorem append {left right : List Lexeme} (h : Sound left) (h' : Sound right) :
    Sound (left ++ right) := by
  refine ⟨?_, ?_, ?_⟩
  · intro l hl
    rcases List.mem_append.mp hl with hl | hl
    · exact h.valid l hl
    · exact h'.valid l hl
  · rw [List.isChain_append]
    exact ⟨h.fits, h'.fits, fun l hl next _ => (h.closed l hl).fits next⟩
  · intro l hl
    rw [List.getLast?_append] at hl
    rcases Option.or_eq_some_iff.mp hl with hl | ⟨_, hl⟩
    · exact h'.closed l hl
    · exact h.closed l hl

/-- Any lexeme may stand before one that does not double it. -/
theorem cons {l next : Lexeme} {rest : List Lexeme} (hvalid : l.Valid) (hapart : next.Apart)
    (h : Sound (next :: rest)) : Sound (l :: next :: rest) := by
  refine ⟨List.forall_mem_cons.mpr ⟨hvalid, h.valid⟩, List.isChain_cons_cons.mpr ⟨hapart.fits l, h.fits⟩, ?_⟩
  intro l' hl
  exact h.closed l' (by rwa [List.getLast?_cons_cons] at hl)

theorem word {text : List Char} (h : (Lexeme.word text).Valid) : Sound [Lexeme.word text] :=
  single h (fun _ hc => nomatch hc)

theorem sign {text : String} (h : text ∈ ["(", ")", "[", "]", ":", "&&", "||"]) :
    Sound [Filter.sign text] := by
  have hall : ∀ text ∈ ["(", ")", "[", "]", ":", "&&", "||"], text.toList ∈ operators ∧
      (text.toList.length = 1 → text.toList.all (fun c => oneOf "!=<>&|" c = false) = true) := by decide
  obtain ⟨hvalid, hsingle⟩ := hall text h
  refine single hvalid ?_
  intro c hc chars
  rw [show text.toList = [c] from Lexeme.operator.inj hc] at hsingle
  have hset : oneOf "!=<>&|" c = false := by simpa using hsingle rfl
  simp [oneOf] at hset
  cases chars with
  | nil => rfl
  | cons d rest => simp [doubled, oneOf, hset]

end Sound

theorem word_apart {text : List Char} (h : (Lexeme.word text).Valid) : (Lexeme.word text).Apart := by
  intro c hc
  have hword := h.2 c (List.mem_of_mem_head? hc)
  refine ⟨?_, ?_, ?_⟩ <;> rintro rfl <;> exact absurd hword (by decide)

/-! ## Predicates -/

/-- Every name of the grammar is a word. -/
theorem name_valid : ∀ text ∈ leadNames ++ ["contains", "not", "and", "or"], (name text).Valid := by
  have hall : ∀ text ∈ leadNames ++ ["contains", "not", "and", "or"],
      text.toList ≠ [] ∧ text.toList.all inWord = true := by decide
  intro text h
  exact ⟨(hall text h).1, List.all_eq_true.mp (hall text h).2⟩

theorem MaskText.sound {mask : Option UInt64} {text : List Lexeme} (h : MaskText mask text) :
    Sound text := by
  cases h with
  | absent => exact Sound.nil
  | present h =>
    have hsign : (sign "&").Valid := (by decide : "&".toList ∈ operators)
    exact Sound.cons hsign (word_apart h.valid) (Sound.word h.valid)

theorem CompareText.sound {c : Compare} {compareText : List Lexeme} (h : CompareText c compareText)
    {text : List Char} (htext : (Lexeme.word text).Valid) : Sound (compareText ++ [Lexeme.word text]) := by
  cases h with
  | omitted => exact Sound.word htext
  | @written sign _ h =>
    have hall : ∀ p ∈ comparisonSigns, p.1.toList ∈ operators := by decide
    exact Sound.cons (hall _ h) (word_apart htext) (Sound.word htext)

theorem FieldText.sound {field : Field} {text : List Lexeme} (h : FieldText field text) : Sound text := by
  cases h with
  | @named text _ h =>
    exact Sound.word (name_valid text (by simp [leadNames]; exact .inl ⟨_, h⟩))
  | @payload n offset size width h hoffset hsize hwidth =>
    have hwidthSound : Sound width := by
      cases hwidth with
      | omitted => exact Sound.nil
      | written h => exact (Sound.sign (by decide)).append (Sound.word h.valid)
    have hpayload : Sound [name "payload"] := Sound.word (name_valid "payload" (by decide))
    have hopen : Sound [sign "["] := Sound.sign (by decide)
    have hclose : Sound [sign "]"] := Sound.sign (by decide)
    exact ((hpayload.append hopen).append (Sound.word h.valid)).append (hwidthSound.append hclose)

theorem hexPairs_inWord (bytes : List (UInt8 × Bool × Bool)) :
    ∀ c ∈ bytes.flatMap hexPair, inWord c = true := by
  intro c hc
  obtain ⟨byte, _, hc⟩ := List.mem_flatMap.mp hc
  have hv : byte.1.toNat < 256 := byte.1.toNat_lt
  simp only [hexPair, List.mem_cons, List.not_mem_nil, or_false] at hc
  rcases hc with rfl | rfl
  · exact (plain_hex ⟨byte.1.toNat / 16, by omega⟩ byte.2.1).2
  · exact (plain_hex ⟨byte.1.toNat % 16, by omega⟩ byte.2.2).2

theorem Leaf.sound {x : Expr} {text : List Lexeme} (h : Leaf x text) : Sound text := by
  have hsearch : Sound ([name "payload"] ++ [name "contains"]) :=
    (Sound.word (name_valid "payload" (by decide))).append (Sound.word (name_valid "contains" (by decide)))
  cases h with
  | @shorthand text field v h =>
    have hmem : text ∈ leadNames ++ ["contains", "not", "and", "or"] :=
      List.mem_append_left _ (List.mem_append_left _ (List.mem_append_right _ (List.mem_map_of_mem h)))
    exact Sound.word (name_valid text hmem)
  | condition hfield hmask hcompare hvalue =>
    exact hfield.sound.append (hmask.sound.append (hcompare.sound hvalue.valid))
  | @text mark text h =>
    have hquoted : Sound [Lexeme.quoted mark text] :=
      Sound.single ⟨h.quote, h.escapes⟩ (fun _ hc => nomatch hc)
    exact hsearch.append hquoted
  | @hex bytes h =>
    have hvalid : (Lexeme.word ('0' :: 'x' :: bytes.flatMap hexPair)).Valid := by
      refine ⟨List.cons_ne_nil _ _, ?_⟩
      intro c hc
      simp only [List.mem_cons] at hc
      rcases hc with rfl | rfl | hc
      · decide
      · decide
      · exact hexPairs_inWord bytes c hc
    exact hsearch.append (Sound.word hvalid)

/-! ## Expressions -/

/-- The lexemes that an expression starts with. -/
def openings : List Lexeme := leadNames.map name ++ [name "not", sign "!", sign "("]

theorem Printed.head {level : Level} {depth : Nat} {x : Expr} {text : List Lexeme}
    (h : Printed level depth x text) : ∃ l ∈ openings, ∃ rest, text = l :: rest := by
  induction h with
  | leaf h =>
    obtain ⟨lead, hlead, rest, rfl⟩ := h.head
    exact ⟨_, List.mem_append_left _ (List.mem_map_of_mem hlead), rest, rfl⟩
  | not hop h ih =>
    simp only [notTexts, List.mem_cons, List.not_mem_nil, or_false] at hop
    rcases hop with rfl | rfl
    · exact ⟨name "not", by simp [openings], _, rfl⟩
    · exact ⟨sign "!", by simp [openings], _, rfl⟩
  | parens h ih => exact ⟨sign "(", by simp [openings], _, rfl⟩
  | unary h ih => exact ih
  | conjunction h ih => exact ih
  | and hop hx hy ihx ihy =>
    obtain ⟨l, hl, rest, rfl⟩ := ihx
    exact ⟨l, hl, _, rfl⟩
  | or hop hx hy ihx ihy =>
    obtain ⟨l, hl, rest, rfl⟩ := ihx
    exact ⟨l, hl, _, rfl⟩

theorem Printed.ne_nil {level : Level} {depth : Nat} {x : Expr} {text : List Lexeme}
    (h : Printed level depth x text) : text ≠ [] := by
  obtain ⟨l, _, rest, rfl⟩ := h.head
  exact List.cons_ne_nil l rest

theorem openings_apart : ∀ l ∈ openings, l.Apart := by
  have hnames : ∀ text ∈ leadNames ++ ["not"], (name text).Apart := by
    intro text h
    refine word_apart (name_valid text ?_)
    rcases List.mem_append.mp h with h | h
    · exact List.mem_append_left _ h
    · exact List.mem_append_right _ (by simp_all)
  intro l hl
  simp only [openings, List.mem_append, List.mem_map, List.mem_cons, List.not_mem_nil, or_false] at hl
  rcases hl with ⟨text, h, rfl⟩ | rfl | rfl | rfl
  · exact hnames text (List.mem_append_left _ h)
  · exact hnames "not" (by simp)
  · intro c hc
    obtain rfl : c = '!' := by simpa [sign, Lexeme.chars] using hc.symm
    decide
  · intro c hc
    obtain rfl : c = '(' := by simpa [sign, Lexeme.chars] using hc.symm
    decide

/-- The tokenizer can tell the lexemes of a printed expression apart. -/
theorem Printed.sound {level : Level} {depth : Nat} {x : Expr} {text : List Lexeme}
    (h : Printed level depth x text) : Sound text := by
  induction h with
  | leaf h => exact h.sound
  | @not depth x op text hop h ih =>
    obtain ⟨l, hl, rest, rfl⟩ := h.head
    have hnot : (name "not").Valid := name_valid "not" (by decide)
    have hsign : (sign "!").Valid := (by decide : "!".toList ∈ operators)
    simp only [notTexts, List.mem_cons, List.not_mem_nil, or_false] at hop
    rcases hop with rfl | rfl
    · exact Sound.cons hnot (openings_apart l hl) ih
    · exact Sound.cons hsign (openings_apart l hl) ih
  | parens h ih =>
    have hopen : Sound [sign "("] := Sound.sign (by decide)
    have hclose : Sound [sign ")"] := Sound.sign (by decide)
    exact (hopen.append ih).append hclose
  | unary h ih => exact ih
  | conjunction h ih => exact ih
  | @and depth x y left op right hop hx hy ihx ihy =>
    have hopSound : Sound op := by
      simp only [andTexts, List.mem_cons, List.not_mem_nil, or_false] at hop
      rcases hop with rfl | rfl | rfl
      · exact Sound.word (name_valid "and" (by decide))
      · exact Sound.sign (by decide)
      · exact Sound.nil
    exact ihx.append (hopSound.append ihy)
  | @or depth x y left op right hop hx hy ihx ihy =>
    have hopSound : Sound op := by
      simp only [orTexts, List.mem_cons, List.not_mem_nil, or_false] at hop
      rcases hop with rfl | rfl
      · exact Sound.word (name_valid "or" (by decide))
      · exact Sound.sign (by decide)
    exact ihx.append (hopSound.append ihy)

end UsbScope.Filter
