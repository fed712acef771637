import UsbScope.Filter.Lex
import UsbScope.Filter.Numbers

/-! # Reading printed predicates

The parser takes exactly the tokens of a printed predicate, whatever follows
them, and gives the predicate back. No number is taken for the name of a value,
and no word for an operator. -/
namespace UsbScope.Filter
open UsbScope.Lib UsbScope.Common

@[simp] theorem token_name (text : String) : (name text).token = ⟨text, false⟩ := by
  rw [name, Lexeme.token, String.ofList_toList]

@[simp] theorem token_sign (text : String) : (sign text).token = ⟨text, false⟩ := by
  rw [sign, Lexeme.token, String.ofList_toList]

@[simp] theorem token_word (text : List Char) :
    (Lexeme.word text).token = ⟨String.ofList text, false⟩ := rfl

@[simp] theorem token_quoted (mark : Char) (text : List (Char × Bool)) :
    (Lexeme.quoted mark text).token = ⟨String.ofList (text.map Prod.fst), true⟩ := rfl

/-- A word is not an operator. -/
theorem word_ne_operator {text : List Char} (h : (Lexeme.word text).Valid) {op : String}
    (hop : op.toList ∈ operators) : String.ofList text ≠ op := by
  rintro rfl
  obtain ⟨hne, hall⟩ := h
  rw [String.toList_ofList] at hop
  have hfirst : ∀ c ∈ text.head?, inWord c = true := fun c hc => hall c (List.mem_of_mem_head? hc)
  obtain ⟨c, rfl, hc⟩ | ⟨c, d, rfl, hc, _⟩ := operators_cases hop
  · exact absurd (hfirst c rfl) (by simp [(Lexes.sign_eq hc).2.2])
  · exact absurd (hfirst c rfl) (by simp [(Lexes.sign_eq hc).2.2])

theorem Numeral.InRange.valid {n : Numeral} (h : n.InRange) : (Lexeme.word n.text).Valid :=
  ⟨h.text_ne_nil, fun c hc => (n.text_plain c hc).2⟩

/-! ## Values -/

/-- A number starts with a digit or a sign. -/
theorem Numeral.InRange.head {n : Numeral} (h : n.InRange) :
    ∀ c ∈ n.text.head?, c.isAlpha = false := by
  have hdigits := h.digits
  intro c hc
  cases n with
  | decimal negative ds =>
    cases negative with
    | true =>
      cases hc
      decide
    | false =>
      obtain ⟨d, rest, rfl⟩ : ∃ d rest, ds = d :: rest :=
        List.exists_cons_of_ne_nil (by simpa [isEmpty] using hdigits)
      cases hc
      have hall : ∀ d : Fin 10, (digitChar false d.val).isAlpha = false := by decide
      exact hall d
  | hex ds =>
    cases hc
    decide

theorem Numeral.InRange.ne_valueNames {n : Numeral} (h : n.InRange) :
    ∀ p ∈ valueNames, String.ofList n.text ≠ p.1 := by
  have hnames : ∀ p ∈ valueNames, p.1.toList.head?.all Char.isAlpha = true := by decide
  intro p hp heq
  obtain ⟨c, rest, htext⟩ := List.exists_cons_of_ne_nil h.text_ne_nil
  have hc : c ∈ n.text.head? := by rw [htext]; rfl
  have halpha := hnames p hp
  rw [← heq, String.toList_ofList, hc, Option.all_some, h.head c hc] at halpha
  cases halpha

theorem fieldValue_number {field : Field} {text : String} (hfield : field ≠ .latency)
    (h : ∀ p ∈ valueNames, text ≠ p.1) : Parser.fieldValue field text = number text := by
  simp only [valueNames, shorthands, List.cons_append, List.nil_append, List.forall_mem_cons] at h
  unfold Parser.fieldValue
  split
  · split <;> simp_all
  · split <;> simp_all
  · split <;> simp_all
  · exact absurd rfl hfield
  · rfl

theorem ValueText.fieldValue {field : Field} {v : Int} {text : List Char}
    (h : ValueText field v text) : Parser.fieldValue field (String.ofList text) = .ok v := by
  cases h with
  | @named text _ _ h =>
    have hall : ∀ p ∈ valueNames, Parser.fieldValue p.2.1 p.1 = .ok p.2.2 := by
      simp only [valueNames, shorthands, List.cons_append, List.nil_append, List.forall_mem_cons]
      simp [Parser.fieldValue, submitType, completeType, errorType]
    rw [String.ofList_toList]
    exact hall _ h
  | number hfield h => rw [fieldValue_number hfield h.ne_valueNames, h.number]
  | duration h hunit => exact h.duration hunit

theorem ValueText.valid {field : Field} {v : Int} {text : List Char} (h : ValueText field v text) :
    (Lexeme.word text).Valid := by
  cases h with
  | @named text _ _ h =>
    have hall : ∀ p ∈ valueNames, p.1.toList ≠ [] ∧ p.1.toList.all inWord = true := by decide
    exact ⟨(hall _ h).1, List.all_eq_true.mp (hall _ h).2⟩
  | number hfield h => exact h.valid
  | @duration n unit factor h hunit =>
    have hall : ∀ p ∈ durationUnits, p.1.toList.all inWord = true := by decide
    refine ⟨by simp [h.text_ne_nil], ?_⟩
    intro c hc
    rcases List.mem_append.mp hc with hc | hc
    · exact (n.text_plain c hc).2
    · exact List.all_eq_true.mp (hall _ hunit) c hc

/-! ## Conditions -/

namespace Parser

theorem accept_self (text : String) (quoted : Bool) (rest : List Token) :
    accept text (⟨text, quoted⟩ :: rest) = some rest := if_pos rfl

theorem accept_of_ne {text : String} {token : Token} (h : token.text ≠ text) (rest : List Token) :
    accept text (token :: rest) = none := if_neg h

/-- The signs are read, and a word stands for an omitted one. -/
theorem comparison_sign {text : String} {c : Compare} (h : (text, c) ∈ comparisonSigns)
    (rest : List Token) : comparison (⟨text, false⟩ :: rest) = (c, rest) := by
  simp only [comparisonSigns, List.mem_cons, Prod.mk.injEq, List.not_mem_nil, or_false] at h
  rcases h with ⟨rfl, rfl⟩ | ⟨rfl, rfl⟩ | ⟨rfl, rfl⟩ | ⟨rfl, rfl⟩ | ⟨rfl, rfl⟩ | ⟨rfl, rfl⟩ | ⟨rfl, rfl⟩
  all_goals rfl

theorem comparison_word {text : List Char} (h : (Lexeme.word text).Valid) (rest : List Token) :
    comparison (⟨String.ofList text, false⟩ :: rest) = (.eq, ⟨String.ofList text, false⟩ :: rest) := by
  have hne : ∀ op ∈ comparisonSigns, String.ofList text ≠ op.1 := by
    have hall : ∀ op ∈ comparisonSigns, op.1.toList ∈ operators := by decide
    intro op hop
    exact word_ne_operator h (hall op hop)
  simp only [comparisonSigns, List.forall_mem_cons] at hne
  unfold comparison
  simp only [peek, List.head?_cons, Option.map_some]
  split <;> simp_all

end Parser

theorem CompareText.comparison {c : Compare} {compareText : List Lexeme} (h : CompareText c compareText)
    {text : List Char} (htext : (Lexeme.word text).Valid) (rest : List Token) :
    Parser.comparison ((compareText ++ [Lexeme.word text]).map Lexeme.token ++ rest) =
      (c, ⟨String.ofList text, false⟩ :: rest) := by
  cases h with
  | omitted => exact Parser.comparison_word htext rest
  | @written sign _ h =>
    simp only [List.map_cons, token_sign, List.cons_append]
    exact Parser.comparison_sign h _

/-- What follows a field, except its mask, does not start with `&`. -/
theorem CompareText.accept_mask {c : Compare} {compareText : List Lexeme}
    (h : CompareText c compareText) {text : List Char} (htext : (Lexeme.word text).Valid)
    (rest : List Token) :
    Parser.accept "&" ((compareText ++ [Lexeme.word text]).map Lexeme.token ++ rest) = none := by
  cases h with
  | omitted =>
    have hne : String.ofList text ≠ "&" := word_ne_operator htext (by decide)
    exact Parser.accept_of_ne hne rest
  | @written sign _ h =>
    have hall : ∀ p ∈ comparisonSigns, p.1 ≠ "&" := by decide
    simp only [List.map_cons, token_sign, List.cons_append]
    exact Parser.accept_of_ne (hall _ h) _

theorem condition_printed {field : Field} {mask : Option UInt64} {c : Compare} {v : Int}
    {maskText compareText : List Lexeme} {text : List Char} (hmask : MaskText mask maskText)
    (hcompare : CompareText c compareText) (hvalue : ValueText field v text) (rest : List Token) :
    Parser.condition field ((maskText ++ (compareText ++ [Lexeme.word text])).map Lexeme.token ++ rest) =
      .ok (.predicate ⟨field, mask, c, v⟩, rest) := by
  have hword := hvalue.valid
  cases hmask with
  | absent =>
    rw [List.nil_append]
    simp only [Parser.condition, hcompare.accept_mask hword, Result.ok_bind,
      hcompare.comparison hword, Parser.take, hvalue.fieldValue]
  | @present n mask h heq =>
    have hlow : 0 ≤ n.value ∧ n.value < 2 ^ 64 := by
      have := mask.toNat_lt
      omega
    have hofNat : UInt64.ofNat n.value.toNat = mask := by
      rw [heq, Int.toNat_natCast, UInt64.ofNat_toNat]
    rw [List.cons_append, List.cons_append, List.nil_append, List.map_cons, List.map_cons, token_sign,
      token_word, List.cons_append, List.cons_append]
    simp only [Parser.condition, Parser.accept_self, Parser.take, Result.ok_bind, h.number,
      ensure_of _ hlow, hofNat, hcompare.comparison hword, hvalue.fieldValue]

/-! ## Extractions -/

theorem extraction_printed {n : Numeral} {offset : UInt64} {size : UInt8} {width : List Lexeme}
    (h : n.InRange) (hoffset : n.value = offset.toNat)
    (hsize : size = 1 ∨ size = 2 ∨ size = 4 ∨ size = 8) (hwidth : WidthText size width)
    (rest : List Token) :
    Parser.extraction ((sign "[" :: Lexeme.word n.text :: width ++ [sign "]"]).map Lexeme.token ++ rest) =
      .ok (.payload offset size, rest) := by
  have hrange : 0 ≤ n.value ∧ n.value < 2 ^ 64 := by
    have := offset.toNat_lt
    omega
  have hofNat : UInt64.ofNat n.value.toNat = offset := by
    rw [hoffset, Int.toNat_natCast, UInt64.ofNat_toNat]
  rw [List.cons_append, List.cons_append, List.map_cons, List.map_cons, List.map_append, token_sign,
    token_word, List.cons_append, List.cons_append, List.append_assoc]
  simp only [List.map_cons, List.map_nil, token_sign, List.cons_append, List.nil_append]
  cases hwidth with
  | omitted =>
    have hclose : Parser.accept ":" (⟨"]", false⟩ :: rest) = none := Parser.accept_of_ne (by decide) rest
    simp only [List.map_nil, List.nil_append, Parser.extraction, Parser.expect, Parser.accept_self,
      context_some, Parser.take, Result.ok_bind, h.number, ensure_of _ hrange, hclose, hofNat]
    rfl
  | @written m size hm heq =>
    have hsmall : 0 ≤ m.value ∧ m.value < 2 ^ 8 := by
      have := size.toNat_lt
      omega
    have hwidth : m.value = 1 ∨ m.value = 2 ∨ m.value = 4 ∨ m.value = 8 := by
      rw [heq]
      rcases hsize with rfl | rfl | rfl | rfl <;> decide
    have hofNat' : UInt8.ofNat m.value.toNat = size := by
      rw [heq, Int.toNat_natCast, UInt8.ofNat_toNat]
    simp only [List.map_cons, List.map_nil, token_sign, token_word, List.cons_append, List.nil_append,
      Parser.extraction, Parser.expect, Parser.accept_self, context_some, Parser.take, Result.ok_bind,
      h.number, hm.number, ensure_of _ hrange, ensure_of _ hsmall, ensure_of _ hwidth, hofNat, hofNat']

/-! ## Predicates -/

/-- The names that a predicate starts with. -/
def leadNames : List String := fieldNames.map Prod.fst ++ shorthands.map Prod.fst ++ ["payload"]

theorem FieldText.head {field : Field} {text : List Lexeme} (h : FieldText field text) :
    ∃ lead ∈ leadNames, ∃ rest, text = name lead :: rest := by
  cases h with
  | named h =>
    exact ⟨_, List.mem_append_left _ (List.mem_append_left _ (List.mem_map_of_mem h)), [], rfl⟩
  | payload => exact ⟨"payload", List.mem_append_right _ (List.mem_singleton_self _), _, rfl⟩

theorem Leaf.head {x : Expr} {text : List Lexeme} (h : Leaf x text) :
    ∃ lead ∈ leadNames, ∃ rest, text = name lead :: rest := by
  have hpayload : "payload" ∈ leadNames := List.mem_append_right _ (List.mem_singleton_self _)
  cases h with
  | shorthand h =>
    exact ⟨_, List.mem_append_left _ (List.mem_append_right _ (List.mem_map_of_mem h)), [], rfl⟩
  | condition hfield hmask hcompare hvalue =>
    obtain ⟨lead, hlead, rest, rfl⟩ := hfield.head
    exact ⟨lead, hlead, _, rfl⟩
  | text => exact ⟨"payload", hpayload, _, rfl⟩
  | hex => exact ⟨"payload", hpayload, _, rfl⟩

theorem FieldText.predicate {field : Field} {fieldText : List Lexeme} (h : FieldText field fieldText)
    (rest : List Token) : Parser.predicate (fieldText.map Lexeme.token ++ rest) =
      Parser.condition field rest := by
  cases h with
  | @named text _ h =>
    have hall : ∀ p ∈ fieldNames, Parser.fieldNamed p.1 = some (p.2, none) ∧ p.1 ≠ "payload" := by
      decide
    obtain ⟨hnamed, hne⟩ := hall _ h
    simp only [List.map_cons, List.map_nil, token_name, List.cons_append, List.nil_append,
      Parser.predicate, Parser.take, Result.ok_bind, if_neg hne, hnamed]
  | @payload n offset size width h hoffset hsize hwidth =>
    have hextract := extraction_printed h hoffset hsize hwidth rest
    have hother : Parser.accept "contains"
        ((sign "[" :: Lexeme.word n.text :: width ++ [sign "]"]).map Lexeme.token ++ rest) = none := by
      rw [List.cons_append, List.cons_append, List.map_cons, token_sign]
      exact Parser.accept_of_ne (by decide) _
    simp only [List.cons_append, List.map_cons, token_name] at hextract hother ⊢
    simp only [Parser.predicate, Parser.take, Result.ok_bind, if_true, hother, hextract]

/-- The parser takes the tokens of a predicate and no others. -/
theorem Leaf.predicate {x : Expr} {text : List Lexeme} (h : Leaf x text) (rest : List Token) :
    Parser.predicate (text.map Lexeme.token ++ rest) = .ok (x, rest) := by
  cases h with
  | @shorthand text field v h =>
    have hall : ∀ p ∈ shorthands, Parser.fieldNamed p.1 = some (p.2.1, some p.2.2) ∧
        p.1 ≠ "payload" := by decide
    obtain ⟨hnamed, hne⟩ := hall _ h
    simp only [List.map_cons, List.map_nil, token_name, List.cons_append, List.nil_append,
      Parser.predicate, Parser.take, Result.ok_bind, if_neg hne, hnamed]
  | condition hfield hmask hcompare hvalue =>
    rw [List.map_append, List.append_assoc, hfield.predicate]
    exact condition_printed hmask hcompare hvalue rest
  | @text mark text h =>
    have hne : text.map Prod.fst ≠ [] := by simpa using h.nonempty
    simp only [List.map_cons, List.map_nil, token_name, List.cons_append, List.nil_append,
      Parser.predicate, Parser.take, Result.ok_bind, if_true, Parser.accept_self, token_quoted,
      pattern_quoted hne]
    rfl
  | hex h =>
    simp only [List.map_cons, List.map_nil, token_name, token_word, List.cons_append, List.nil_append,
      Parser.predicate, Parser.take, Result.ok_bind, if_true, Parser.accept_self, pattern_hex h]

end UsbScope.Filter
