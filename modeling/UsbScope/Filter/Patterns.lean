import UsbScope.Filter.Spacing

/-! # Hexadecimal patterns

What `payload contains` takes for a hexadecimal pattern, over all unquoted
tokens. -/
namespace UsbScope.Filter
open UsbScope.Lib UsbScope.Common

/-- `0x` and whole bytes, at least one. -/
def HexText (t : String) (digits : List Char) : Prop :=
  t.toList = '0' :: 'x' :: digits ∧ digits ≠ [] ∧ digits.length % 2 = 0 ∧ ∀ c ∈ digits, IsHex c

/-- A pattern that is read although a sign stands for a digit of it. -/
def Signed (t : String) : Prop :=
  ∃ rest, t.toList = '0' :: 'x' :: rest ∧ Lenient rest ∧ '+' ∈ rest

/-- `payload contains t` is accepted exactly for hexadecimal texts, and searches
for the bytes that they denote. -/
def Exact (t : String) : Prop := ∀ f, parse ("payload contains " ++ t) = .ok f ↔
  ∃ digits, HexText t digits ∧ f = ⟨.contains (denoted digits)⟩

/-! ## Tokens -/

theorem length_quotedText {mark : Char} {before chars rest : List Char} {text : String}
    (h : quotedText mark before chars = .ok (text, rest)) : rest.length ≤ chars.length := by
  fun_induction quotedText mark before chars with
  | case1 => cases h
  | case2 =>
    cases h
    exact Nat.le_succ _
  | case3 => cases h
  | case4 before d more hmark ih => exact (ih h).trans (Nat.le_add_right _ 2)
  | case5 before c more hmark hback ih => exact (ih h).trans (Nat.le_succ _)

/-- More fuel than characters makes no difference. -/
theorem tokenizeFrom_fuel {chars : List Char} {fuel fuel' : Nat} (h : chars.length ≤ fuel)
    (h' : chars.length ≤ fuel') : tokenizeFrom fuel chars = tokenizeFrom fuel' chars := by
  induction fuel generalizing chars fuel' with
  | zero =>
    obtain rfl := List.length_eq_zero_iff.mp (Nat.le_zero.mp h)
    cases fuel' with
    | zero => rfl
    | succ => rfl
  | succ n ih =>
    cases chars with
    | nil =>
      cases fuel' with
      | zero => rfl
      | succ => rfl
    | cons ch rest =>
      obtain ⟨n', rfl⟩ : ∃ n', fuel' = n' + 1 := ⟨fuel' - 1, by simp at h'; omega⟩
      have hrest : ∀ more : List Char, more.length ≤ rest.length →
          tokenizeFrom n more = tokenizeFrom n' more := by
        intro more hmore
        rw [List.length_cons] at h h'
        exact ih (by omega) (by omega)
      rw [tokenizeFrom, tokenizeFrom]
      split
      · exact hrest _ le_rfl
      split
      · cases hquoted : quotedText ch [] rest with
        | error message => rfl
        | ok result =>
          obtain ⟨text, more⟩ := result
          rw [Result.ok_bind, Result.ok_bind]
          dsimp only
          rw [hrest more (length_quotedText hquoted)]
      split
      · dsimp only
        rw [hrest _ (List.drop_sublist ..).length_le]
      · rw [hrest _ ((List.dropWhile_sublist _).length_le)]

/-- A text that the tokenizer takes for one token without quotation marks. -/
def Unquoted (t : String) : Prop := tokenize t = .ok [⟨t, false⟩]

instance (t : String) : Decidable (Unquoted t) := inferInstanceAs (Decidable (_ = _))

theorem Unquoted.lexes {t : String} (h : Unquoted t) : Lexes t.toList [⟨t, false⟩] := by
  intro fuel hfuel
  rw [← h, tokenize]
  exact tokenizeFrom_fuel hfuel le_rfl

theorem Lexes.name {text : String} {chars : List Char} {tokens : List Token}
    (hname : text ∈ leadNames ++ ["contains", "not", "and", "or"]) (h : Lexes chars tokens) :
    Lexes (text.toList ++ ' ' :: chars) (⟨text, false⟩ :: tokens) := by
  obtain ⟨hne, hword⟩ := name_valid text hname
  have hend : ∀ c ∈ (' ' :: chars).head?, inWord c = false := by
    intro c hc
    cases hc
    decide
  have htext := Lexes.word hne hword hend (h.space (by decide))
  rwa [String.ofList_toList] at htext

theorem Unquoted.tokenize {t : String} (h : Unquoted t) :
    tokenize ("payload contains " ++ t) =
      .ok [⟨"payload", false⟩, ⟨"contains", false⟩, ⟨t, false⟩] := by
  have htext : ("payload contains " ++ t).toList =
      "payload".toList ++ ' ' :: ("contains".toList ++ ' ' :: t.toList) := by
    rw [String.toList_append]
    rfl
  rw [Filter.tokenize, htext]
  exact ((h.lexes.name (by decide)).name (by decide)) _ le_rfl

/-- `payload contains t` is accepted with the pattern of `t`. -/
theorem Unquoted.parse {t : String} (h : Unquoted t) :
    parse ("payload contains " ++ t) =
      pattern ⟨t, false⟩ >>= fun bytes => .ok ⟨.contains bytes⟩ := by
  have hunary : Parser.unary Parser.maxDepth [⟨"payload", false⟩, ⟨"contains", false⟩, ⟨t, false⟩] =
      pattern ⟨t, false⟩ >>= fun bytes => .ok (.contains bytes, []) := rfl
  rw [Filter.parse, h.tokenize, Result.ok_bind, if_neg (by simp), Parser.or, Parser.and, hunary]
  cases pattern ⟨t, false⟩ with
  | error message => rfl
  | ok bytes => rfl

theorem unquoted_word {text : List Char} (hne : text ≠ []) (hword : ∀ c ∈ text, inWord c = true) :
    Unquoted (String.ofList text) := by
  have hlexes := Lexes.word hne hword (by simp) Lexes.nil
  rw [List.append_nil] at hlexes
  rw [Unquoted, Filter.tokenize, String.toList_ofList]
  exact hlexes _ le_rfl

/-! ## Patterns -/

/-- Every byte string is the pattern of its printing, in letters of either case. -/
theorem parse_hexPairs {bytes : List (UInt8 × Bool × Bool)} (hne : bytes ≠ []) :
    parse ("payload contains " ++ String.ofList ('0' :: 'x' :: bytes.flatMap hexPair)) =
      .ok ⟨.contains (bytes.map Prod.fst)⟩ := by
  have hword : ∀ c ∈ '0' :: 'x' :: bytes.flatMap hexPair, inWord c = true := by
    intro c hc
    simp only [List.mem_cons] at hc
    rcases hc with rfl | rfl | hc
    · decide
    · decide
    · exact hexPairs_inWord bytes c hc
  rw [(unquoted_word (List.cons_ne_nil _ _) hword).parse, pattern_hex hne, Result.ok_bind]

theorem exact_iff {t : String} (h : Unquoted t) : Exact t ↔ ¬ Signed t := by
  have hparse : ∀ f, parse ("payload contains " ++ t) = .ok f ↔
      ∃ rest, (t.toList = '0' :: 'x' :: rest ∧ rest ≠ [] ∧ Lenient rest) ∧
        f = ⟨.contains (denoted rest)⟩ := by
    intro f
    rw [h.parse]
    constructor
    · intro hok
      obtain ⟨bytes, hbytes, hf⟩ := Result.bind_eq_ok.mp hok
      cases hf
      obtain ⟨rest, ht, hne, hlenient, rfl⟩ := pattern_unquoted.mp hbytes
      exact ⟨rest, ⟨ht, hne, hlenient⟩, rfl⟩
    · rintro ⟨rest, ⟨ht, hne, hlenient⟩, rfl⟩
      rw [pattern_unquoted.mpr ⟨rest, ht, hne, hlenient, rfl⟩, Result.ok_bind]
  constructor
  · rintro hexact ⟨rest, ht, hlenient, hplus⟩
    -- the token is accepted, and its sign is no digit
    obtain ⟨digits, ⟨ht', -, -, hall⟩, -⟩ :=
      (hexact _).mp ((hparse _).mpr ⟨rest, ⟨ht, List.ne_nil_of_mem hplus, hlenient⟩, rfl⟩)
    rw [ht] at ht'
    cases ht'
    exact absurd (hall '+' hplus) (by decide)
  · intro hno f
    rw [hparse]
    refine exists_congr fun rest => and_congr_left fun _ => ?_
    constructor
    · rintro ⟨ht, hne, hlenient⟩
      have hplain : '+' ∉ rest := fun hplus => hno ⟨rest, ht, hlenient, hplus⟩
      obtain ⟨heven, hall⟩ := lenient_iff.mp ⟨hlenient, hplain⟩
      exact ⟨ht, hne, heven, hall⟩
    · rintro ⟨ht, hne, heven, hall⟩
      exact ⟨ht, hne, (lenient_iff.mpr ⟨heven, hall⟩).1⟩

/-- Hexadecimal patterns mean their bytes, but for those with signs. -/
theorem hex_patterns_exact_iff {t : String} (h : Unquoted t) :
    (Exact t ∧ ∀ bytes : List (UInt8 × Bool × Bool), bytes ≠ [] →
      parse ("payload contains " ++ String.ofList ('0' :: 'x' :: bytes.flatMap hexPair)) =
        .ok ⟨.contains (bytes.map Prod.fst)⟩) ↔ ¬ Signed t := by
  rw [← exact_iff h]
  exact and_iff_left fun bytes hne => parse_hexPairs hne

theorem hex_patterns_exact_iff_beef : Unquoted "0xbeEF" ∧ Exact "0xbeEF" := by
  have hunquoted : Unquoted "0xbeEF" := by decide
  refine ⟨hunquoted, ((hex_patterns_exact_iff hunquoted).mpr ?_).1⟩
  rintro ⟨rest, ht, -, hplus⟩
  have hmem : '+' ∈ "0xbeEF".toList := by
    rw [ht]
    simp [hplus]
  exact absurd hmem (by decide)

/-- A sign and a digit are read as one byte. -/
theorem hex_patterns_signed : Unquoted "0x+1" ∧
    parse "payload contains 0x+1" = .ok ⟨.contains [1]⟩ ∧
    (¬ ∃ digits, HexText "0x+1" digits) ∧ ¬ Exact "0x+1" := by
  have hparse : parse ("payload contains " ++ "0x+1") = .ok ⟨.contains [1]⟩ := by decide
  have hno : ¬ ∃ digits, HexText "0x+1" digits := by
    rintro ⟨digits, ht, -, -, hall⟩
    have htext : "0x+1".toList = ['0', 'x', '+', '1'] := by decide
    rw [htext] at ht
    cases ht
    exact absurd (hall '+' (by simp)) (by decide)
  refine ⟨by decide, hparse, hno, fun hexact => ?_⟩
  obtain ⟨digits, hdigits, -⟩ := (hexact _).mp hparse
  exact hno ⟨digits, hdigits⟩

end UsbScope.Filter
