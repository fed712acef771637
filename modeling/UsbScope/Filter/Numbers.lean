import UsbScope.Filter.Hex
import UsbScope.Filter.Print

/-! # Reading printed numbers

Digits, numbers, durations and hexadecimal patterns give back the values they
were printed from. -/
namespace UsbScope.Filter
open UsbScope.Lib UsbScope.Common

/-! ## Digits -/

theorem toDigit_hex : ∀ (d : Fin 16) (upper : Bool), toDigit 16 (digitChar upper d) = some d.val := by
  decide

theorem toDigit_decimal : ∀ d : Fin 10, toDigit 10 (digitChar false d) = some d.val := by decide

/-- No sign, no prefix of a number and no letter of a unit. -/
def Plain (c : Char) : Prop := c ∉ ['+', '-', 'x', 'n', 'u', 'm', 's'] ∧ inWord c = true

theorem plain_hex (d : Fin 16) (upper : Bool) : Plain (digitChar upper d) := by
  have hall : ∀ (d : Fin 16) (upper : Bool), digitChar upper d ∉ ['+', '-', 'x', 'n', 'u', 'm', 's'] ∧
      inWord (digitChar upper d) = true := by decide
  exact hall d upper

theorem plain_decimal (d : Fin 10) : Plain (digitChar false d) :=
  plain_hex (d.castLE (by decide)) false

theorem Plain.ne {c d : Char} (h : Plain c) (hd : d ∈ ['+', '-', 'x', 'n', 'u', 'm', 's']) : c ≠ d := by
  rintro rfl
  exact h.1 hd

theorem foldlM_digits {α : Type} {radix : Nat} {char : α → Char} {digit : α → Nat}
    (h : ∀ a, toDigit radix (char a) = some (digit a)) (ds : List α) (n : Nat) :
    (ds.map char).foldlM (fun n c => (toDigit radix c).map fun d => radix * n + d) n =
      some ((ds.map digit).foldl (fun n d => radix * n + d) n) := by
  induction ds generalizing n with
  | nil => rfl
  | cons a rest ih =>
    rw [List.map_cons, List.map_cons, List.foldlM_cons, h]
    exact ih _

theorem digits_map {α : Type} {radix : Nat} {char : α → Char} {digit : α → Nat}
    (h : ∀ a, toDigit radix (char a) = some (digit a)) {ds : List α} (hne : ds ≠ []) :
    digits radix (ds.map char) = some (Numeral.digitsValue radix (ds.map digit)) := by
  obtain ⟨a, rest, rfl⟩ := List.exists_cons_of_ne_nil hne
  exact foldlM_digits h (a :: rest) 0

/-- Text without a sign is all digits. -/
theorem fromStrRadix_plain {radix : Nat} {signed : Bool} {text : List Char}
    (h : ∀ c ∈ text, c ≠ '+' ∧ c ≠ '-') :
    fromStrRadix radix signed text = (digits radix text).map fun n => (n : Int) := by
  unfold fromStrRadix
  split
  · exact absurd rfl (h '+' List.mem_cons_self).1
  · exact absurd rfl (h '-' List.mem_cons_self).2
  · rfl

theorem hexDigits_none {text : List Char} (h : ∀ c ∈ text, c ≠ 'x') :
    hexDigits (String.ofList text) = none := by
  unfold hexDigits
  rw [String.toList_ofList]
  split
  · exact absurd rfl (h 'x' (by simp))
  · rfl

theorem hexDigits_hex (rest : List Char) :
    hexDigits (String.ofList ('0' :: 'x' :: rest)) = some rest := by
  rw [hexDigits, String.toList_ofList]
  rfl

/-! ## Numbers -/

namespace Numeral

variable {n : Numeral}

theorem InRange.number (h : n.InRange) : number (String.ofList n.text) = .ok n.value := by
  have hlow := h.low
  have hhigh := h.high
  have hdigits := h.digits
  cases n with
  | decimal negative ds =>
    have hne : ds ≠ [] := by simpa [isEmpty] using hdigits
    have hvalue := digits_map toDigit_decimal hne
    have hx : ∀ c ∈ (decimal negative ds).text, c ≠ 'x' := by
      intro c hc
      simp only [text, List.mem_append, List.mem_map] at hc
      rcases hc with hc | ⟨d, _, rfl⟩
      · cases negative with
        | false => simp at hc
        | true =>
          obtain rfl : c = '-' := by simpa using hc
          decide
      · exact (plain_decimal d).ne (by decide)
    have hparse : fromStrRadix 10 true (decimal negative ds).text = some (decimal negative ds).value := by
      cases negative with
      | false =>
        have hplain : ∀ c ∈ (decimal false ds).text, c ≠ '+' ∧ c ≠ '-' := by
          intro c hc
          simp only [text, Bool.false_eq_true, if_false, List.nil_append, List.mem_map] at hc
          obtain ⟨d, _, rfl⟩ := hc
          exact ⟨(plain_decimal d).ne (by decide), (plain_decimal d).ne (by decide)⟩
        rw [fromStrRadix_plain hplain]
        simp only [text, value, Bool.false_eq_true, if_false, List.nil_append]
        rw [hvalue]
        rfl
      | true =>
        simp only [text, value, if_true, List.singleton_append]
        rw [fromStrRadix, if_pos rfl, hvalue]
        rfl
    have hrange : inRange (-2 ^ 127) (2 ^ 127 - 1) (some (decimal negative ds).value) =
        some (decimal negative ds).value := by
      rw [inRange, Option.filter_some, if_pos]
      simp only [decide_eq_true_eq]
      omega
    rw [Filter.number, hexDigits_none hx]
    dsimp only
    rw [String.toList_ofList, hparse, hrange, context_some, Result.ok_bind, ensure_of _ ⟨hlow, hhigh⟩,
      Result.ok_bind]
  | hex ds =>
    have hne : ds ≠ [] := by simpa [isEmpty] using hdigits
    have hvalue := digits_map (fun d : Fin 16 × Bool => toDigit_hex d.1 d.2) hne
    have hplain : ∀ c ∈ ds.map (fun d => digitChar d.2 d.1), c ≠ '+' ∧ c ≠ '-' := by
      intro c hc
      obtain ⟨d, _, rfl⟩ := List.mem_map.mp hc
      exact ⟨(plain_hex d.1 d.2).ne (by decide), (plain_hex d.1 d.2).ne (by decide)⟩
    have hrange : inRange 0 (2 ^ 64 - 1) (some (hex ds).value) = some (hex ds).value := by
      rw [inRange, Option.filter_some, if_pos]
      simp only [decide_eq_true_eq]
      refine ⟨?_, hhigh⟩
      simp [value]
    rw [Filter.number, text, hexDigits_hex]
    dsimp only
    rw [fromStrRadix_plain hplain, hvalue]
    exact context_eq_ok.mpr hrange

/-- The characters of a number, none of which is in a unit. -/
theorem text_plain (n : Numeral) : ∀ c ∈ n.text, c ∉ ['n', 'u', 'm', 's'] ∧ inWord c = true := by
  have hdigit : ∀ c, Plain c → c ∉ ['n', 'u', 'm', 's'] ∧ inWord c = true := by
    intro c hc
    refine ⟨?_, hc.2⟩
    intro hmem
    exact hc.1 (List.mem_cons_of_mem _ (List.mem_cons_of_mem _ (List.mem_cons_of_mem _ hmem)))
  intro c hc
  cases n with
  | decimal negative ds =>
    simp only [text, List.mem_append, List.mem_map] at hc
    rcases hc with hc | ⟨d, _, rfl⟩
    · cases negative with
      | false => simp at hc
      | true =>
        obtain rfl : c = '-' := by simpa using hc
        decide
    · exact hdigit _ (plain_decimal d)
  | hex ds =>
    simp only [text, List.mem_cons, List.mem_map] at hc
    rcases hc with rfl | rfl | ⟨d, _, rfl⟩
    · decide
    · decide
    · exact hdigit _ (plain_hex d.1 d.2)

theorem InRange.text_ne_nil (h : n.InRange) : n.text ≠ [] := by
  have hdigits := h.digits
  cases n with
  | decimal negative ds =>
    have hne : ds ≠ [] := by simpa [isEmpty] using hdigits
    simp [text, hne]
  | hex ds => exact List.cons_ne_nil _ _

end Numeral

/-! ## Durations -/

theorem stripSuffix_append (suffix : String) (text : List Char) :
    stripSuffix suffix (String.ofList (text ++ suffix.toList)) = some (String.ofList text) := by
  rw [stripSuffix, String.toList_ofList, if_pos (by simp)]
  simp

/-- Another unit, or none at all, is not taken for this one. -/
theorem stripSuffix_none {suffix : String} {text : List Char} (h : ¬ suffix.toList <:+ text) :
    stripSuffix suffix (String.ofList text) = none := by
  rw [stripSuffix, String.toList_ofList, if_neg]
  rwa [List.isSuffixOf_iff_suffix]

theorem not_suffix_pair {text : List Char} {a b : Char} (hab : a ≠ b) :
    ¬ [a, 's'] <:+ text ++ [b, 's'] := by
  rintro ⟨front, h⟩
  obtain ⟨_, h⟩ := List.append_inj' h rfl
  cases h
  exact hab rfl

theorem not_suffix_single {text : List Char} {a : Char} (ha : a ∉ text) :
    ¬ [a, 's'] <:+ text ++ ['s'] := by
  rintro ⟨front, h⟩
  have hsplit : (front ++ [a]) ++ ['s'] = text ++ ['s'] := by simpa using h
  obtain ⟨rfl, _⟩ := List.append_inj' hsplit rfl
  exact ha (by simp)

theorem not_suffix_plain {text suffix : List Char} (hs : 's' ∉ text) (hmem : 's' ∈ suffix) :
    ¬ suffix <:+ text := fun h => hs (h.subset hmem)

theorem Numeral.InRange.duration {n : Numeral} (h : n.InRange) {unit : String} {factor : Int}
    (hunit : (unit, factor) ∈ durationUnits) :
    duration (String.ofList (n.text ++ unit.toList)) = .ok (n.value * factor) := by
  have hlow := h.low
  have hhigh := h.high
  have hno : ∀ c ∈ ['n', 'u', 'm', 's'], c ∉ n.text := fun c hc hmem => (n.text_plain c hmem).1 hc
  have hrange : ∀ m : Int, 0 < m → m ≤ 1000000000 →
      inRange (-2 ^ 127) (2 ^ 127 - 1) (some (n.value * m)) = some (n.value * m) := by
    intro m hm hle
    rw [inRange, Option.filter_some, if_pos]
    simp only [decide_eq_true_eq]
    constructor
    · nlinarith
    · nlinarith
  unfold Filter.duration
  simp only [durationUnits, List.mem_cons, Prod.mk.injEq, List.not_mem_nil, or_false] at hunit
  rcases hunit with ⟨rfl, rfl⟩ | ⟨rfl, rfl⟩ | ⟨rfl, rfl⟩ | ⟨rfl, rfl⟩ | ⟨rfl, rfl⟩
  · have hnone : ∀ suffix : String, 's' ∈ suffix.toList →
        stripSuffix suffix (String.ofList (n.text ++ "".toList)) = none := by
      intro suffix hs
      exact stripSuffix_none (not_suffix_plain (by simpa using hno 's' (by decide)) hs)
    simp only [durationIn, hnone "ns" (by decide), hnone "us" (by decide), hnone "ms" (by decide),
      hnone "s" (by decide)]
    simpa using h.number
  · simp only [durationIn, stripSuffix_append, h.number, Result.ok_bind, hrange 1 (by decide) (by decide),
      context_some]
  · simp only [durationIn, stripSuffix_append, h.number, Result.ok_bind,
      stripSuffix_none (show ¬ "ns".toList <:+ n.text ++ "us".toList from not_suffix_pair (by decide)),
      hrange 1000 (by decide) (by decide), context_some]
  · simp only [durationIn, stripSuffix_append, h.number, Result.ok_bind,
      stripSuffix_none (show ¬ "ns".toList <:+ n.text ++ "ms".toList from not_suffix_pair (by decide)),
      stripSuffix_none (show ¬ "us".toList <:+ n.text ++ "ms".toList from not_suffix_pair (by decide)),
      hrange 1000000 (by decide) (by decide), context_some]
  · simp only [durationIn, stripSuffix_append, h.number, Result.ok_bind,
      stripSuffix_none (show ¬ "ns".toList <:+ n.text ++ "s".toList from
        not_suffix_single (hno 'n' (by decide))),
      stripSuffix_none (show ¬ "us".toList <:+ n.text ++ "s".toList from
        not_suffix_single (hno 'u' (by decide))),
      stripSuffix_none (show ¬ "ms".toList <:+ n.text ++ "s".toList from
        not_suffix_single (hno 'm' (by decide))),
      hrange 1000000000 (by decide) (by decide), context_some]

/-! ## Search patterns -/

theorem isHex_digitChar (d : Fin 16) (upper : Bool) :
    IsHex (digitChar upper d) ∧ hexValue (digitChar upper d) = d.val := by
  have hall : ∀ (d : Fin 16) (upper : Bool),
      IsHex (digitChar upper d) ∧ hexValue (digitChar upper d) = d.val := by decide
  exact hall d upper

/-- Printed bytes are pairs of digits, which denote them. -/
theorem lenient_hexPairs (bytes : List (UInt8 × Bool × Bool)) :
    Lenient (bytes.flatMap hexPair) ∧ denoted (bytes.flatMap hexPair) = bytes.map Prod.fst := by
  induction bytes with
  | nil => exact ⟨trivial, rfl⟩
  | cons byte rest ih =>
    obtain ⟨v, upper, upper'⟩ := byte
    have hv : v.toNat < 256 := v.toNat_lt
    obtain ⟨hhigh, hhighValue⟩ := isHex_digitChar ⟨v.toNat / 16, by omega⟩ upper
    obtain ⟨hlow, hlowValue⟩ := isHex_digitChar ⟨v.toNat % 16, by omega⟩ upper'
    refine ⟨⟨.inl hhigh, hlow, ih.1⟩, ?_⟩
    have hvalue : 16 * hexValue (digitChar upper (v.toNat / 16)) +
        hexValue (digitChar upper' (v.toNat % 16)) = v.toNat := by
      rw [hhighValue, hlowValue]
      exact Nat.div_add_mod v.toNat 16
    rw [List.flatMap_cons, hexPair, List.cons_append, List.cons_append, List.nil_append, denoted,
      hvalue, ih.2, UInt8.ofNat_toNat]
    rfl

theorem pattern_hex {bytes : List (UInt8 × Bool × Bool)} (hne : bytes ≠ []) :
    pattern ⟨String.ofList ('0' :: 'x' :: bytes.flatMap hexPair), false⟩ = .ok (bytes.map Prod.fst) := by
  obtain ⟨hlenient, hdenoted⟩ := lenient_hexPairs bytes
  refine pattern_unquoted.mpr
    ⟨bytes.flatMap hexPair, String.toList_ofList, ?_, hlenient, hdenoted.symm⟩
  intro hnil
  rw [hnil] at hdenoted
  exact hne (List.map_eq_nil_iff.mp hdenoted.symm)

theorem pattern_quoted {text : List Char} (hne : text ≠ []) :
    pattern ⟨String.ofList text, true⟩ = .ok (intoBytes (String.ofList text)) := by
  have hbytes : intoBytes (String.ofList text) ≠ [] := by
    obtain ⟨c, rest, rfl⟩ := List.exists_cons_of_ne_nil hne
    rw [intoBytes_ofList, List.flatMap_cons]
    intro h
    exact String.utf8EncodeChar_ne_nil (List.append_eq_nil_iff.mp h).1
  simp only [pattern, if_true, Result.ok_bind, ensure_of _ hbytes]

end UsbScope.Filter
