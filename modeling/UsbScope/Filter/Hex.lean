import UsbScope.Filter.Parse

/-! # Hexadecimal texts

The texts that are read as pairs of hexadecimal digits, and their bytes. The
pairs go through `u8::from_str_radix`, which takes a sign for the first of two
digits. -/
namespace UsbScope.Filter
open UsbScope.Lib UsbScope.Common

/-- `0-9`, `a-f` or `A-F`. -/
def IsHex (c : Char) : Prop := ('0' ≤ c ∧ c ≤ '9') ∨ ('a' ≤ c ∧ c ≤ 'f') ∨ ('A' ≤ c ∧ c ≤ 'F')

instance (c : Char) : Decidable (IsHex c) := inferInstanceAs (Decidable (_ ∨ _))

/-- The value of a digit, zero for anything else. -/
def hexValue (c : Char) : Nat :=
  if '0' ≤ c ∧ c ≤ '9' then c.toNat - 48
  else if 'a' ≤ c ∧ c ≤ 'f' then c.toNat - 87
  else if 'A' ≤ c ∧ c ≤ 'F' then c.toNat - 55
  else 0

/-- The bytes that pairs of digits denote. -/
def denoted : List Char → Bytes
  | a :: b :: rest => UInt8.ofNat (16 * hexValue a + hexValue b) :: denoted rest
  | _ => []

/-- Pairs of digits, or of a `+` and a digit. -/
def Lenient : List Char → Prop
  | [] => True
  | a :: b :: rest => (IsHex a ∨ a = '+') ∧ IsHex b ∧ Lenient rest
  | [_] => False

/-! ## Pairs -/

theorem toDigit_sixteen (c : Char) :
    toDigit 16 c = if IsHex c then some (hexValue c) else none := by
  have hle : ∀ a b : Char, a ≤ b ↔ a.toNat ≤ b.toNat := fun a b => Iff.rfl
  simp only [toDigit, IsHex, hexValue, hle, Char.reduceToNat]
  split
  · rw [Option.filter_some]
    grind
  split
  · rw [Option.filter_some]
    grind
  split
  · rw [Option.filter_some]
    grind
  · rw [Option.filter_none]
    grind

theorem digits_one (d : Char) : digits 16 [d] = if IsHex d then some (hexValue d) else none := by
  rw [digits, List.foldlM_cons, toDigit_sixteen]
  · split
    · simp
    · rfl
  · simp

theorem digits_two (c d : Char) : digits 16 [c, d] =
    if IsHex c ∧ IsHex d then some (16 * hexValue c + hexValue d) else none := by
  simp only [digits, List.foldlM_cons, List.foldlM_nil, toDigit_sixteen]
  by_cases hc : IsHex c
  · by_cases hd : IsHex d
    · simp [hc, hd]
    · simp [hc, hd]
  · simp [hc]

/-- Two digits, or a sign and a digit. -/
theorem fromStrRadix_pair (c d : Char) : fromStrRadix 16 false [c, d] =
    if (IsHex c ∨ c = '+') ∧ IsHex d then some ((16 * hexValue c + hexValue d : Nat) : Int)
    else none := by
  by_cases hplus : c = '+'
  · subst hplus
    rw [fromStrRadix, digits_one, show hexValue '+' = 0 from rfl]
    by_cases hd : IsHex d
    · simp [hd]
    · simp [hd]
  · have hplain : fromStrRadix 16 false [c, d] = (digits 16 [c, d]).map fun n => (n : Int) := by
      by_cases hminus : c = '-'
      · subst hminus
        rw [digits_two, if_neg (fun h => absurd h.1 (by decide))]
        rfl
      · unfold fromStrRadix
        split
        · rename_i heq
          exact absurd (List.cons.inj heq).1 hplus
        · rename_i heq
          exact absurd (List.cons.inj heq).1 hminus
        · rfl
    rw [hplain, digits_two]
    by_cases hcd : IsHex c ∧ IsHex d
    · simp [hcd]
    · rw [if_neg hcd, if_neg (by tauto)]
      rfl

/-! ## Texts

The pairs are cut from the UTF-8 text. A pair that starts or ends outside ASCII
is no number, so that the pairs of an accepted text are pairs of characters. -/

/-- A character is one byte of ASCII, or starts with a byte outside it. -/
theorem utf8EncodeChar_cases (c : Char) :
    (∃ a : UInt8, String.utf8EncodeChar c = [a] ∧ a < 0x80 ∧ Char.ofNat a.toNat = c) ∨
    (0x80 ≤ c.toNat ∧ ∃ a b more, String.utf8EncodeChar c = a :: b :: more ∧ 0x80 ≤ a) := by
  have hlead : ∀ {v : Nat}, 0x80 ≤ v → v < 0x100 → (0x80 : UInt8) ≤ UInt8.ofNat v := by
    intro v hlow hhigh
    rw [UInt8.le_iff_toNat_le, UInt8.toNat_ofNat_of_lt' hhigh]
    exact hlow
  by_cases hascii : c.toNat ≤ 0x7f
  · have hbyte : c.toNat < UInt8.size := hascii.trans_lt (by decide)
    refine .inl ⟨UInt8.ofNat c.toNat, if_pos hascii, ?_, ?_⟩
    · rw [UInt8.lt_iff_toNat_lt, UInt8.toNat_ofNat_of_lt' hbyte]
      exact Nat.lt_succ_of_le hascii
    · rw [UInt8.toNat_ofNat_of_lt' hbyte, Char.ofNat_toNat]
  · refine .inr ⟨by omega, ?_⟩
    unfold String.utf8EncodeChar
    dsimp only
    rw [if_neg (show ¬ c.val.toNat ≤ 0x7f from hascii)]
    split
    · exact ⟨_, _, _, rfl, hlead (by omega) (by omega)⟩
    split
    · exact ⟨_, _, _, rfl, hlead (by omega) (by omega)⟩
    · exact ⟨_, _, _, rfl, hlead (by omega) (by omega)⟩

theorem IsHex.ascii {c : Char} (h : IsHex c) : c.toNat < 0x80 := by
  have hle : ∀ a b : Char, a ≤ b ↔ a.toNat ≤ b.toNat := fun a b => Iff.rfl
  simp only [IsHex, hle, Char.reduceToNat] at h
  omega

theorem hexByte_ascii {a b : UInt8} (ha : a < 0x80) (hb : b < 0x80) {v : UInt8} :
    hexByte a b = .ok v ↔ (IsHex (Char.ofNat a.toNat) ∨ Char.ofNat a.toNat = '+') ∧
      IsHex (Char.ofNat b.toNat) ∧
      v = UInt8.ofNat (16 * hexValue (Char.ofNat a.toNat) + hexValue (Char.ofNat b.toNat)) := by
  rw [hexByte, if_pos ⟨ha, hb⟩, fromStrRadix_pair]
  split
  · rename_i h
    rw [context_some, Result.ok_bind, Int.toNat_natCast]
    constructor
    · intro hok
      cases hok
      exact ⟨h.1, h.2, rfl⟩
    · rintro ⟨-, -, rfl⟩
      rfl
  · rename_i h
    refine ⟨nofun, ?_⟩
    rintro ⟨hc, hd, -⟩
    exact absurd ⟨hc, hd⟩ h

theorem hexByte_of_not_ascii {a b : UInt8} (h : 0x80 ≤ a ∨ 0x80 ≤ b) (v : UInt8) :
    hexByte a b ≠ .ok v := by
  unfold hexByte
  rw [if_neg]
  · split
    · nofun
    · nofun
  · rintro ⟨ha, hb⟩
    rcases h with h | h
    · exact UInt8.not_lt.mpr h ha
    · exact UInt8.not_lt.mpr h hb

/-- The texts that are read in pairs, and what comes of them. -/
theorem hexBytes_iff {text : List Char} {bytes : Bytes} :
    ((text.flatMap String.utf8EncodeChar).length % 2 = 0 ∧
      hexBytes (text.flatMap String.utf8EncodeChar) = .ok bytes) ↔
    Lenient text ∧ bytes = denoted text := by
  induction text using Lenient.induct generalizing bytes with
  | case1 =>
    constructor
    · rintro ⟨-, hok⟩
      cases hok
      exact ⟨trivial, rfl⟩
    · rintro ⟨-, rfl⟩
      exact ⟨rfl, rfl⟩
  | case2 c d rest ih =>
    rw [List.flatMap_cons, List.flatMap_cons]
    rcases utf8EncodeChar_cases c with ⟨a, hc, ha, hca⟩ | ⟨hbig, a, b, more, hc, ha⟩
    · rcases utf8EncodeChar_cases d with ⟨b, hd, hb, hdb⟩ | ⟨hbig, b, b', more, hd, hb⟩
      · have hbyte := @hexByte_ascii a b ha hb
        rw [hca, hdb] at hbyte
        have hlength : ([a] ++ ([b] ++ rest.flatMap String.utf8EncodeChar)).length % 2 =
            (rest.flatMap String.utf8EncodeChar).length % 2 := by
          simp only [List.length_append, List.length_singleton]
          omega
        rw [hc, hd, hlength]
        constructor
        · rintro ⟨heven, hok⟩
          rw [List.singleton_append, List.singleton_append, hexBytes] at hok
          obtain ⟨v, hv, hok⟩ := Result.bind_eq_ok.mp hok
          obtain ⟨vs, hvs, hok⟩ := Result.bind_eq_ok.mp hok
          cases hok
          obtain ⟨hfirst, hsecond, rfl⟩ := hbyte.mp hv
          obtain ⟨hrest, rfl⟩ := ih.mp ⟨heven, hvs⟩
          exact ⟨⟨hfirst, hsecond, hrest⟩, rfl⟩
        · rintro ⟨⟨hfirst, hsecond, hrest⟩, rfl⟩
          obtain ⟨heven, hvs⟩ := ih.mpr ⟨hrest, rfl⟩
          refine ⟨heven, ?_⟩
          rw [List.singleton_append, List.singleton_append, hexBytes,
            hbyte.mpr ⟨hfirst, hsecond, rfl⟩, Result.ok_bind, hvs]
          rfl
      · constructor
        · rintro ⟨-, hok⟩
          rw [hc, hd, List.singleton_append, List.cons_append, hexBytes] at hok
          obtain ⟨v, hv, -⟩ := Result.bind_eq_ok.mp hok
          exact absurd hv (hexByte_of_not_ascii (.inr hb) v)
        · rintro ⟨⟨-, hsecond, -⟩, -⟩
          exact absurd hsecond.ascii (by omega)
    · constructor
      · rintro ⟨-, hok⟩
        rw [hc, List.cons_append, List.cons_append, hexBytes] at hok
        obtain ⟨v, hv, -⟩ := Result.bind_eq_ok.mp hok
        exact absurd hv (hexByte_of_not_ascii (.inl ha) v)
      · rintro ⟨⟨hfirst | rfl, -⟩, -⟩
        · exact absurd hfirst.ascii (by omega)
        · exact absurd hbig (by decide)
  | case3 c =>
    refine ⟨?_, fun h => h.1.elim⟩
    rintro ⟨heven, hok⟩
    rw [List.flatMap_singleton] at heven hok
    rcases utf8EncodeChar_cases c with ⟨a, hc, -⟩ | ⟨-, a, b, more, hc, ha⟩
    · rw [hc] at heven
      cases heven
    · rw [hc, hexBytes] at hok
      obtain ⟨v, hv, -⟩ := Result.bind_eq_ok.mp hok
      exact absurd hv (hexByte_of_not_ascii (.inl ha) v)

theorem intoBytes_ofList (text : List Char) :
    intoBytes (String.ofList text) = text.flatMap String.utf8EncodeChar := by
  rw [intoBytes, String.toUTF8_eq_toByteArray, String.toByteArray_ofList, List.utf8Encode,
    List.data_toByteArray]

theorem hexDigits_eq_some {t : String} {rest : List Char} :
    hexDigits t = some rest ↔ t.toList = '0' :: 'x' :: rest := by
  unfold hexDigits
  split
  · rename_i digits heq
    rw [heq]
    simp
  · rename_i hno
    exact ⟨nofun, fun heq => absurd heq (hno rest)⟩

/-- The unquoted tokens that are accepted for a pattern. -/
theorem pattern_unquoted {t : String} {bytes : Bytes} :
    pattern ⟨t, false⟩ = .ok bytes ↔
      ∃ rest, t.toList = '0' :: 'x' :: rest ∧ rest ≠ [] ∧ Lenient rest ∧ bytes = denoted rest := by
  simp only [pattern, Bool.false_eq_true, if_false]
  constructor
  · intro h
    obtain ⟨rest, hrest, h⟩ := Result.bind_eq_ok.mp h
    obtain ⟨heven, h⟩ := ensure_bind_eq_ok.mp h
    obtain ⟨bytes', hbytes, h⟩ := Result.bind_eq_ok.mp h
    obtain ⟨hne, h⟩ := ensure_bind_eq_ok.mp h
    cases h
    rw [intoBytes_ofList] at heven hbytes
    obtain ⟨hlenient, rfl⟩ := hexBytes_iff.mp ⟨heven, hbytes⟩
    refine ⟨rest, hexDigits_eq_some.mp (context_eq_ok.mp hrest), ?_, hlenient, rfl⟩
    rintro rfl
    exact hne rfl
  · rintro ⟨rest, ht, hne, hlenient, rfl⟩
    obtain ⟨heven, hbytes⟩ := hexBytes_iff.mpr ⟨hlenient, rfl⟩
    have hsome : denoted rest ≠ [] := by
      cases rest using Lenient.induct with
      | case1 => exact absurd rfl hne
      | case2 => exact List.cons_ne_nil _ _
      | case3 => exact hlenient.elim
    rw [hexDigits_eq_some.mpr ht, context_some, Result.ok_bind, intoBytes_ofList, ensure_of _ heven,
      Result.ok_bind, hbytes, Result.ok_bind, ensure_of _ hsome]
    rfl

/-- Without signs the pairs are pairs of digits. -/
theorem lenient_iff {digits : List Char} :
    Lenient digits ∧ '+' ∉ digits ↔ digits.length % 2 = 0 ∧ ∀ c ∈ digits, IsHex c := by
  induction digits using Lenient.induct with
  | case1 => simp [Lenient]
  | case2 a b rest ih =>
    have hplus : ∀ c, IsHex c → c ≠ '+' := by
      rintro c hc rfl
      exact absurd hc (by decide)
    constructor
    · rintro ⟨⟨ha, hb, hrest⟩, hno⟩
      obtain ⟨heven, hall⟩ := ih.mp ⟨hrest, fun hmem => hno (by simp [hmem])⟩
      refine ⟨by simp only [List.length_cons]; omega, ?_⟩
      intro c hc
      rcases List.mem_cons.mp hc with rfl | hc
      · exact ha.resolve_right fun h => hno (by simp [h])
      rcases List.mem_cons.mp hc with rfl | hc
      · exact hb
      · exact hall c hc
    · rintro ⟨heven, hall⟩
      have ha := hall a (by simp)
      have hb := hall b (by simp)
      obtain ⟨hrest, hno⟩ := ih.mpr ⟨by simp only [List.length_cons] at heven; omega,
        fun c hc => hall c (by simp [hc])⟩
      refine ⟨⟨.inl ha, hb, hrest⟩, ?_⟩
      intro hmem
      rcases List.mem_cons.mp hmem with heq | hmem
      · exact hplus a ha heq.symm
      rcases List.mem_cons.mp hmem with heq | hmem
      · exact hplus b hb heq.symm
      · exact hno hmem
  | case3 c => simp [Lenient]

end UsbScope.Filter
