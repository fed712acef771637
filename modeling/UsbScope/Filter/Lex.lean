import UsbScope.Filter.Print

/-! # Tokens of a printed expression

The tokenizer finds the lexemes again, wherever there is white space between
them, as long as no operator runs into a character that would double it. -/
namespace UsbScope.Filter
open UsbScope.Lib UsbScope.Common

/-- The tokenizer gives these tokens, with any fuel that is enough. -/
def Lexes (chars : List Char) (tokens : List Token) : Prop :=
  ∀ fuel, chars.length ≤ fuel → tokenizeFrom fuel chars = .ok tokens

namespace Lexes

variable {chars : List Char} {tokens : List Token}

theorem nil : Lexes [] [] := by
  intro fuel _
  cases fuel <;> rfl

theorem space {c : Char} (hc : isWhitespace c = true) (h : Lexes chars tokens) :
    Lexes (c :: chars) tokens := by
  intro fuel hfuel
  obtain ⟨fuel, rfl⟩ : ∃ n, fuel = n + 1 := ⟨fuel - 1, by simp at hfuel; omega⟩
  rw [tokenizeFrom, if_pos hc]
  exact h fuel (by simpa using hfuel)

theorem blank {space : List Char} (hspace : Blank space) (h : Lexes chars tokens) :
    Lexes (space ++ chars) tokens := by
  induction space with
  | nil => exact h
  | cons c rest ih =>
    exact (ih fun d hd => hspace d (List.mem_cons_of_mem _ hd)).space (hspace c List.mem_cons_self)

theorem inWord_eq {c : Char} (h : inWord c = true) : isWhitespace c = false ∧
    oneOf "'\"" c = false ∧ oneOf "()[]:&|!=<>" c = false := by
  unfold inWord at h
  rw [Bool.and_eq_true, Bool.not_eq_true', Bool.not_eq_true'] at h
  obtain ⟨hspace, hset⟩ := h
  refine ⟨hspace, ?_, ?_⟩
  · simp only [oneOf] at hset ⊢
    simp at hset ⊢
    exact ⟨hset.2.2.2.2.2.2.2.2.2.2.2.2, hset.2.2.2.2.2.2.2.2.2.2.2.1⟩
  · simp only [oneOf] at hset ⊢
    simp at hset ⊢
    tauto

theorem sign_eq {c : Char} (h : oneOf "()[]:&|!=<>" c = true) : isWhitespace c = false ∧
    oneOf "'\"" c = false ∧ inWord c = false := by
  simp [oneOf] at h
  rcases h with rfl | rfl | rfl | rfl | rfl | rfl | rfl | rfl | rfl | rfl | rfl <;> decide

/-- A word ends at the first character that is not part of one. -/
theorem word {text : List Char} (hne : text ≠ []) (htext : ∀ c ∈ text, inWord c = true)
    (hend : ∀ c ∈ chars.head?, inWord c = false) (h : Lexes chars tokens) :
    Lexes (text ++ chars) (⟨String.ofList text, false⟩ :: tokens) := by
  intro fuel hfuel
  obtain ⟨first, rest, rfl⟩ := List.exists_cons_of_ne_nil hne
  obtain ⟨fuel, rfl⟩ : ∃ n, fuel = n + 1 := ⟨fuel - 1, by simp at hfuel; omega⟩
  obtain ⟨hspace, hquote, hsign⟩ := inWord_eq (htext first List.mem_cons_self)
  have hrest : ∀ c ∈ rest, inWord c = true := fun c hc => htext c (List.mem_cons_of_mem _ hc)
  have htake : (rest ++ chars).takeWhile inWord = rest := by
    rw [List.takeWhile_append_of_pos hrest]
    cases chars with
    | nil => simp
    | cons c chars => rw [List.takeWhile_cons_of_neg (by simp [hend c rfl]), List.append_nil]
  have hdrop : (rest ++ chars).dropWhile inWord = chars := by
    rw [List.dropWhile_append_of_pos hrest]
    cases chars with
    | nil => rfl
    | cons c chars => rw [List.dropWhile_cons_of_neg (by simp [hend c rfl])]
  have hlen : chars.length ≤ fuel := by
    simp only [List.length_append, List.length_cons] at hfuel
    omega
  rw [List.cons_append, tokenizeFrom, if_neg (by simp [hspace]), if_neg (by simp [hquote]),
    if_neg (by simp [hsign]), hdrop, htake, h fuel hlen, Result.ok_bind]

/-- An operator of one character, with nothing behind it that would double it. -/
theorem single {c : Char} (hc : oneOf "()[]:&|!=<>" c = true) (hend : doubled c chars = false)
    (h : Lexes chars tokens) : Lexes (c :: chars) (⟨String.ofList [c], false⟩ :: tokens) := by
  intro fuel hfuel
  obtain ⟨fuel, rfl⟩ : ∃ n, fuel = n + 1 := ⟨fuel - 1, by simp at hfuel; omega⟩
  obtain ⟨hspace, hquote, _⟩ := sign_eq hc
  rw [tokenizeFrom, if_neg (by simp [hspace]), if_neg (by simp [hquote]), if_pos hc, hend]
  have hrest := h fuel (by simpa using hfuel)
  simp only [Bool.false_eq_true, if_false, List.drop_zero, List.take_zero, hrest, Result.ok_bind]

theorem double {c d : Char} (hc : oneOf "()[]:&|!=<>" c = true) (hd : doubled c [d] = true)
    (h : Lexes chars tokens) : Lexes (c :: d :: chars) (⟨String.ofList [c, d], false⟩ :: tokens) := by
  intro fuel hfuel
  obtain ⟨fuel, rfl⟩ : ∃ n, fuel = n + 1 := ⟨fuel - 1, by simp at hfuel; omega⟩
  obtain ⟨hspace, hquote, _⟩ := sign_eq hc
  have hdouble : doubled c (d :: chars) = true := hd
  rw [tokenizeFrom, if_neg (by simp [hspace]), if_neg (by simp [hquote]), if_pos hc, hdouble]
  have hrest := h fuel (by simp only [List.length_cons] at hfuel; omega)
  simp only [if_true, List.drop_one, List.tail_cons, List.take_succ_cons, List.take_zero, hrest,
    Result.ok_bind]

theorem quotedText_escaped {mark : Char} {text : List (Char × Bool)}
    (hmark : mark = '\'' ∨ mark = '"') (htext : ∀ c ∈ text, c.2 = false → c.1 ≠ mark ∧ c.1 ≠ '\\')
    (before chars : List Char) :
    quotedText mark before (text.flatMap Lexeme.escaped ++ mark :: chars) =
      .ok (String.ofList (before.reverse ++ text.map Prod.fst), chars) := by
  induction text generalizing before with
  | nil =>
    rw [List.flatMap_nil, List.nil_append, quotedText.eq_def]
    simp
  | cons c rest ih =>
    obtain ⟨c, escape⟩ := c
    have hrest := ih (fun d hd => htext d (List.mem_cons_of_mem _ hd)) (c :: before)
    rw [List.reverse_cons, List.append_assoc] at hrest
    rw [List.flatMap_cons, List.append_assoc, List.map_cons]
    cases escape with
    | true =>
      have hback : '\\' ≠ mark := by rcases hmark with rfl | rfl <;> decide
      rw [Lexeme.escaped, if_pos rfl, List.cons_append, List.cons_append, List.nil_append,
        quotedText.eq_def]
      dsimp only
      rw [if_neg hback, if_pos rfl]
      exact hrest
    | false =>
      obtain ⟨hne, hback⟩ := htext (c, false) List.mem_cons_self rfl
      rw [Lexeme.escaped, if_neg Bool.false_ne_true, List.cons_append, List.nil_append,
        quotedText.eq_def]
      dsimp only at hne hback ⊢
      rw [if_neg hne, if_neg hback]
      exact hrest

theorem quoted {mark : Char} {text : List (Char × Bool)} (hmark : mark = '\'' ∨ mark = '"')
    (htext : ∀ c ∈ text, c.2 = false → c.1 ≠ mark ∧ c.1 ≠ '\\') (h : Lexes chars tokens) :
    Lexes ((Lexeme.quoted mark text).chars ++ chars)
      (⟨String.ofList (text.map Prod.fst), true⟩ :: tokens) := by
  intro fuel hfuel
  obtain ⟨fuel, rfl⟩ : ∃ n, fuel = n + 1 := ⟨fuel - 1, by simp [Lexeme.chars] at hfuel; omega⟩
  have hother : isWhitespace mark = false ∧ oneOf "'\"" mark = true := by
    rcases hmark with rfl | rfl <;> decide
  have hlen : chars.length ≤ fuel := by
    simp only [Lexeme.chars, List.length_append, List.length_cons] at hfuel
    omega
  rw [Lexeme.chars, List.cons_append, List.append_assoc, List.singleton_append, tokenizeFrom,
    if_neg (by simp [hother.1]), if_pos hother.2, quotedText_escaped hmark htext, Result.ok_bind]
  dsimp only
  rw [h fuel hlen, Result.ok_bind, List.reverse_nil, List.nil_append]

end Lexes

/-! ## Lexemes -/

/-- The operators of one and of two characters. -/
def operators : List (List Char) :=
  [['('], [')'], ['['], [']'], [':'], ['&'], ['!'], ['='], ['<'], ['>'], ['&', '&'], ['|', '|'],
    ['!', '='], ['=', '='], ['<', '='], ['>', '=']]

theorem operators_cases {text : List Char} (h : text ∈ operators) :
    (∃ c, text = [c] ∧ oneOf "()[]:&|!=<>" c = true) ∨
      ∃ c d, text = [c, d] ∧ oneOf "()[]:&|!=<>" c = true ∧ doubled c [d] = true := by
  simp only [operators, List.mem_cons, List.not_mem_nil, or_false] at h
  rcases h with rfl | rfl | rfl | rfl | rfl | rfl | rfl | rfl | rfl | rfl | rfl | rfl | rfl | rfl |
    rfl | rfl
  iterate 10 exact .inl ⟨_, rfl, by decide⟩
  iterate 6 exact .inr ⟨_, _, rfl, by decide, by decide⟩

namespace Lexeme

def Valid : Lexeme → Prop
  | word text => text ≠ [] ∧ ∀ c ∈ text, inWord c = true
  | operator text => text ∈ operators
  | quoted mark text => (mark = '\'' ∨ mark = '"') ∧
    ∀ c ∈ text, c.2 = false → c.1 ≠ mark ∧ c.1 ≠ '\\'

def token : Lexeme → Token
  | word text => ⟨String.ofList text, false⟩
  | operator text => ⟨String.ofList text, false⟩
  | quoted _ text => ⟨String.ofList (text.map Prod.fst), true⟩

/-- The lexemes stay apart without white space: the first is no operator that
the other one's first character doubles. -/
def Fits (l next : Lexeme) : Prop := ∀ c, l = operator [c] → doubled c next.chars = false

end Lexeme

/-- The characters of a lexeme that is no word do not continue one. -/
theorem head_chars {l : Lexeme} (hl : l.Valid) (hword : l.isWord = false) (chars : List Char) :
    ∀ c ∈ (l.chars ++ chars).head?, inWord c = false := by
  cases l with
  | word text => cases hword
  | operator text =>
    intro c hc
    obtain ⟨d, rfl, hd⟩ | ⟨d, _, rfl, hd, _⟩ := operators_cases hl
    · cases hc
      exact (Lexes.sign_eq hd).2.2
    · cases hc
      exact (Lexes.sign_eq hd).2.2
  | quoted mark text =>
    intro c hc
    cases hc
    rcases hl.1 with rfl | rfl <;> decide

theorem chars_ne_nil {l : Lexeme} (hl : l.Valid) : l.chars ≠ [] := by
  cases l with
  | word text => exact hl.1
  | operator text =>
    obtain ⟨c, rfl, _⟩ | ⟨c, d, rfl, _⟩ := operators_cases hl
    · exact List.cons_ne_nil _ _
    · exact List.cons_ne_nil _ _
  | quoted mark text => exact List.cons_ne_nil _ _

theorem doubled_of_ne {c d : Char} (h : d ≠ '=' ∧ d ≠ '&' ∧ d ≠ '|') (chars : List Char) :
    doubled c (d :: chars) = false := by
  obtain ⟨heq, hand, hor⟩ := h
  have hset : oneOf "&|" c = true → c = '&' ∨ c = '|' := by simp [oneOf]
  rw [doubled, Bool.or_eq_false_iff]
  refine ⟨by simp [heq], ?_⟩
  by_contra hdouble
  rw [Bool.not_eq_false, Bool.and_eq_true] at hdouble
  obtain rfl := LawfulBEq.eq_of_beq hdouble.1
  exact (hset hdouble.2).elim hand hor

theorem doubled_space {c d : Char} (hd : isWhitespace d = true) (chars : List Char) :
    doubled c (d :: chars) = false := by
  refine doubled_of_ne ⟨?_, ?_, ?_⟩ chars
  all_goals
    intro heq
    rw [heq] at hd
    exact absurd hd (by decide)

/-- What stands first behind a lexeme: white space, or the next lexeme. -/
theorem Spaced.head {rest : List Lexeme} {chars : List Char} (h : Spaced rest chars) :
    (∀ c ∈ chars.head?, isWhitespace c = true) ∨
      ∃ next more, next ∈ rest.head? ∧ chars = next.chars ++ more := by
  cases h with
  | done hspace =>
    left
    intro c hc
    exact hspace c (List.mem_of_mem_head? hc)
  | @lexeme space chars l rest hspace h hwords =>
    cases space with
    | nil => exact .inr ⟨l, chars, rfl, rfl⟩
    | cons d space =>
      left
      intro c hc
      cases hc
      exact hspace d List.mem_cons_self

/-- The tokenizer undoes the layout. -/
theorem Spaced.lexes {ls : List Lexeme} {chars : List Char} (h : Spaced ls chars)
    (hvalid : ∀ l ∈ ls, l.Valid) (hfits : ls.IsChain Lexeme.Fits) :
    Lexes chars (ls.map Lexeme.token) := by
  induction h with
  | done hspace => simpa using Lexes.nil.blank hspace
  | @lexeme space chars l rest hspace h hwords ih =>
    have hl := hvalid l List.mem_cons_self
    have hrest := ih (fun x hx => hvalid x (List.mem_cons_of_mem _ hx)) hfits.tail
    have hhead := h.head
    refine Lexes.blank hspace ?_
    cases l with
    | word text =>
      refine Lexes.word hl.1 hl.2 ?_ hrest
      intro c hc
      have hblank : isWhitespace c = true → inWord c = false := by
        intro hspace
        simp [inWord, hspace]
      rcases hhead with hspace | ⟨next, more, hnext, rfl⟩
      · exact hblank (hspace c hc)
      · cases hnextWord : next.isWord with
        | true =>
          obtain ⟨d, hd, hspace⟩ := hwords rfl next hnext hnextWord
          cases hc.symm.trans hd
          exact hblank hspace
        | false =>
          exact head_chars (hvalid next (List.mem_cons_of_mem _ (List.mem_of_mem_head? hnext)))
            hnextWord more c hc
    | operator text =>
      obtain ⟨c, rfl, hc⟩ | ⟨c, d, rfl, hc, hd⟩ := operators_cases hl
      · refine Lexes.single hc ?_ hrest
        rcases hhead with hspace | ⟨next, more, hnext, rfl⟩
        · cases chars with
          | nil => rfl
          | cons d chars => exact doubled_space (hspace d rfl) chars
        · cases rest with
          | nil => cases hnext
          | cons first rest =>
            cases hnext
            have hfit := (List.isChain_cons_cons.mp hfits).1 c rfl
            have hne := chars_ne_nil (hvalid next (by simp))
            obtain ⟨d, tail, hchars⟩ := List.exists_cons_of_ne_nil hne
            rw [hchars] at hfit ⊢
            exact hfit
      · exact Lexes.double hc hd hrest
    | quoted mark text => exact Lexes.quoted hl.1 hl.2 hrest

end UsbScope.Filter
