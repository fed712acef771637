import Mathlib

/-! # Prefixes that end a text

The longest prefix of a word that a text ends with. It grows by one element at
most with each element of the text, and where it does not grow, the next
candidate is the longest prefix that the current one ends with, its own length
excluded. A word occurs in a text when it ends one of the text's prefixes. -/
namespace UsbScope.Lib

variable {α : Type} {word text : List α} {m n k : Nat} {a : α}

/-- The text ends with `n` elements of the word, and with no longer prefix of it. -/
structure Longest (word text : List α) (n : Nat) : Prop where
  le : n ≤ word.length
  suffix : word.take n <:+ text
  longest : ∀ m, m ≤ word.length → word.take m <:+ text → m ≤ n

theorem Longest.nil (word : List α) : Longest word [] 0 := by
  refine ⟨Nat.zero_le _, by simp, ?_⟩
  intro m hm hsuffix
  have hlen := hsuffix.length_le
  rwa [List.length_take_of_le hm, List.length_nil] at hlen

/-- One more element of the text. -/
theorem take_succ_suffix (h : m < word.length) :
    word.take (m + 1) <:+ text ++ [a] ↔ word.take m <:+ text ∧ word[m]? = some a := by
  rw [List.take_succ_eq_append_getElem h, List.getElem?_eq_getElem h, Option.some.injEq]
  constructor
  · intro hsuffix
    obtain ⟨front, hfront⟩ := hsuffix
    rw [← List.append_assoc] at hfront
    obtain ⟨hinit, hlast⟩ := List.append_inj' hfront rfl
    exact ⟨⟨front, hinit⟩, List.singleton_inj.mp hlast⟩
  · intro hparts
    obtain ⟨⟨front, rfl⟩, rfl⟩ := hparts
    exact ⟨front, by simp⟩

/-- The shorter of two prefixes that end a text ends the longer one. -/
theorem take_suffix_tail (hk : k ≤ word.length) (hsuffix : word.take k <:+ text) (hm : m < k)
    (h : word.take m <:+ text) : word.take m <:+ (word.take k).tail := by
  obtain ⟨a, rest, hrest⟩ : ∃ a rest, word.take k = a :: rest := by
    refine List.exists_cons_of_ne_nil ?_
    intro hnil
    have hlen := List.length_take_of_le hk
    rw [hnil, List.length_nil] at hlen
    omega
  have hlen := List.length_take_of_le hk
  have hshorter := List.length_take_of_le (show m ≤ word.length by omega)
  rw [hrest] at hsuffix hlen
  rw [hrest, List.tail_cons]
  refine List.suffix_of_suffix_length_le h ((List.suffix_cons a rest).trans hsuffix) ?_
  rw [List.length_cons] at hlen
  omega

/-- The longest prefix that also goes on with `a` is among the prefixes that end
the current one. -/
theorem Longest.shorter (hk : k ≤ word.length) (hsuffix : word.take k <:+ text)
    (h : Longest word (word.take k).tail n) (hm : m < k) (hmatch : word.take m <:+ text) : m ≤ n :=
  h.longest m (by omega) (take_suffix_tail hk hsuffix hm hmatch)

theorem Longest.suffix_of_tail (hsuffix : word.take k <:+ text)
    (h : Longest word (word.take k).tail n) : word.take n <:+ text :=
  (h.suffix.trans (List.tail_suffix _)).trans hsuffix

/-- What is left to decide once the longest prefix that can grow is known. -/
theorem Longest.snoc (hn : n < word.length) (hsuffix : word.take n <:+ text)
    (hlongest : ∀ m, m < word.length → word.take m <:+ text → word[m]? = some a → m ≤ n) :
    (word[n]? = some a → Longest word (text ++ [a]) (n + 1)) ∧
      (n = 0 → word[n]? ≠ some a → Longest word (text ++ [a]) 0) := by
  have hgrows : ∀ m, m + 1 ≤ word.length → word.take (m + 1) <:+ text ++ [a] →
      m ≤ n ∧ word[m]? = some a := by
    intro m hm hmatch
    obtain ⟨hinit, hlast⟩ := (take_succ_suffix hm).mp hmatch
    exact ⟨hlongest m hm hinit hlast, hlast⟩
  constructor
  · intro hnext
    refine ⟨hn, (take_succ_suffix hn).mpr ⟨hsuffix, hnext⟩, ?_⟩
    intro m hm hmatch
    cases m with
    | zero => exact Nat.zero_le _
    | succ m => exact Nat.succ_le_succ (hgrows m hm hmatch).1
  · intro hzero hnext
    refine ⟨Nat.zero_le _, by simp, ?_⟩
    intro m hm hmatch
    cases m with
    | zero => exact le_rfl
    | succ m =>
      obtain ⟨hle, hlast⟩ := hgrows m hm hmatch
      obtain rfl : m = n := by omega
      exact absurd hlast hnext

/-- The whole word ends the text exactly when nothing shorter is the longest. -/
theorem Longest.whole (h : Longest word text n) : n = word.length ↔ word <:+ text := by
  constructor
  · intro hlen
    have hsuffix := h.suffix
    rwa [hlen, List.take_length] at hsuffix
  · intro hsuffix
    have hle := h.longest word.length le_rfl (by rwa [List.take_length])
    exact le_antisymm h.le hle

/-- The word ends one of the prefixes of what follows `text`. -/
def EndsIn (word text more : List α) : Prop := ∃ k, 0 < k ∧ k ≤ more.length ∧ word <:+ text ++ more.take k

theorem not_endsIn_nil : ¬ EndsIn word text [] := by
  intro h
  obtain ⟨k, hk, hle, _⟩ := h
  simp at hle
  omega

theorem endsIn_cons {more : List α} :
    EndsIn word text (a :: more) ↔ word <:+ text ++ [a] ∨ EndsIn word (text ++ [a]) more := by
  constructor
  · intro h
    obtain ⟨k, hk, hle, hsuffix⟩ := h
    obtain ⟨k, rfl⟩ : ∃ j, k = j + 1 := ⟨k - 1, by omega⟩
    rw [List.take_succ_cons] at hsuffix
    cases k with
    | zero => exact .inl (by simpa using hsuffix)
    | succ k =>
      refine .inr ⟨k + 1, by omega, by simpa using hle, ?_⟩
      rwa [List.append_assoc, List.singleton_append]
  · intro h
    rcases h with h | ⟨k, hk, hle, hsuffix⟩
    · exact ⟨1, by omega, by simp, by simpa using h⟩
    · refine ⟨k + 1, by omega, by simpa using hle, ?_⟩
      rwa [List.take_succ_cons, ← List.singleton_append, ← List.append_assoc]

theorem endsIn_append {more rest : List α} :
    EndsIn word text (more ++ rest) ↔ EndsIn word text more ∨ EndsIn word (text ++ more) rest := by
  induction more generalizing text with
  | nil => simp [not_endsIn_nil]
  | cons a more ih =>
    rw [List.cons_append, endsIn_cons, endsIn_cons, ih, or_assoc, List.append_assoc,
      List.singleton_append]

/-- A nonempty word occurs in a text when one of the text's prefixes ends with it. -/
theorem endsIn_nil_iff (h : word ≠ []) : EndsIn word [] text ↔ word <:+: text := by
  constructor
  · intro hends
    obtain ⟨k, _, _, hsuffix⟩ := hends
    rw [List.nil_append] at hsuffix
    exact hsuffix.isInfix.trans (List.take_prefix k text).isInfix
  · intro hinfix
    obtain ⟨front, back, rfl⟩ := hinfix
    refine ⟨(front ++ word).length, ?_, by simp, ?_⟩
    · rw [List.length_append]
      have := List.length_pos_of_ne_nil h
      omega
    · rw [List.nil_append, List.take_left]
      exact List.suffix_append front word

end UsbScope.Lib
