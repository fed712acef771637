import UsbScope.Lib.Bytes
import UsbScope.Lib.Result

/-! # What a parser takes

A parser works from the front of its input and sees nothing behind what it
takes. `Took` records both: how many bytes a successful parse took, and that
any other continuation gives the same answer. -/
namespace UsbScope.Lib

variable {α β : Type}

/-- `f` took the first `n` bytes and left `rest`. On the same bytes before any
other rest it answers `out` of that rest. -/
structure Took (f : Bytes → Result α) (out : Bytes → α) (n : Nat) (input rest : Bytes) : Prop where
  le : n ≤ input.length
  left : rest = input.drop n
  same : ∀ g, f (input.take n ++ g) = .ok (out g)

namespace Took

variable {f : Bytes → Result α} {out : Bytes → α} {n m : Nat} {input mid rest : Bytes}

theorem append (h : Took f out n input rest) (g : Bytes) : f (input ++ g) = .ok (out (rest ++ g)) := by
  have hsame := h.same (rest ++ g)
  rwa [← List.append_assoc, h.left, List.take_append_drop, ← h.left] at hsame

/-- A computation that takes nothing. -/
theorem done (out : Bytes → α) (input : Bytes) : Took (fun i => .ok (out i)) out 0 input input where
  le := Nat.zero_le _
  left := rfl
  same := fun _ => rfl

theorem bind {next : α → Result β} {out' : Bytes → β} (h : Took f out n input mid)
    (hnext : Took (fun i => next (out i)) out' m mid rest) :
    Took (fun i => f i >>= next) out' (n + m) input rest where
  le := by
    have hm := hnext.le
    have hn := h.le
    rw [h.left, List.length_drop] at hm
    omega
  left := by rw [hnext.left, h.left, List.drop_drop]
  same := fun g => by
    rw [List.take_add, ← h.left, List.append_assoc, h.same, Result.ok_bind]
    exact hnext.same g

/-- A parser that goes on as `f` does after the first `n` bytes. -/
theorem after {f' : Bytes → Result α} (h : Took f out m mid rest) (hn : n ≤ input.length)
    (hmid : mid = input.drop n) (hf : ∀ i, f' (input.take n ++ i) = f i) :
    Took f' out (n + m) input rest where
  le := by
    have hm := h.le
    rw [hmid, List.length_drop] at hm
    omega
  left := by rw [h.left, hmid, List.drop_drop]
  same := fun g => by rw [List.take_add, ← hmid, List.append_assoc, hf, h.same]

/-- What a parser does with its input need only agree on the bytes it takes. -/
theorem congr {f' : Bytes → Result α} (h : Took f out n input rest)
    (hsame : ∀ i, i.take n = input.take n → f' i = f i) : Took f' out n input rest where
  le := h.le
  left := h.left
  same := fun g => by
    rw [hsame, h.same]
    rw [List.take_append_of_le_length (by rw [List.length_take]; have := h.le; omega),
      List.take_take, min_self]

theorem cast {m : Nat} (h : Took f out n input rest) (hm : n = m) : Took f out m input rest := hm ▸ h

end Took

/-! ## Input that breaks off -/

/-- On the front of its input, `f` answers as it does on the whole, or reports that
the input breaks off. -/
def Breaks (short : String → Prop) (f : Bytes → Result α) (out : Bytes → α) (input rest : Bytes) : Prop :=
  ∀ n, (∃ m, f (input.take n) = .ok (out (rest.take m))) ∨
    ∃ message, f (input.take n) = .error message ∧ short message

/-- On the front of its input, `f` reports nothing but that the input breaks off. -/
def Honest (short : String → Prop) (f : Bytes → Result α) (input : Bytes) : Prop :=
  ∀ n message, f (input.take n) = .error message → short message

section

variable {short : String → Prop} {f : Bytes → Result α} {out : Bytes → α} {next : α → Result β}
  {out' : Bytes → β} {input mid rest : Bytes}

namespace Breaks

theorem done (out : Bytes → α) (input : Bytes) : Breaks short (fun i => .ok (out i)) out input input :=
  fun n => .inl ⟨n, rfl⟩

theorem bind (h : Breaks short f out input mid)
    (hnext : Breaks short (fun i => next (out i)) out' mid rest) :
    Breaks short (fun i => f i >>= next) out' input rest := by
  intro n
  dsimp only
  rcases h n with ⟨m, hm⟩ | ⟨message, hmessage, hshort⟩
  · rw [hm, Result.ok_bind]
    exact hnext m
  · rw [hmessage]
    exact .inr ⟨message, rfl, hshort⟩

/-- What comes after a part that can break off need only be honest. -/
theorem honest_bind (h : Breaks short f out input mid)
    (hnext : Honest short (fun i => next (out i)) mid) :
    Honest short (fun i => f i >>= next) input := by
  intro n message herror
  dsimp only at herror
  rcases h n with ⟨m, hm⟩ | ⟨message', hmessage, hshort⟩
  · rw [hm, Result.ok_bind] at herror
    exact hnext m message herror
  · rw [hmessage] at herror
    cases herror
    exact hshort

end Breaks

theorem Honest.done (out : Bytes → α) (input : Bytes) : Honest short (fun i => .ok (out i)) input := by
  intro n message herror
  cases herror

end

end UsbScope.Lib
