import Mathlib

/-! # Counting with intervals

Lists of intervals, given by start and length. Intervals that cover disjoint
ones with the same total length cover nothing else. -/
namespace UsbScope.Lib.Intervals

/-- The positions of a list of intervals. -/
def positions : List (Nat × Nat) → Finset Nat
  | [] => ∅
  | i :: rest => Finset.Ico i.1 (i.1 + i.2) ∪ positions rest

def total (l : List (Nat × Nat)) : Nat := (l.map Prod.snd).sum

theorem mem_positions {l : List (Nat × Nat)} {q : Nat} :
    q ∈ positions l ↔ ∃ i ∈ l, i.1 ≤ q ∧ q < i.1 + i.2 := by
  induction l with
  | nil => simp [positions]
  | cons i rest ih => simp [positions, ih]

theorem card_positions_le (l : List (Nat × Nat)) : (positions l).card ≤ total l := by
  induction l with
  | nil => exact Nat.zero_le _
  | cons i rest ih =>
    have hunion := Finset.card_union_le (Finset.Ico i.1 (i.1 + i.2)) (positions rest)
    rw [Nat.card_Ico] at hunion
    rw [positions, total, List.map_cons, List.sum_cons, ← total]
    omega

def Apart (i j : Nat × Nat) : Prop := i.1 + i.2 ≤ j.1 ∨ j.1 + j.2 ≤ i.1 ∨ i.2 = 0 ∨ j.2 = 0

theorem card_positions {l : List (Nat × Nat)} (h : l.Pairwise Apart) :
    (positions l).card = total l := by
  induction l with
  | nil => rfl
  | cons i rest ih =>
    obtain ⟨hfirst, hrest⟩ := List.pairwise_cons.mp h
    have hdisjoint : Disjoint (Finset.Ico i.1 (i.1 + i.2)) (positions rest) := by
      rw [Finset.disjoint_left]
      intro q hq hmem
      obtain ⟨j, hj, hle, hlt⟩ := mem_positions.mp hmem
      rw [Finset.mem_Ico] at hq
      have hapart := hfirst j hj
      unfold Apart at hapart
      omega
    rw [positions, Finset.card_union_of_disjoint hdisjoint, Nat.card_Ico, ih hrest, total, total,
      List.map_cons, List.sum_cons]
    omega

/-- A cover of disjoint intervals that is no longer than they are has no
position besides theirs. -/
theorem cover_exact {l cover : List (Nat × Nat)} (h : l.Pairwise Apart)
    (hcover : positions l ⊆ positions cover) (htotal : total cover ≤ total l) :
    positions cover = positions l := by
  refine (Finset.eq_of_subset_of_card_le hcover ?_).symm
  calc (positions cover).card ≤ total cover := card_positions_le cover
    _ ≤ total l := htotal
    _ = (positions l).card := (card_positions h).symm

end UsbScope.Lib.Intervals
