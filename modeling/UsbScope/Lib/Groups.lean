import Mathlib

/-! # Cutting a sequence into groups

Elements arrive one after another and join the current group, unless a cut is
due before them: then the current group is closed and they open the next one.
What a cut depends on is the current group and the element that arrives. -/
namespace UsbScope.Lib

variable {α : Type}

/-- The closed groups and the current one, after some elements. -/
inductive Groups (due : List α → α → Prop) : List (List α) → List α → Prop where
  | start : Groups due [] []
  | join {closed : List (List α)} {current : List α} {x : α} (h : Groups due closed current)
      (hx : ¬ due current x) : Groups due closed (current ++ [x])
  | cut {closed : List (List α)} {current : List α} {x : α} (h : Groups due closed current)
      (hx : due current x) : Groups due (closed ++ [current]) [x]

namespace Groups

variable {due : List α → α → Prop} {closed : List (List α)} {current : List α}

/-- An element that is not the first of its group joined it when no cut was due. -/
theorem joined (h : Groups due closed current) {g : List α} (hg : g ∈ closed ++ [current])
    {before after : List α} {x : α} (hsplit : g = before ++ x :: after) (hne : before ≠ []) :
    ¬ due before x := by
  induction h generalizing g before after with
  | start =>
    obtain rfl : g = [] := by simpa using hg
    simp at hsplit
  | @join closed current y h hy ih =>
    rcases List.mem_append.mp hg with hmem | hmem
    · exact ih (List.mem_append_left _ hmem) hsplit hne
    · obtain rfl := List.mem_singleton.mp hmem
      -- the split is at the new element or inside the old group
      rcases List.eq_nil_or_concat after with rfl | ⟨after, z, rfl⟩
      · obtain ⟨rfl, hxy⟩ := List.append_inj' hsplit rfl
        cases hxy
        exact hy
      · have hsplit' : current ++ [y] = (before ++ x :: after) ++ [z] := by
          rw [hsplit]
          simp
        obtain ⟨rfl, -⟩ := List.append_inj' hsplit' rfl
        exact ih (List.mem_append_right _ (List.mem_singleton_self _)) rfl hne
  | @cut closed current y h hy ih =>
    rcases List.mem_append.mp hg with hmem | hmem
    · exact ih hmem hsplit hne
    · obtain rfl := List.mem_singleton.mp hmem
      obtain ⟨b, bs, rfl⟩ := List.exists_cons_of_ne_nil hne
      simp at hsplit

/-- Between two neighbouring groups a cut was due before the first element of
the second. -/
theorem due_between (h : Groups due closed current) {k : Nat} {g g' : List α}
    (hg : (closed ++ [current])[k]? = some g) (hg' : (closed ++ [current])[k + 1]? = some g') :
    ∃ x rest, g' = x :: rest ∧ due g x := by
  induction h generalizing g' with
  | start => simp at hg'
  | @join closed current y h hy ih =>
    have hk : k < closed.length := by
      have := (List.getElem?_eq_some_iff.mp hg').1
      simp at this
      omega
    rw [List.getElem?_append_left hk] at hg
    rcases Nat.lt_or_ge (k + 1) closed.length with hlt | hge
    · rw [List.getElem?_append_left hlt] at hg'
      refine ih ?_ ?_
      · rw [List.getElem?_append_left hk, hg]
      · rw [List.getElem?_append_left hlt, hg']
    · have hlast : k + 1 = closed.length := by omega
      rw [List.getElem?_append_right hge, hlast, Nat.sub_self] at hg'
      cases hg'
      obtain ⟨x, rest, hcurrent, hdue⟩ := @ih current
        (by rw [List.getElem?_append_left hk, hg])
        (by rw [List.getElem?_append_right hge, hlast, Nat.sub_self]; rfl)
      exact ⟨x, rest ++ [y], by rw [hcurrent]; rfl, hdue⟩
  | @cut closed current y h hy ih =>
    rcases Nat.lt_or_ge (k + 1) (closed ++ [current]).length with hlt | hge
    · rw [List.getElem?_append_left hlt] at hg'
      rw [List.getElem?_append_left (by omega)] at hg
      exact ih hg hg'
    · rw [List.getElem?_append_right hge] at hg'
      have hlen := (List.getElem?_eq_some_iff.mp hg').1
      simp only [List.length_append, List.length_singleton] at hlen hge
      have hlast : k = closed.length := by omega
      rw [hlast, List.getElem?_append_left (by simp), List.getElem?_append_right le_rfl, Nat.sub_self]
        at hg
      cases hg
      rw [hlast] at hg'
      simp at hg'
      exact ⟨y, [], hg'.symm, hy⟩

end Groups
end UsbScope.Lib
