import Mathlib

/-! # Tables of equal records

A `Table` is a region of `count` records of `stride` bytes each. `index` finds
the record that starts at an address and `slot` is where it starts. Two tables
of one count translate into each other, record by record. -/
namespace UsbScope.Lib

structure Table where
  base : Nat
  stride : Nat
  count : Nat
  pos : 0 < stride

namespace Table
variable {t u : Table} {a i j : Nat}

def slot (t : Table) (i : Nat) : Nat := t.base + i * t.stride

/-- The end of the region. -/
def limit (t : Table) : Nat := t.base + t.count * t.stride

def index (t : Table) (a : Nat) : Option Nat :=
  if a < t.base ∨ (a - t.base) % t.stride ≠ 0 then none
  else if t.count ≤ (a - t.base) / t.stride then none
  else some ((a - t.base) / t.stride)

/-- The record of `u` in the place of the record of `t` at an address. -/
def translate (t u : Table) (a : Nat) : Option Nat := (t.index a).map u.slot

theorem index_slot (h : i < t.count) : t.index (t.slot i) = some i := by
  have hsub : t.slot i - t.base = i * t.stride := Nat.add_sub_cancel_left _ _
  have hle : ¬ (t.slot i < t.base ∨ (t.slot i - t.base) % t.stride ≠ 0) := by
    rw [hsub, Nat.mul_mod_left]
    unfold slot
    omega
  rw [index, if_neg hle, hsub, Nat.mul_div_cancel _ t.pos, if_neg (Nat.not_le.mpr h)]

theorem of_index (h : t.index a = some i) : i < t.count ∧ a = t.slot i := by
  unfold index at h
  split at h
  · cases h
  rename_i hin
  split at h
  · cases h
  rename_i hlt
  obtain ⟨hle, hmod⟩ := not_or.mp hin
  cases h
  refine ⟨Nat.not_le.mp hlt, ?_⟩
  have hmul := Nat.div_add_mod' (a - t.base) t.stride
  unfold slot
  omega

theorem slot_inj (h : t.slot i = t.slot j) : i = j :=
  Nat.eq_of_mul_eq_mul_right t.pos (Nat.add_left_cancel h)

theorem slot_lt_limit (h : i < t.count) : t.slot i < t.limit := by
  have := Nat.mul_lt_mul_of_pos_right h t.pos
  unfold slot limit
  omega

theorem dvd_slot (h : t.stride ∣ t.base) (i : Nat) : t.stride ∣ t.slot i :=
  Nat.dvd_add h (Nat.dvd_mul_left _ _)

theorem of_translate {b : Nat} (h : t.translate u a = some b) :
    ∃ i < t.count, a = t.slot i ∧ b = u.slot i := by
  obtain ⟨i, hi, rfl⟩ := Option.map_eq_some_iff.mp h
  obtain ⟨hlt, ha⟩ := of_index hi
  exact ⟨i, hlt, ha, rfl⟩

theorem translate_slot (h : i < t.count) : t.translate u (t.slot i) = some (u.slot i) := by
  rw [translate, index_slot h, Option.map_some]

/-- No two records translate to one. -/
theorem translate_inj {a' b : Nat} (h : t.translate u a = some b)
    (h' : t.translate u a' = some b) : a = a' := by
  obtain ⟨i, -, rfl, rfl⟩ := of_translate h
  obtain ⟨j, -, rfl, hb⟩ := of_translate h'
  rw [slot_inj hb]

end Table
end UsbScope.Lib
