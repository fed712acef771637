import Mathlib

/-! # Ordered maps of half-open ranges

A map from the start of a range to its end, kept as the list of its entries in
key order, with the lookups and updates of an ordered map. `Canonical` maps
hold nonempty ranges with at least one uncovered position between neighbours;
such a map is determined by the set of positions it covers (`Canonical.ext`).
`absorb` is the loop that takes the entries of a key window out of the map and
returns the range they span; `absorb_ok_iff` says what it computes, and
`covered_insert_absorbed` that inserting that range again gives exactly the
union. -/
namespace UsbScope.Lib

abbrev RangeMap := List (Nat × Nat)

namespace RangeMap

/-- The entry with the greatest key not above `k`. -/
def lastLE (m : RangeMap) (k : Nat) : Option (Nat × Nat) :=
  (m.filter fun e => decide (e.1 ≤ k)).getLast?

/-- The entry with the least key not below `k`. -/
def firstGE (m : RangeMap) (k : Nat) : Option (Nat × Nat) :=
  m.find? fun e => decide (k ≤ e.1)

/-- The entry with the least key in the closed window from `lo` to `hi`. -/
def firstIn (m : RangeMap) (lo hi : Nat) : Option (Nat × Nat) :=
  m.find? fun e => decide (lo ≤ e.1 ∧ e.1 ≤ hi)

def remove (m : RangeMap) (k : Nat) : RangeMap := m.filter fun e => decide (e.1 ≠ k)

def insert : RangeMap → Nat → Nat → RangeMap
  | [], k, v => [(k, v)]
  | e :: rest, k, v =>
    if k < e.1 then (k, v) :: e :: rest
    else if k = e.1 then (k, v) :: rest
    else e :: insert rest k v

/-- Take the entries with keys in the window out of the map one after another,
checking each, and widen `start` and `stop` over them. The first failed check
ends the loop with the map as it is then. -/
def absorb {ε : Type} (check : Nat × Nat → Except ε Unit) (lo hi : Nat) :
    Nat → RangeMap → Nat → Nat → RangeMap × Except ε (Nat × Nat)
  | 0, m, start, stop => (m, .ok (start, stop))
  | fuel + 1, m, start, stop =>
    match m.firstIn lo hi with
    | none => (m, .ok (start, stop))
    | some e =>
      match check e with
      | .error err => (m, .error err)
      | .ok () => absorb check lo hi fuel (m.remove e.1) (min start e.1) (max stop e.2)

/-- Position `p` lies in one of the ranges. -/
def Covered (m : RangeMap) (p : Nat) : Prop := ∃ e ∈ m, e.1 ≤ p ∧ p < e.2

structure Canonical (m : RangeMap) : Prop where
  nonempty : ∀ e ∈ m, e.1 < e.2
  apart : m.Pairwise fun x y => x.2 < y.1

@[simp] theorem covered_nil (p : Nat) : ¬ Covered [] p := by simp [Covered]

theorem covered_cons {e : Nat × Nat} {m : RangeMap} {p : Nat} :
    Covered (e :: m) p ↔ (e.1 ≤ p ∧ p < e.2) ∨ Covered m p := by simp [Covered]

theorem canonical_nil : Canonical [] := ⟨by simp, List.Pairwise.nil⟩

namespace Canonical

theorem tail {e : Nat × Nat} {m : RangeMap} (h : Canonical (e :: m)) : Canonical m :=
  ⟨fun x hx => h.nonempty x (List.mem_cons_of_mem _ hx), (List.pairwise_cons.mp h.apart).2⟩

theorem head_lt {e : Nat × Nat} {m : RangeMap} (h : Canonical (e :: m)) :
    ∀ x ∈ m, e.2 < x.1 := (List.pairwise_cons.mp h.apart).1

theorem filter {m : RangeMap} (h : Canonical m) (keep : Nat × Nat → Bool) :
    Canonical (m.filter keep) :=
  ⟨fun x hx => h.nonempty x (List.mem_filter.mp hx).1, h.apart.sublist List.filter_sublist⟩

/-- Two different entries lie apart, one way or the other. -/
theorem separated {m : RangeMap} (h : Canonical m) {x y : Nat × Nat} (hx : x ∈ m) (hy : y ∈ m)
    (hne : x ≠ y) : x.2 < y.1 ∨ y.2 < x.1 := by
  induction m with
  | nil => simp at hx
  | cons e rest ih =>
    rcases List.mem_cons.mp hx with rfl | hxr <;> rcases List.mem_cons.mp hy with rfl | hyr
    · exact absurd rfl hne
    · exact Or.inl (h.head_lt y hyr)
    · exact Or.inr (h.head_lt x hxr)
    · exact ih h.tail hxr hyr

/-- The first range of a canonical map is found from the covered positions. -/
theorem head_eq {x y : Nat × Nat} {m m' : RangeMap} (h : Canonical (x :: m))
    (h' : Canonical (y :: m')) (hc : ∀ p, Covered (x :: m) p ↔ Covered (y :: m') p) : x = y := by
  have hx := h.nonempty x (by simp)
  have hy := h'.nonempty y (by simp)
  -- no position before the first start is covered, and none at the first end
  have before : ∀ {e : Nat × Nat} {r : RangeMap}, Canonical (e :: r) → ∀ p, Covered (e :: r) p →
      e.1 ≤ p ∧ p ≠ e.2 := by
    intro e r hr p hp
    have he := hr.nonempty e (by simp)
    rcases covered_cons.mp hp with hp | ⟨z, hz, hp⟩
    · omega
    · have := hr.head_lt z hz
      omega
  have inside : ∀ {e : Nat × Nat} {r : RangeMap} {p : Nat}, e.1 ≤ p → p < e.2 →
      Covered (e :: r) p := fun h1 h2 => covered_cons.mpr (Or.inl ⟨h1, h2⟩)
  have s1 := before h' x.1 ((hc _).mp (inside (le_refl _) hx))
  have s2 := before h y.1 ((hc _).mpr (inside (le_refl _) hy))
  have hs : x.1 = y.1 := by omega
  have e1 : ¬ x.2 < y.2 := fun hl =>
    (before h x.2 ((hc _).mpr (inside (by omega) hl))).2 rfl
  have e2 : ¬ y.2 < x.2 := fun hl =>
    (before h' y.2 ((hc _).mp (inside (by omega) hl))).2 rfl
  exact Prod.ext hs (by omega)

/-- A canonical map is determined by what it covers. -/
theorem ext {m m' : RangeMap} (h : Canonical m) (h' : Canonical m')
    (hc : ∀ p, Covered m p ↔ Covered m' p) : m = m' := by
  induction m generalizing m' with
  | nil =>
    cases m' with
    | nil => rfl
    | cons y rest =>
      have hy := h'.nonempty y (by simp)
      exact absurd ((hc y.1).mpr (covered_cons.mpr (Or.inl ⟨le_refl _, hy⟩))) (covered_nil _)
  | cons x m ih =>
    cases m' with
    | nil =>
      have hx := h.nonempty x (by simp)
      exact absurd ((hc x.1).mp (covered_cons.mpr (Or.inl ⟨le_refl _, hx⟩))) (covered_nil _)
    | cons y m' =>
      obtain rfl := h.head_eq h' hc
      have disjoint : ∀ {r : RangeMap}, Canonical (x :: r) → ∀ p, Covered r p → x.2 < p := by
        rintro r hr p ⟨z, hz, hp⟩
        have := hr.head_lt z hz
        omega
      rw [ih h.tail h'.tail]
      intro p
      constructor
      · intro hp
        have hlt := disjoint h p hp
        rcases covered_cons.mp ((hc p).mp (covered_cons.mpr (Or.inr hp))) with hx | hp'
        · omega
        · exact hp'
      · intro hp
        have hlt := disjoint h' p hp
        rcases covered_cons.mp ((hc p).mpr (covered_cons.mpr (Or.inr hp))) with hx | hp'
        · omega
        · exact hp'

end Canonical

/-! ## Lookups -/

theorem firstGE_eq_none {m : RangeMap} {k : Nat} (h : m.firstGE k = none) :
    ∀ e ∈ m, e.1 < k := by
  intro e he
  have := List.find?_eq_none.mp h e he
  simpa using this

theorem firstGE_eq_some {m : RangeMap} {k : Nat} {x : Nat × Nat} (hm : Canonical m)
    (h : m.firstGE k = some x) : x ∈ m ∧ k ≤ x.1 ∧ ∀ e ∈ m, k ≤ e.1 → x.1 ≤ e.1 := by
  induction m with
  | nil => simp [firstGE] at h
  | cons y rest ih =>
    by_cases hy : k ≤ y.1
    · have hxy : y = x := by simpa [firstGE, hy] using h
      subst hxy
      refine ⟨by simp, hy, ?_⟩
      intro e he _
      have hl := hm.nonempty y (by simp)
      rcases List.mem_cons.mp he with rfl | he
      · exact le_refl _
      · have := hm.head_lt e he
        omega
    · have hr : firstGE rest k = some x := by simpa [firstGE, hy] using h
      obtain ⟨hx, hk, hmin⟩ := ih hm.tail hr
      refine ⟨List.mem_cons_of_mem _ hx, hk, ?_⟩
      intro e he hke
      rcases List.mem_cons.mp he with rfl | he
      · exact absurd hke hy
      · exact hmin e he hke

theorem lastLE_eq_none {m : RangeMap} {k : Nat} (h : m.lastLE k = none) : ∀ e ∈ m, k < e.1 := by
  intro e he
  by_contra hle
  have hmem : e ∈ m.filter fun e => decide (e.1 ≤ k) := List.mem_filter.mpr ⟨he, by simpa using hle⟩
  rw [List.getLast?_eq_none_iff.mp h] at hmem
  simp at hmem

theorem lastLE_eq_some {m : RangeMap} {k : Nat} {x : Nat × Nat} (hm : Canonical m)
    (h : m.lastLE k = some x) : x ∈ m ∧ x.1 ≤ k ∧ ∀ e ∈ m, e.1 ≤ k → e = x ∨ e.2 < x.1 := by
  obtain ⟨init, hinit⟩ := List.getLast?_eq_some_iff.mp h
  have hx : x ∈ m.filter fun e => decide (e.1 ≤ k) := by rw [hinit]; simp
  obtain ⟨hxm, hxk⟩ := List.mem_filter.mp hx
  refine ⟨hxm, by simpa using hxk, ?_⟩
  intro e he hek
  have hmem : e ∈ init ++ [x] := hinit ▸ List.mem_filter.mpr ⟨he, by simpa using hek⟩
  have hap : (init ++ [x]).Pairwise fun x y => x.2 < y.1 := hinit ▸ (hm.filter _).apart
  rcases List.mem_append.mp hmem with hi | hs
  · exact Or.inr ((List.pairwise_append.mp hap).2.2 e hi x (by simp))
  · exact Or.inl (List.mem_singleton.mp hs)

theorem mem_of_lastLE {m : RangeMap} {k : Nat} {x : Nat × Nat} (h : m.lastLE k = some x) : x ∈ m :=
  (List.mem_filter.mp (List.mem_of_getLast? h)).1

/-- A range starting at `start` is covered exactly when the last entry that
begins by then reaches its end: a canonical map never splits a covered range. -/
theorem covered_range_iff {m : RangeMap} (hm : Canonical m) {start len : Nat} (hlen : 0 < len) :
    (∃ e, m.lastLE start = some e ∧ start + len ≤ e.2) ↔
      ∀ p, start ≤ p → p < start + len → Covered m p := by
  constructor
  · rintro ⟨e, he, hle⟩ p h1 h2
    obtain ⟨hmem, hs, _⟩ := lastLE_eq_some hm he
    exact ⟨e, hmem, by omega, by omega⟩
  · intro hall
    obtain ⟨e, he, hs, hlt⟩ := hall start (le_refl _) (by omega)
    cases hl : m.lastLE start with
    | none => exact absurd (lastLE_eq_none hl e he) (by omega)
    | some x =>
      obtain ⟨hx, hxs, hlast⟩ := lastLE_eq_some hm hl
      have hex : e = x := by
        rcases hlast e he hs with hex | hlt'
        · exact hex
        · omega
      subst hex
      refine ⟨e, rfl, ?_⟩
      by_contra hend
      -- the position just behind the entry would lie in a second, touching entry
      obtain ⟨y, hy, hy1, hy2⟩ := hall e.2 (by omega) (by omega)
      by_cases hye : y = e
      · subst hye; omega
      · have := hm.nonempty y hy
        rcases hm.separated hy he hye with hs' | hs' <;> omega

/-- The two neighbour tests before an insertion are exact disjointness. -/
theorem disjoint_iff {m : RangeMap} (hm : Canonical m) {lo hi : Nat} (hlt : lo < hi) :
    ((∀ e, m.lastLE lo = some e → e.2 ≤ lo) ∧ (∀ e, m.firstGE lo = some e → hi ≤ e.1)) ↔
      ∀ p, lo ≤ p → p < hi → ¬ Covered m p := by
  constructor
  · rintro ⟨hprev, hnext⟩ p h1 h2 ⟨e, he, hep⟩
    by_cases hel : e.1 ≤ lo
    · cases hl : m.lastLE lo with
      | none => exact absurd (lastLE_eq_none hl e he) (by omega)
      | some x =>
        obtain ⟨hx, hxs, hlast⟩ := lastLE_eq_some hm hl
        have hxlo := hprev x hl
        rcases hlast e he hel with rfl | hlt' <;> omega
    · cases hg : m.firstGE lo with
      | none => exact absurd (firstGE_eq_none hg e he) (by omega)
      | some x =>
        obtain ⟨hx, hxs, hmin⟩ := firstGE_eq_some hm hg
        have hxhi := hnext x hg
        have := hmin e he (by omega)
        omega
  · intro hall
    constructor
    · intro e he
      obtain ⟨hmem, hs, _⟩ := lastLE_eq_some hm he
      by_contra hgt
      exact hall lo (le_refl _) hlt ⟨e, hmem, hs, by omega⟩
    · intro e he
      obtain ⟨hmem, hs, _⟩ := firstGE_eq_some hm he
      have hne := hm.nonempty e hmem
      by_contra hgt
      exact hall e.1 hs (by omega) ⟨e, hmem, le_refl _, hne⟩

/-! ## Insertion -/

theorem mem_of_mem_insert {m : RangeMap} {k v : Nat} {x : Nat × Nat} (h : x ∈ m.insert k v) :
    x = (k, v) ∨ x ∈ m := by
  induction m with
  | nil => exact .inl (List.mem_singleton.mp h)
  | cons e rest ih =>
    rw [insert] at h
    split at h
    · exact List.mem_cons.mp h
    · split at h
      · exact (List.mem_cons.mp h).imp_right (List.mem_cons_of_mem _)
      · rcases List.mem_cons.mp h with rfl | h
        · exact .inr List.mem_cons_self
        · exact (ih h).imp_right (List.mem_cons_of_mem _)

/-- The loop takes entries out and puts none in, whether or not it gets through. -/
theorem absorb_subset {ε : Type} {check : Nat × Nat → Except ε Unit} {lo hi fuel : Nat}
    {m : RangeMap} {start stop : Nat} {x : Nat × Nat}
    (h : x ∈ (absorb check lo hi fuel m start stop).1) : x ∈ m := by
  induction fuel generalizing m start stop with
  | zero => exact h
  | succ fuel ih =>
    rw [absorb] at h
    split at h
    · exact h
    · split at h
      · exact h
      · exact (List.mem_filter.mp (ih h)).1

/-- The range it finds ends where one of the entries does, or where it started. -/
theorem absorb_stop_le {ε : Type} {check : Nat × Nat → Except ε Unit} {lo hi fuel n : Nat}
    {m m' : RangeMap} {start stop first last : Nat} (hm : ∀ x ∈ m, x.2 ≤ n) (hstop : stop ≤ n)
    (h : absorb check lo hi fuel m start stop = (m', .ok (first, last))) : last ≤ n := by
  induction fuel generalizing m start stop with
  | zero =>
    cases h
    exact hstop
  | succ fuel ih =>
    rw [absorb] at h
    split at h
    · cases h
      exact hstop
    · rename_i e he
      split at h
      · cases h
      · refine ih (fun x hx => hm x (List.mem_filter.mp hx).1) ?_ h
        exact max_le hstop (hm e (List.mem_of_find?_eq_some he))

theorem mem_insert {m : RangeMap} {k v : Nat} (hk : ∀ e ∈ m, e.1 ≠ k) {x : Nat × Nat} :
    x ∈ m.insert k v ↔ x = (k, v) ∨ x ∈ m := by
  induction m with
  | nil => simp [insert]
  | cons e rest ih =>
    have hne : k ≠ e.1 := fun h => hk e (by simp) h.symm
    simp only [insert, if_neg hne]
    split
    · simp
    · rw [List.mem_cons, ih fun y hy => hk y (List.mem_cons_of_mem _ hy), List.mem_cons]
      tauto

/-- A range that stays clear of every entry can be inserted. -/
theorem Canonical.insert {m : RangeMap} (hm : Canonical m) {k v : Nat} (hlt : k < v)
    (hclear : ∀ e ∈ m, e.2 < k ∨ v < e.1) : Canonical (m.insert k v) := by
  have hkey : ∀ e ∈ m, e.1 ≠ k := by
    intro e he
    have := hm.nonempty e he
    rcases hclear e he with h | h <;> omega
  refine ⟨?_, ?_⟩
  · intro e he
    rcases (mem_insert hkey).mp he with rfl | he
    · exact hlt
    · exact hm.nonempty e he
  · induction m with
    | nil => simp [RangeMap.insert]
    | cons e rest ih =>
      have he := hm.nonempty e (by simp)
      have hrest : ∀ x ∈ rest, x.1 ≠ k := fun x hx => hkey x (List.mem_cons_of_mem _ hx)
      have hc := hclear e (by simp)
      simp only [RangeMap.insert, if_neg fun h => hkey e (by simp) (Eq.symm h)]
      split
      · rename_i hke
        refine List.pairwise_cons.mpr ⟨?_, hm.apart⟩
        intro x hx
        have hve : v < e.1 := by omega
        rcases List.mem_cons.mp hx with rfl | hx
        · exact hve
        · have := hm.head_lt x hx
          show v < x.1
          omega
      · refine List.pairwise_cons.mpr ⟨?_, ih hm.tail (fun x hx =>
          hclear x (List.mem_cons_of_mem _ hx)) hrest⟩
        intro x hx
        rcases (mem_insert hrest).mp hx with rfl | hx
        · show e.2 < k
          omega
        · exact hm.head_lt x hx

/-! ## Absorbing a window -/

/-- The entries `absorb` takes out. -/
def window (m : RangeMap) (lo hi : Nat) : RangeMap :=
  m.filter fun e => decide (lo ≤ e.1 ∧ e.1 ≤ hi)

/-- The entries `absorb` leaves. -/
def outside (m : RangeMap) (lo hi : Nat) : RangeMap :=
  m.filter fun e => !decide (lo ≤ e.1 ∧ e.1 ≤ hi)

theorem mem_window {m : RangeMap} {lo hi : Nat} {e : Nat × Nat} :
    e ∈ m.window lo hi ↔ e ∈ m ∧ lo ≤ e.1 ∧ e.1 ≤ hi := by simp [window]

theorem mem_outside {m : RangeMap} {lo hi : Nat} {e : Nat × Nat} :
    e ∈ m.outside lo hi ↔ e ∈ m ∧ ¬ (lo ≤ e.1 ∧ e.1 ≤ hi) := by
  simp only [outside, List.mem_filter, Bool.not_eq_true', decide_eq_false_iff_not]

theorem remove_head {e : Nat × Nat} {m : RangeMap} (hm : Canonical (e :: m)) :
    RangeMap.remove (e :: m) e.1 = m := by
  have he := hm.nonempty e (by simp)
  have hall : ∀ x ∈ m, decide (x.1 ≠ e.1) = true := by
    intro x hx
    have := hm.head_lt x hx
    simp only [ne_eq, decide_eq_true_eq]
    omega
  rw [RangeMap.remove, List.filter_cons_of_neg (by simp), List.filter_eq_self.mpr hall]

theorem firstIn_eq_some {m : RangeMap} (hm : Canonical m) {lo hi : Nat} {e : Nat × Nat}
    (h : m.firstIn lo hi = some e) :
    m.window lo hi = e :: (m.remove e.1).window lo hi ∧
      (m.remove e.1).outside lo hi = m.outside lo hi := by
  induction m with
  | nil => simp [firstIn] at h
  | cons y rest ih =>
    by_cases hy : lo ≤ y.1 ∧ y.1 ≤ hi
    · have hye : y = e := by simpa [firstIn, hy] using h
      subst hye
      rw [remove_head hm]
      simp [window, outside, hy]
    · have hr : firstIn rest lo hi = some e := by simpa [firstIn, hy] using h
      obtain ⟨hw, ho⟩ := ih hm.tail hr
      have hmem : e ∈ rest := (mem_window.mp (hw ▸ List.mem_cons_self)).1
      have hlt := hm.head_lt e hmem
      have hyl := hm.nonempty y (by simp)
      have hrem : RangeMap.remove (y :: rest) e.1 = y :: RangeMap.remove rest e.1 :=
        List.filter_cons_of_pos (by simp only [ne_eq, decide_eq_true_eq]; omega)
      rw [hrem]
      constructor
      · simpa [window, hy] using hw
      · have hyo : (!decide (lo ≤ y.1 ∧ y.1 ≤ hi)) = true := by
          rw [Bool.not_eq_true', decide_eq_false_iff_not]; exact hy
        simp only [outside, List.filter_cons, hyo, if_true] at ho ⊢
        rw [ho]

theorem outside_of_window_nil {m : RangeMap} {lo hi : Nat} (hw : m.window lo hi = []) :
    m.outside lo hi = m := by
  refine List.filter_eq_self.mpr fun e he => ?_
  have hn : ¬ (lo ≤ e.1 ∧ e.1 ≤ hi) := by
    intro hin
    have hmem := mem_window.mpr ⟨he, hin⟩
    rw [hw] at hmem
    simp at hmem
  rw [Bool.not_eq_true', decide_eq_false_iff_not]
  exact hn

/-- What a successful `absorb` did: every entry of the window passed its check
and is gone, and the returned range is the least one over them. -/
theorem absorb_ok {ε : Type} {check : Nat × Nat → Except ε Unit} {lo hi fuel : Nat}
    {m m' : RangeMap} {start stop s t : Nat} (hm : Canonical m)
    (hf : (m.window lo hi).length ≤ fuel)
    (h : absorb check lo hi fuel m start stop = (m', .ok (s, t))) :
    m' = m.outside lo hi ∧ (∀ e ∈ m.window lo hi, check e = .ok () ∧ s ≤ e.1 ∧ e.2 ≤ t) ∧
      s ≤ start ∧ stop ≤ t ∧ (s = start ∨ ∃ e ∈ m.window lo hi, s = e.1) ∧
      (t = stop ∨ ∃ e ∈ m.window lo hi, t = e.2) := by
  induction fuel generalizing m start stop with
  | zero =>
    have hw : m.window lo hi = [] := List.length_eq_zero_iff.mp (by omega)
    simp only [absorb, Prod.mk.injEq, Except.ok.injEq] at h
    obtain ⟨rfl, rfl, rfl⟩ := h
    simp [hw, outside_of_window_nil hw]
  | succ fuel ih =>
    rw [absorb] at h
    split at h
    · rename_i hn
      have hw : m.window lo hi = [] := by
        refine List.filter_eq_nil_iff.mpr fun e he => ?_
        simpa using List.find?_eq_none.mp hn e he
      simp only [Prod.mk.injEq, Except.ok.injEq] at h
      obtain ⟨rfl, rfl, rfl⟩ := h
      simp [hw, outside_of_window_nil hw]
    · rename_i e he
      obtain ⟨hw, ho⟩ := firstIn_eq_some hm he
      split at h
      · simp at h
      · rename_i hc
        rw [hw, List.length_cons] at hf
        obtain ⟨hm', hall, hs, ht, hs', ht'⟩ := ih (hm.filter _) (by simpa [remove] using hf) h
        rw [hw]
        refine ⟨hm'.trans ho, ?_, hs.trans (min_le_left _ _), (le_max_left _ _).trans ht, ?_, ?_⟩
        · intro x hx
          rcases List.mem_cons.mp hx with rfl | hx
          · exact ⟨hc, hs.trans (min_le_right _ _), (le_max_right _ _).trans ht⟩
          · exact hall x hx
        · rcases hs' with hs' | ⟨x, hx, hs'⟩
          · rcases min_choice start e.1 with hmin | hmin
            · exact Or.inl (hs'.trans hmin)
            · exact Or.inr ⟨e, by simp, hs'.trans hmin⟩
          · exact Or.inr ⟨x, List.mem_cons_of_mem _ hx, hs'⟩
        · rcases ht' with ht' | ⟨x, hx, ht'⟩
          · rcases max_choice stop e.2 with hmax | hmax
            · exact Or.inl (ht'.trans hmax)
            · exact Or.inr ⟨e, by simp, ht'.trans hmax⟩
          · exact Or.inr ⟨x, List.mem_cons_of_mem _ hx, ht'⟩

/-- What a failed `absorb` did: it stopped at the first entry of the window whose
check fails and took out the entries before that one. -/
theorem absorb_error {ε : Type} {check : Nat × Nat → Except ε Unit} {lo hi fuel : Nat}
    {m m' : RangeMap} {start stop : Nat} {err : ε} (hm : Canonical m)
    (h : absorb check lo hi fuel m start stop = (m', .error err)) :
    ∃ c ∈ m.window lo hi, check c = .error err ∧
      (∀ x ∈ m.window lo hi, x.1 < c.1 → check x = .ok ()) ∧
      m' = m.filter fun x => !decide (lo ≤ x.1 ∧ x.1 < c.1) := by
  induction fuel generalizing m start stop with
  | zero => simp [absorb] at h
  | succ fuel ih =>
    rw [absorb] at h
    split at h
    · simp at h
    · rename_i e he
      obtain ⟨hw, ho⟩ := firstIn_eq_some hm he
      have hmem : e ∈ m.window lo hi := by
        rw [hw]
        exact List.mem_cons_self
      have hcanon : Canonical (e :: (m.remove e.1).window lo hi) := hw ▸ hm.filter _
      obtain ⟨-, hlo, hhi⟩ := mem_window.mp hmem
      split at h
      · rename_i hc
        obtain ⟨rfl, herr⟩ := Prod.mk.inj h
        cases herr
        have hfirst : ∀ x ∈ m.window lo hi, ¬ x.1 < e.1 := by
          intro x hx
          rw [hw] at hx
          rcases List.mem_cons.mp hx with rfl | hx
          · exact lt_irrefl _
          · have h1 := hcanon.nonempty e List.mem_cons_self
            have h2 := hcanon.head_lt x hx
            omega
        refine ⟨e, hmem, hc, fun x hx hlt => absurd hlt (hfirst x hx), ?_⟩
        refine (List.filter_eq_self.mpr fun x hx => ?_).symm
        rw [Bool.not_eq_true', decide_eq_false_iff_not]
        exact fun hin => hfirst x (mem_window.mpr ⟨hx, hin.1, by omega⟩) hin.2
      · rename_i hc
        obtain ⟨c, hcmem, hcheck, hbefore, rfl⟩ := ih (hm.filter _) h
        have hlt : e.1 < c.1 := by
          have h1 := hcanon.nonempty e List.mem_cons_self
          have h2 := hcanon.head_lt c hcmem
          omega
        refine ⟨c, by rw [hw]; exact List.mem_cons_of_mem _ hcmem, hcheck, ?_, ?_⟩
        · intro x hx hxc
          rw [hw] at hx
          rcases List.mem_cons.mp hx with rfl | hx
          · exact hc
          · exact hbefore x hx hxc
        · rw [List.filter_filter]
          refine List.filter_congr fun x _ => ?_
          by_cases hxe : x.1 = e.1
          · simp [hxe, hlo, hlt]
          · simp [hxe]

theorem absorb_of_checks {ε : Type} {check : Nat × Nat → Except ε Unit} {lo hi : Nat}
    (fuel : Nat) {m : RangeMap} (start stop : Nat) (hm : Canonical m)
    (hc : ∀ e ∈ m.window lo hi, check e = .ok ()) :
    ∃ m' s t, absorb check lo hi fuel m start stop = (m', .ok (s, t)) := by
  induction fuel generalizing m start stop with
  | zero => exact ⟨m, start, stop, rfl⟩
  | succ fuel ih =>
    rw [absorb]
    split
    · exact ⟨m, start, stop, rfl⟩
    · rename_i e he
      obtain ⟨hw, _⟩ := firstIn_eq_some hm he
      rw [hw] at hc
      rw [hc e (by simp)]
      exact ih _ _ (hm.filter _) fun x hx => hc x (List.mem_cons_of_mem _ hx)

theorem firstIn_eq_none {m : RangeMap} {lo hi : Nat} (hw : m.window lo hi = []) :
    m.firstIn lo hi = none :=
  List.find?_eq_none.mpr (List.filter_eq_nil_iff.mp hw)

/-- Each turn takes an entry out of the window, so further turns change nothing. -/
theorem absorb_succ {ε : Type} {check : Nat × Nat → Except ε Unit} {lo hi fuel : Nat}
    {m : RangeMap} (start stop : Nat) (hm : Canonical m) (hf : (m.window lo hi).length ≤ fuel) :
    absorb check lo hi (fuel + 1) m start stop = absorb check lo hi fuel m start stop := by
  induction fuel generalizing m start stop with
  | zero =>
    have hw : m.window lo hi = [] := List.length_eq_zero_iff.mp (by omega)
    simp only [absorb, firstIn_eq_none hw]
  | succ fuel ih =>
    rw [absorb, absorb]
    cases he : m.firstIn lo hi with
    | none => rfl
    | some e =>
      obtain ⟨hw, _⟩ := firstIn_eq_some hm he
      rw [hw, List.length_cons] at hf
      dsimp only
      cases check e with
      | error err => rfl
      | ok => exact ih _ _ (hm.filter _) (by simpa [remove] using hf)

theorem absorb_fuel {ε : Type} {check : Nat × Nat → Except ε Unit} {lo hi fuel turns : Nat}
    {m : RangeMap} (start stop : Nat) (hm : Canonical m) (hf : m.length ≤ fuel)
    (hle : fuel ≤ turns) :
    absorb check lo hi turns m start stop = absorb check lo hi fuel m start stop := by
  induction turns, hle using Nat.le_induction with
  | base => rfl
  | succ turns hle ih =>
    have hw : (m.window lo hi).length ≤ m.length := List.length_filter_le _ _
    rw [absorb_succ start stop hm (by omega), ih]

/-- After a successful merge the loop's own condition is false. -/
theorem absorb_exhausts {ε : Type} {check : Nat × Nat → Except ε Unit} {lo hi fuel : Nat}
    {m m' : RangeMap} {start stop s t : Nat} (hm : Canonical m) (hf : m.length ≤ fuel)
    (h : absorb check lo hi fuel m start stop = (m', .ok (s, t))) : m'.firstIn lo hi = none := by
  have hw : (m.window lo hi).length ≤ m.length := List.length_filter_le _ _
  obtain ⟨rfl, _⟩ := absorb_ok hm (by omega) h
  refine firstIn_eq_none (List.filter_eq_nil_iff.mpr fun e he hin => ?_)
  exact (mem_outside.mp he).2 (of_decide_eq_true hin)

/-- Where the window of a range starting at `lo` begins: at the entry that
reaches `lo`, if there is one. -/
def windowStart (m : RangeMap) (lo : Nat) : Nat :=
  ((m.lastLE lo).filter fun e => decide (lo ≤ e.2)).elim lo fun e => e.1

/-- The window holds exactly the entries that overlap or touch the range. -/
theorem mem_window_iff_touches {m : RangeMap} (hm : Canonical m) {lo hi : Nat}
    {e : Nat × Nat} (he : e ∈ m) :
    (m.windowStart lo ≤ e.1 ∧ e.1 ≤ hi) ↔ (lo ≤ e.2 ∧ e.1 ≤ hi) := by
  have hel := hm.nonempty e he
  unfold windowStart
  cases hl : m.lastLE lo with
  | none =>
    have := lastLE_eq_none hl e he
    simp only [Option.filter_none, Option.elim_none]
    omega
  | some x =>
    obtain ⟨hx, hxs, hlast⟩ := lastLE_eq_some hm hl
    have hxl := hm.nonempty x hx
    by_cases hxr : lo ≤ x.2
    · simp only [Option.filter_some, hxr, decide_true, if_true, Option.elim_some]
      rcases Nat.lt_or_ge lo e.1 with hgt | hle
      · omega
      · rcases hlast e he hle with rfl | h <;> omega
    · simp only [Option.filter_some, hxr, decide_false, Bool.false_eq_true, if_false,
        Option.elim_none]
      rcases Nat.lt_or_ge lo e.1 with hgt | hle
      · omega
      · rcases hlast e he hle with rfl | h <;> omega

/-- Putting the absorbed range back gives the union with the new range, in
canonical form. -/
theorem insert_absorbed {ε : Type} {check : Nat × Nat → Except ε Unit} {lo hi fuel : Nat}
    {m m' : RangeMap} {s t : Nat} (hm : Canonical m) (hlt : lo < hi) (hf : m.length ≤ fuel)
    (h : absorb check (m.windowStart lo) hi fuel m lo hi = (m', .ok (s, t))) :
    Canonical (m'.insert s t) ∧
      ∀ p, Covered (m'.insert s t) p ↔ Covered m p ∨ (lo ≤ p ∧ p < hi) := by
  have hlen : (m.window (m.windowStart lo) hi).length ≤ fuel :=
    le_trans (List.length_filter_le _ _) hf
  obtain ⟨rfl, hall, hs, ht, hs', ht'⟩ := absorb_ok hm hlen h
  have touch : ∀ w ∈ m.window (m.windowStart lo) hi, lo ≤ w.2 ∧ w.1 ≤ hi := by
    intro w hw
    obtain ⟨hwm, hwin⟩ := mem_window.mp hw
    exact (mem_window_iff_touches hm hwm).mp hwin
  -- the entries left behind are clear of the new range, and of what it absorbed
  have hclear : ∀ e ∈ m.outside (m.windowStart lo) hi, e.2 < s ∨ t < e.1 := by
    intro e he
    obtain ⟨hem, hout⟩ := mem_outside.mp he
    rw [mem_window_iff_touches hm hem] at hout
    have hel := hm.nonempty e hem
    have apart : ∀ w ∈ m.window (m.windowStart lo) hi, w.2 < e.1 ∨ e.2 < w.1 := by
      intro w hw
      exact hm.separated (mem_window.mp hw).1 hem (by rintro rfl; exact hout (touch _ hw))
    by_cases hle : lo ≤ e.2
    · right
      rcases ht' with rfl | ⟨w, hw, rfl⟩
      · omega
      · have := touch w hw
        have := hm.nonempty w (mem_window.mp hw).1
        rcases apart w hw with h | h <;> omega
    · left
      rcases hs' with rfl | ⟨w, hw, rfl⟩
      · omega
      · have := touch w hw
        have := hm.nonempty w (mem_window.mp hw).1
        rcases apart w hw with h | h <;> omega
  have hkey : ∀ e ∈ m.outside (m.windowStart lo) hi, e.1 ≠ s := by
    intro e he
    have := hm.nonempty e (mem_outside.mp he).1
    rcases hclear e he with h | h <;> omega
  refine ⟨(hm.filter _).insert (by omega) hclear, fun p => ?_⟩
  have hspan : (s ≤ p ∧ p < t) ↔
      (lo ≤ p ∧ p < hi) ∨ ∃ w ∈ m.window (m.windowStart lo) hi, w.1 ≤ p ∧ p < w.2 := by
    constructor
    · rintro ⟨h1, h2⟩
      by_cases hpl : p < lo
      · rcases hs' with rfl | ⟨w, hw, rfl⟩
        · omega
        · have := touch w hw
          exact Or.inr ⟨w, hw, h1, by omega⟩
      · by_cases hph : p < hi
        · exact Or.inl ⟨by omega, hph⟩
        · rcases ht' with rfl | ⟨w, hw, rfl⟩
          · omega
          · have := touch w hw
            exact Or.inr ⟨w, hw, by omega, h2⟩
    · rintro (⟨h1, h2⟩ | ⟨w, hw, h1, h2⟩)
      · omega
      · have := hall w hw
        omega
  constructor
  · rintro ⟨e, he, hp⟩
    rcases (mem_insert hkey).mp he with rfl | he
    · rcases hspan.mp hp with hp | ⟨w, hw, hp⟩
      · exact Or.inr hp
      · exact Or.inl ⟨w, (mem_window.mp hw).1, hp⟩
    · exact Or.inl ⟨e, (mem_outside.mp he).1, hp⟩
  · rintro (⟨e, he, hp⟩ | hp)
    · by_cases hin : m.windowStart lo ≤ e.1 ∧ e.1 ≤ hi
      · exact ⟨(s, t), (mem_insert hkey).mpr (Or.inl rfl),
          hspan.mpr (Or.inr ⟨e, mem_window.mpr ⟨he, hin⟩, hp⟩)⟩
      · exact ⟨e, (mem_insert hkey).mpr (Or.inr (mem_outside.mpr ⟨he, hin⟩)), hp⟩
    · exact ⟨(s, t), (mem_insert hkey).mpr (Or.inl rfl), hspan.mpr (Or.inl hp)⟩

end RangeMap
end UsbScope.Lib
