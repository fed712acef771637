import Mathlib

/-! # Sequences by key

Sequences with keys may interleave in any way that keeps the order within each
key. Whatever the interleaving, the elements are those of the keys together
(`perm_groups`), and a prefix is inside the share of some keys only (`inside`).
Without any, the sequence is its shares one after another (`eq_flatMap_share`). -/
namespace UsbScope.Lib.Keys

variable {α K : Type} [DecidableEq K] {key : α → K}

/-- The share of one key. -/
def share (key : α → K) (l : List α) (k : K) : List α := l.filter fun a => key a = k

theorem share_append (l l' : List α) (k : K) :
    share key (l ++ l') k = share key l k ++ share key l' k := List.filter_append ..

theorem share_of_all {l : List α} {k : K} (h : ∀ a ∈ l, key a = k) : share key l k = l :=
  List.filter_eq_self.mpr fun a ha => by simp [h a ha]

theorem share_of_none {l : List α} {k : K} (h : ∀ a ∈ l, key a ≠ k) : share key l k = [] :=
  List.filter_eq_nil_iff.mpr fun a ha => by simp [h a ha]

/-- Sequences with the same shares have the same elements. -/
theorem perm_of_share {l l' : List α} (h : ∀ k, share key l k = share key l' k) : l.Perm l' := by
  classical
  rw [List.perm_iff_count]
  intro a
  have hself : decide (key a = key a) = true := by simp
  rw [← List.count_filter (l := l) (p := fun b => decide (key b = key a)) hself,
    ← List.count_filter (l := l') (p := fun b => decide (key b = key a)) hself]
  exact congrArg (List.count a) (h (key a))

/-- The share of a key in a sequence of groups, each of one key. -/
theorem share_flatMap {β : Type} {l : List β} {g : β → K} {f : β → List α}
    (hf : ∀ x ∈ l, ∀ a ∈ f x, key a = g x) (k : K) :
    share key (l.flatMap f) k = (l.filter fun x => g x = k).flatMap f := by
  induction l with
  | nil => rfl
  | cons x rest ih =>
    have hx : ∀ a ∈ f x, key a = g x := hf x List.mem_cons_self
    rw [List.flatMap_cons, share_append, ih fun y hy => hf y (List.mem_cons_of_mem _ hy)]
    by_cases hk : g x = k
    · rw [share_of_all fun a ha => (hx a ha).trans hk, List.filter_cons_of_pos (by simpa using hk),
        List.flatMap_cons]
    · rw [share_of_none fun a ha heq => hk ((hx a ha).symm.trans heq),
        List.filter_cons_of_neg (by simpa using hk), List.nil_append]

/-- A sequence has the elements of its shares. -/
theorem perm_groups {l : List α} {ks : List K} (hks : ks.Nodup) (h : ∀ a ∈ l, key a ∈ ks) :
    l.Perm (ks.flatMap (share key l)) := by
  refine @perm_of_share _ _ _ key _ _ fun k => ?_
  have hown : ∀ k ∈ ks, ∀ a ∈ share key l k, key a = k := by
    intro k _ a ha
    simpa using (List.mem_filter.mp ha).2
  rw [share_flatMap hown, List.filter_eq]
  by_cases hk : k ∈ ks
  · rw [List.count_eq_one_of_mem hks hk, List.replicate_one, List.flatMap_singleton]
  · rw [List.count_eq_zero_of_not_mem hk, List.replicate_zero, List.flatMap_nil]
    exact share_of_none fun a ha hak => hk (hak ▸ h a ha)

/-- A sequence whose images are groups with keys of their own, one after another,
is its shares one after another. -/
theorem eq_flatMap_share {β γ : Type} {φ : α → γ} {κ : γ → K} {groups : List β} {g : β → K}
    {f : β → List γ} (hf : ∀ x ∈ groups, ∀ c ∈ f x, κ c = g x) (hg : (groups.map g).Nodup)
    {l : List α} (hl : l.map φ = groups.flatMap f) :
    l = groups.flatMap fun x => share (fun a => κ (φ a)) l (g x) := by
  induction groups generalizing l with
  | nil => exact List.map_eq_nil_iff.mp hl
  | cons x rest ih =>
    rw [List.flatMap_cons] at hl
    obtain ⟨l₁, l₂, rfl, h₁, h₂⟩ := List.map_eq_append_iff.mp hl
    rw [List.map_cons, List.nodup_cons] at hg
    have hkey₁ : ∀ a ∈ l₁, κ (φ a) = g x := fun a ha =>
      hf x List.mem_cons_self _ (h₁ ▸ List.mem_map_of_mem ha)
    have hkey₂ : ∀ a ∈ l₂, κ (φ a) ∈ rest.map g := by
      intro a ha
      have hmem : φ a ∈ rest.flatMap f := h₂ ▸ List.mem_map_of_mem ha
      obtain ⟨y, hy, hc⟩ := List.mem_flatMap.mp hmem
      exact List.mem_map.mpr ⟨y, hy, (hf y (List.mem_cons_of_mem _ hy) _ hc).symm⟩
    have hother : ∀ a ∈ l₂, κ (φ a) ≠ g x := fun a ha heq => hg.1 (heq ▸ hkey₂ a ha)
    have hhead : share (fun a => κ (φ a)) (l₁ ++ l₂) (g x) = l₁ := by
      rw [share_append, share_of_all hkey₁, share_of_none hother, List.append_nil]
    have htail : ∀ y ∈ rest, share (fun a => κ (φ a)) (l₁ ++ l₂) (g y) =
        share (fun a => κ (φ a)) l₂ (g y) := by
      intro y hy
      have hne : ∀ a ∈ l₁, κ (φ a) ≠ g y := fun a ha heq =>
        hg.1 (hkey₁ a ha ▸ heq ▸ List.mem_map_of_mem hy)
      rw [share_append, share_of_none hne, List.nil_append]
    have hrest := ih (fun y hy => hf y (List.mem_cons_of_mem _ hy)) hg.2 h₂
    rw [List.flatMap_cons, hhead, List.flatMap_congr htail, ← hrest]

/-- The keys whose share a prefix is inside of. -/
def inside (key : α → K) (pre l : List α) : Finset K :=
  (pre.map key).toFinset.filter fun k => (share key pre k).length < (share key l k).length

theorem card_inside_le (key : α → K) (pre l : List α) : (inside key pre l).card ≤ pre.length :=
  calc (inside key pre l).card ≤ (pre.map key).toFinset.card :=
        Finset.card_le_card (Finset.filter_subset _ _)
    _ ≤ (pre.map key).length := List.toFinset_card_le _
    _ = pre.length := List.length_map _

/-- A key with elements in the prefix has its whole share there, or the prefix
is inside of it. -/
theorem whole_or_inside {pre l : List α} (hpre : pre <+: l) {a : α} (ha : a ∈ pre) :
    share key pre (key a) = share key l (key a) ∨ key a ∈ inside key pre l := by
  obtain ⟨rest, rfl⟩ := hpre
  rw [share_append]
  cases hrest : share key rest (key a) with
  | nil => exact .inl (List.append_nil _).symm
  | cons b more =>
    refine .inr (Finset.mem_filter.mpr ⟨?_, ?_⟩)
    · exact List.mem_toFinset.mpr (List.mem_map.mpr ⟨a, ha, rfl⟩)
    · rw [share_append, hrest, List.length_append, List.length_cons]
      omega

/-- Groups with keys of their own, one after another, are entered one at a time. -/
theorem card_inside_groups {β : Type} {groups : List β} {g : β → K} {f : β → List α}
    (hf : ∀ x ∈ groups, ∀ a ∈ f x, key a = g x) (hg : (groups.map g).Nodup) {pre : List α}
    (hpre : pre <+: groups.flatMap f) : (inside key pre (groups.flatMap f)).card ≤ 1 := by
  induction groups generalizing pre with
  | nil =>
    rw [List.flatMap_nil, List.prefix_nil] at hpre
    rw [hpre]
    exact (card_inside_le _ _ _).trans (Nat.zero_le 1)
  | cons x rest ih =>
    have hx : ∀ a ∈ f x, key a = g x := hf x List.mem_cons_self
    rw [List.map_cons, List.nodup_cons] at hg
    have hother : ∀ a ∈ rest.flatMap f, key a ≠ g x := by
      intro a ha heq
      obtain ⟨y, hy, ha⟩ := List.mem_flatMap.mp ha
      refine hg.1 (List.mem_map.mpr ⟨y, hy, ?_⟩)
      rw [← hf y (List.mem_cons_of_mem _ hy) a ha, heq]
    rw [List.flatMap_cons] at hpre ⊢
    rcases List.prefix_or_prefix_of_prefix hpre (List.prefix_append (f x) _) with hfirst | ⟨pre', rfl⟩
    · -- only the first key has been met
      refine (Finset.card_le_card fun k hk => ?_).trans_eq (Finset.card_singleton (g x))
      obtain ⟨a, ha, rfl⟩ := List.mem_map.mp (List.mem_toFinset.mp (Finset.mem_filter.mp hk).1)
      exact Finset.mem_singleton.mpr (hx a (hfirst.subset ha))
    · refine (Finset.card_le_card fun k hk => ?_).trans
        (ih (fun y hy => hf y (List.mem_cons_of_mem _ hy)) hg.2
          (List.prefix_append_right_inj _ |>.mp hpre))
      obtain ⟨hmem, hlt⟩ := Finset.mem_filter.mp hk
      rw [share_append, share_append, List.length_append, List.length_append] at hlt
      refine Finset.mem_filter.mpr ⟨?_, by omega⟩
      rw [List.map_append, List.toFinset_append, Finset.mem_union] at hmem
      refine hmem.resolve_left fun hk => ?_
      obtain ⟨a, ha, rfl⟩ := List.mem_map.mp (List.mem_toFinset.mp hk)
      -- nothing of the first key comes later
      have hnone : share key (rest.flatMap f) (key a) = [] :=
        share_of_none fun b hb heq => hother b hb (heq.trans (hx a ha))
      rw [hnone, List.length_nil] at hlt
      omega

end UsbScope.Lib.Keys
