import Mathlib

/-! # Runs of a fallible machine

A machine takes one input after another, gives one output for each, and stops
at its first error. `run_history` is the invariant rule for such runs, with the
inputs taken so far at hand. A family of machines, one for each key, runs as a
single machine over keyed inputs (`keyed`); `run_keyed` and `run_keyed_of_slots`
say that such a run is exactly the runs of its members on the inputs of their
keys, whatever the interleaving. -/
namespace UsbScope.Lib.Machine

variable {S R O ε K : Type}

def run (step : S → R → Except ε (S × O)) : S → List R → Except ε (S × List O)
  | s, [] => .ok (s, [])
  | s, r :: rest =>
    match step s r with
    | .error e => .error e
    | .ok (s', o) =>
      match run step s' rest with
      | .error e => .error e
      | .ok (s'', os) => .ok (s'', o :: os)

theorem run_cons {step : S → R → Except ε (S × O)} {s t : S} {r : R} {rest : List R}
    {os : List O} :
    run step s (r :: rest) = .ok (t, os) ↔
      ∃ s' o os', step s r = .ok (s', o) ∧ run step s' rest = .ok (t, os') ∧ os = o :: os' := by
  constructor
  · intro h
    rw [run] at h
    split at h
    · cases h
    · rename_i s' o hs
      split at h
      · cases h
      · rename_i t' os' hr
        cases h
        exact ⟨s', o, os', hs, hr, rfl⟩
  · rintro ⟨s', o, os', hs, hr, rfl⟩
    rw [run, hs]
    simp only [hr]

theorem run_append {step : S → R → Except ε (S × O)} {s t : S} {l l' : List R} {os : List O} :
    run step s (l ++ l') = .ok (t, os) ↔
      ∃ m os₁ os₂, run step s l = .ok (m, os₁) ∧ run step m l' = .ok (t, os₂) ∧
        os = os₁ ++ os₂ := by
  induction l generalizing s os with
  | nil => simp [run]
  | cons r rest ih =>
    rw [List.cons_append, run_cons]
    constructor
    · rintro ⟨s', o, os', hs, hr, rfl⟩
      obtain ⟨m, os₁, os₂, h1, h2, rfl⟩ := ih.mp hr
      exact ⟨m, o :: os₁, os₂, run_cons.mpr ⟨s', o, os₁, hs, h1, rfl⟩, h2, rfl⟩
    · rintro ⟨m, os₁, os₂, h1, h2, rfl⟩
      obtain ⟨s', o, os', hs, hr, rfl⟩ := run_cons.mp h1
      exact ⟨s', o, os' ++ os₂, hs, ih.mpr ⟨m, os', os₂, hr, h2, rfl⟩, rfl⟩

theorem run_singleton {step : S → R → Except ε (S × O)} {s t : S} {r : R} {os : List O} :
    run step s [r] = .ok (t, os) ↔ ∃ o, step s r = .ok (t, o) ∧ os = [o] := by
  rw [run_cons]
  constructor
  · rintro ⟨s', o, os', hs, hr, rfl⟩
    cases hr
    exact ⟨o, hs, rfl⟩
  · rintro ⟨o, hs, rfl⟩
    exact ⟨t, o, [], hs, rfl, rfl⟩

theorem length_run {step : S → R → Except ε (S × O)} {s t : S} {l : List R} {os : List O}
    (h : run step s l = .ok (t, os)) : os.length = l.length := by
  induction l generalizing s os with
  | nil => cases h; rfl
  | cons r rest ih =>
    obtain ⟨s', o, os', _, hr, rfl⟩ := run_cons.mp h
    simp [ih hr]

/-- A relation between the inputs taken, the outputs given and the state that
one step keeps holds after every run. -/
theorem run_history {step : S → R → Except ε (S × O)} {I : List R → List O → S → Prop} {s₀ : S}
    (h0 : I [] [] s₀)
    (hs : ∀ l os s r s' o, I l os s → step s r = .ok (s', o) → I (l ++ [r]) (os ++ [o]) s')
    {l : List R} {os : List O} {s : S} (h : run step s₀ l = .ok (s, os)) : I l os s := by
  induction l using List.reverseRecOn generalizing s os with
  | nil => cases h; exact h0
  | append_singleton l r ih =>
    obtain ⟨m, os₁, os₂, h1, h2, rfl⟩ := run_append.mp h
    obtain ⟨o, hstep, rfl⟩ := run_singleton.mp h2
    exact hs l os₁ m r s o (ih h1) hstep

/-- The step at a position of a run, from the state the inputs before it led to. -/
theorem run_at {step : S → R → Except ε (S × O)} {s t : S} {l : List R} {os : List O}
    (h : run step s l = .ok (t, os)) {j : Nat} {r : R} (hj : l[j]? = some r) :
    ∃ m m' o, run step s (l.take j) = .ok (m, os.take j) ∧ step m r = .ok (m', o) ∧
      os[j]? = some o := by
  induction l generalizing s os j with
  | nil => simp at hj
  | cons x rest ih =>
    obtain ⟨s', o, os', hs, hr, rfl⟩ := run_cons.mp h
    cases j with
    | zero =>
      cases hj
      exact ⟨s, s', o, rfl, hs, rfl⟩
    | succ j =>
      obtain ⟨m, m', o', h1, h2, h3⟩ := ih hr (by simpa using hj)
      exact ⟨m, m', o', run_cons.mpr ⟨s', o, _, hs, h1, rfl⟩, h2, by simpa using h3⟩

/-! ## Positions -/

/-- The positions whose input, with the inputs before it, satisfies `P`. -/
def positions (P : List R → R → Prop) [∀ l r, Decidable (P l r)] (l : List R) : Finset Nat :=
  (Finset.range l.length).filter fun i => l[i]?.any fun r => P (l.take i) r

section
variable {P : List R → R → Prop} [∀ l r, Decidable (P l r)]

theorem mem_positions {l : List R} {i : Nat} :
    i ∈ positions P l ↔ ∃ r, l[i]? = some r ∧ P (l.take i) r := by
  unfold positions
  rw [Finset.mem_filter, Finset.mem_range]
  constructor
  · rintro ⟨hi, h⟩
    simpa [List.getElem?_eq_getElem hi] using h
  · rintro ⟨r, hr, hP⟩
    exact ⟨(List.getElem?_eq_some_iff.mp hr).1, by simpa [hr] using hP⟩

/-- One more input adds its position or none. -/
theorem card_positions_append (l : List R) (r : R) :
    (positions P (l ++ [r])).card = (positions P l).card + if P l r then 1 else 0 := by
  have hold : ∀ i, i ≠ l.length → (i ∈ positions P (l ++ [r]) ↔ i ∈ positions P l) := by
    intro i hi
    rw [mem_positions, mem_positions]
    rcases Nat.lt_or_gt_of_ne hi with hlt | hgt
    · rw [List.getElem?_append_left hlt, List.take_append_of_le_length hlt.le]
    · simp [List.getElem?_eq_none (show (l ++ [r]).length ≤ i by simp; omega),
        List.getElem?_eq_none (show l.length ≤ i by omega)]
  have hnew : l.length ∈ positions P (l ++ [r]) ↔ P l r := by simp [mem_positions]
  have hfresh : l.length ∉ positions P l := by simp [mem_positions]
  split
  · rename_i hP
    have hset : positions P (l ++ [r]) = insert l.length (positions P l) := by
      ext i
      by_cases hi : i = l.length
      · subst hi
        simp [hnew, hP]
      · simp [hold i hi, hi]
    rw [hset, Finset.card_insert_of_notMem hfresh]
  · rename_i hP
    have hset : positions P (l ++ [r]) = positions P l := by
      ext i
      by_cases hi : i = l.length
      · subst hi
        simp [hnew, hP, hfresh]
      · exact hold i hi
    rw [hset, Nat.add_zero]

end

theorem card_positions (p : R → Bool) (l : List R) :
    (positions (fun _ r => p r = true) l).card = l.countP p := by
  induction l using List.reverseRecOn with
  | nil => rfl
  | append_singleton l r ih => simp [card_positions_append, ih, List.countP_cons]

/-! ## One machine for each key -/

variable [DecidableEq K]

/-- The machines of all keys, run side by side: an input moves the machine of
its key and no other. -/
def keyed (key : R → K) (step : S → R → Except ε (S × O)) (σ : K → S) (r : R) :
    Except ε ((K → S) × O) :=
  match step (σ (key r)) r with
  | .error e => .error e
  | .ok (s, o) => .ok (Function.update σ (key r) s, o)

/-- The outputs given for the inputs of one key. -/
def outputsOf (key : R → K) (k : K) (l : List R) (os : List O) : List O :=
  ((l.zip os).filter fun p => key p.1 = k).map Prod.snd

theorem outputsOf_map {O' : Type} (f : O → O') (key : R → K) (k : K) (l : List R) (os : List O) :
    outputsOf key k l (os.map f) = (outputsOf key k l os).map f := by
  simp only [outputsOf, List.zip_map_right, List.filter_map, List.map_map]
  rfl

theorem run_keyed {key : R → K} {step : S → R → Except ε (S × O)} {σ τ : K → S} {l : List R}
    {os : List O} (h : run (keyed key step) σ l = .ok (τ, os)) (k : K) :
    run step (σ k) (l.filter fun r => key r = k) = .ok (τ k, outputsOf key k l os) := by
  induction l generalizing σ os with
  | nil => cases h; rfl
  | cons r rest ih =>
    obtain ⟨σ', o, os', hs, hr, rfl⟩ := run_cons.mp h
    unfold keyed at hs
    split at hs
    · cases hs
    · rename_i s o' hstep
      cases hs
      have := ih hr
      by_cases hk : key r = k
      · subst hk
        rw [Function.update_self] at this
        simp only [List.filter_cons, decide_true, if_true, run_cons]
        exact ⟨s, o, _, hstep, this, by simp [outputsOf]⟩
      · rw [Function.update_of_ne (Ne.symm hk)] at this
        simp only [List.filter_cons, hk, decide_false, Bool.false_eq_true, if_false]
        simpa [outputsOf, hk] using this

theorem run_keyed_of_slots {key : R → K} {step : S → R → Except ε (S × O)} {σ : K → S}
    {l : List R} (h : ∀ k, ∃ res, run step (σ k) (l.filter fun r => key r = k) = .ok res) :
    ∃ res, run (keyed key step) σ l = .ok res := by
  induction l generalizing σ with
  | nil => exact ⟨_, rfl⟩
  | cons r rest ih =>
    obtain ⟨⟨t, os⟩, hr⟩ := h (key r)
    simp only [List.filter_cons, decide_true, if_true] at hr
    obtain ⟨s, o, os', hstep, hrest, rfl⟩ := run_cons.mp hr
    have hkeyed : keyed key step σ r = .ok (Function.update σ (key r) s, o) := by
      unfold keyed; rw [hstep]
    have hall : ∀ k, ∃ res,
        run step (Function.update σ (key r) s k) (rest.filter fun r => key r = k) = .ok res := by
      intro k
      by_cases hk : key r = k
      · subst hk
        rw [Function.update_self]
        exact ⟨_, hrest⟩
      · rw [Function.update_of_ne (Ne.symm hk)]
        obtain ⟨res, hres⟩ := h k
        simp only [List.filter_cons, hk, decide_false, Bool.false_eq_true, if_false] at hres
        exact ⟨res, hres⟩
    obtain ⟨⟨τ, os⟩, hτ⟩ := ih hall
    exact ⟨(τ, o :: os), run_cons.mpr ⟨_, o, os, hkeyed, hτ, rfl⟩⟩

/-- If every key's outputs are a function of its inputs, so are all outputs. -/
theorem outputs_eq_map {key : R → K} {F : K → R → O} {l : List R} {os : List O}
    (hlen : os.length = l.length)
    (h : ∀ k, outputsOf key k l os = (l.filter fun r => key r = k).map (F k)) :
    os = l.map fun r => F (key r) r := by
  have hpair : ∀ p ∈ l.zip os, p.2 = F (key p.1) p.1 := by
    intro p hp
    have hk := h (key p.1)
    have hfst : l.filter (fun r => key r = key p.1) =
        ((l.zip os).filter fun q => key q.1 = key p.1).map Prod.fst := by
      have hzip : (l.zip os).map Prod.fst = l := List.map_fst_zip hlen.ge
      conv_lhs => rw [← hzip]
      rw [List.filter_map]
      rfl
    rw [outputsOf, hfst, List.map_map] at hk
    exact (List.map_inj_left.mp hk) p (List.mem_filter.mpr ⟨hp, by simp⟩)
  calc os = (l.zip os).map Prod.snd := (List.map_snd_zip hlen.le).symm
    _ = (l.zip os).map ((fun r => F (key r) r) ∘ Prod.fst) := List.map_congr_left hpair
    _ = l.map fun r => F (key r) r := by rw [← List.map_map, List.map_fst_zip hlen.ge]

end UsbScope.Lib.Machine
