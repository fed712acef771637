import UsbScope.Lib.Checked

/-! # Bounded loops with early exit

`run body n i s` calls `body` with the indices `i, i+1, ..`, `n` times at most,
and stops at the first call that returns `true`. `run_rule` is its invariant
rule. `runChecked` is the same loop over a body that may panic. -/
namespace UsbScope.Lib.Loop

variable {S : Type}

def run (body : Nat → S → Bool × S) : Nat → Nat → S → S
  | 0, _, s => s
  | n + 1, i, s =>
    match body i s with
    | (true, s') => s'
    | (false, s') => run body n (i + 1) s'

/-- An invariant that the calls keep holds when all calls were made; otherwise
the call that stopped the loop establishes `Q`. -/
theorem run_rule (body : Nat → S → Bool × S) {I : Nat → S → Prop} {Q : S → Prop} {n i : Nat}
    {s : S} (h : I i s)
    (hcall : ∀ j s b s', i ≤ j → j < i + n → I j s → body j s = (b, s') →
      (b = false ∧ I (j + 1) s') ∨ (b = true ∧ Q s')) :
    Q (run body n i s) ∨ I (i + n) (run body n i s) := by
  induction n generalizing i s with
  | zero => exact .inr h
  | succ n ih =>
    rw [run]
    split
    · rename_i s' hb
      rcases hcall i s true s' le_rfl (by omega) h hb with ⟨hf, _⟩ | ⟨_, hQ⟩
      · cases hf
      · exact .inl hQ
    · rename_i s' hb
      rcases hcall i s false s' le_rfl (by omega) h hb with ⟨_, hnext⟩ | ⟨hf, _⟩
      · have hrec := ih hnext fun j t b t' hj hlt => hcall j t b t' (by omega) (by omega)
        rwa [show i + (n + 1) = i + 1 + n by omega]
      · cases hf

def runChecked (body : Nat → S → Checked (Bool × S)) : Nat → Nat → S → Checked S
  | 0, _, s => .ok s
  | n + 1, i, s => do
    match ← body i s with
    | (true, s') => .ok s'
    | (false, s') => runChecked body n (i + 1) s'

/-- No call of the loop panics when none does where an invariant holds. -/
theorem runChecked_eq {checked : Nat → S → Checked (Bool × S)} {body : Nat → S → Bool × S}
    {I : Nat → S → Prop} {n i : Nat} {s : S} (h : I i s)
    (hbody : ∀ j s, j < i + n → I j s → checked j s = .ok (body j s))
    (hkeep : ∀ j s s', j < i + n → I j s → body j s = (false, s') → I (j + 1) s') :
    runChecked checked n i s = .ok (run body n i s) := by
  induction n generalizing i s with
  | zero => rfl
  | succ n ih =>
    rw [runChecked, run, hbody i s (by omega) h, Checked.ok_bind]
    generalize hb : body i s = r
    obtain ⟨stop, s'⟩ := r
    cases stop with
    | true => rfl
    | false =>
      exact ih (hkeep i s s' (by omega) h hb) (fun j t hj => hbody j t (by omega))
        fun j t t' hj => hkeep j t t' (by omega)

end UsbScope.Lib.Loop
