import Mathlib

/-! # Runs that leave a trace

A total machine whose steps leave any number of outputs. `run_rule` is the
invariant rule for the trace and the state together, `run_guarded` the one for
runs whose inputs come in states that allow them; `Each` says something of
every output and the outputs before it, `latest` finds the last output with a
key. -/
namespace UsbScope.Lib.Trace

variable {S I O : Type}

def run (step : S → I → S × List O) (s : S) (inputs : List I) : S × List O :=
  inputs.foldl (fun r x => ((step r.1 x).1, r.2 ++ (step r.1 x).2)) (s, [])

theorem run_concat (step : S → I → S × List O) (s : S) (inputs : List I) (x : I) :
    run step s (inputs ++ [x]) = ((step (run step s inputs).1 x).1,
      (run step s inputs).2 ++ (step (run step s inputs).1 x).2) := by
  simp only [run, List.foldl_append, List.foldl_cons, List.foldl_nil]

theorem foldl_log (step : S → I → S × List O) (inputs : List I) (s : S) (log : List O) :
    inputs.foldl (fun r x => ((step r.1 x).1, r.2 ++ (step r.1 x).2)) (s, log) =
      ((run step s inputs).1, log ++ (run step s inputs).2) := by
  induction inputs using List.reverseRecOn with
  | nil => simp [run]
  | append_singleton inputs x ih =>
    rw [List.foldl_append, ih, run_concat, ← List.append_assoc]
    rfl

theorem run_cons (step : S → I → S × List O) (s : S) (x : I) (inputs : List I) :
    run step s (x :: inputs) = ((run step (step s x).1 inputs).1,
      (step s x).2 ++ (run step (step s x).1 inputs).2) := by
  rw [run, List.foldl_cons, foldl_log]
  rfl

theorem run_rule {step : S → I → S × List O} {P : List O → S → Prop} {s : S} (h : P [] s)
    (hstep : ∀ log s x, P log s → P (log ++ (step s x).2) (step s x).1) (inputs : List I) :
    P (run step s inputs).2 (run step s inputs).1 := by
  induction inputs using List.reverseRecOn with
  | nil => exact h
  | append_singleton inputs x ih =>
    rw [run_concat]
    exact hstep _ _ x ih

/-- Every input comes in a state that allows it. -/
def Guarded (step : S → I → S × List O) (G : S → I → Prop) (s : S) (inputs : List I) : Prop :=
  ∀ before x after, inputs = before ++ x :: after → G (run step s before).1 x

theorem guarded_cons {step : S → I → S × List O} {G : S → I → Prop} {s : S} {x : I} {inputs : List I}
    (h : Guarded step G s (x :: inputs)) : G s x ∧ Guarded step G (step s x).1 inputs := by
  refine ⟨h [] x inputs rfl, fun before y after hsplit => ?_⟩
  have hy := h (x :: before) y after (by rw [hsplit]; rfl)
  rwa [run_cons] at hy

theorem Guarded.nil {step : S → I → S × List O} {G : S → I → Prop} {s : S} : Guarded step G s [] := by
  intro before x after hsplit
  simp at hsplit

theorem Guarded.cons {step : S → I → S × List O} {G : S → I → Prop} {s : S} {x : I} {inputs : List I}
    (hx : G s x) (h : Guarded step G (step s x).1 inputs) : Guarded step G s (x :: inputs) := by
  intro before y after hsplit
  cases before with
  | nil =>
    cases hsplit
    exact hx
  | cons b before =>
    obtain ⟨rfl, htail⟩ := List.cons.inj hsplit
    rw [run_cons]
    exact h before y after htail

/-- The invariant rule for guarded runs. -/
theorem run_guarded {step : S → I → S × List O} {G : S → I → Prop} {P : List O → S → Prop} {s : S}
    (h : P [] s) (hstep : ∀ log s x, P log s → G s x → P (log ++ (step s x).2) (step s x).1)
    {inputs : List I} (hguard : Guarded step G s inputs) :
    P (run step s inputs).2 (run step s inputs).1 := by
  induction inputs using List.reverseRecOn with
  | nil => exact h
  | append_singleton inputs x ih =>
    rw [run_concat]
    refine hstep _ _ x (ih fun before y after hsplit => ?_) (hguard inputs x [] rfl)
    exact hguard before y (after ++ [x]) (by rw [hsplit, List.append_assoc, List.cons_append])

/-- Every output, with the outputs before it, satisfies `P`. -/
def Each (P : List O → O → Prop) (log : List O) : Prop :=
  ∀ i o, log[i]? = some o → P (log.take i) o

theorem Each.nil {P : List O → O → Prop} : Each P [] := by
  intro i o h
  simp at h

theorem Each.concat {P : List O → O → Prop} {log : List O} {o : O} (h : Each P log)
    (ho : P log o) : Each P (log ++ [o]) := by
  intro i o' hi
  rcases Nat.lt_trichotomy i log.length with hlt | heq | hgt
  · rw [List.getElem?_append_left hlt] at hi
    rw [List.take_append_of_le_length hlt.le]
    exact h i o' hi
  · rw [heq, List.getElem?_concat_length] at hi
    rw [heq, List.take_left, ← Option.some.inj hi]
    exact ho
  · have hnone : (log ++ [o])[i]? = none := List.getElem?_eq_none (by simp; omega)
    rw [hnone] at hi
    cases hi

theorem Each.of_concat {P : List O → O → Prop} {log : List O} {o : O} (h : Each P (log ++ [o])) :
    Each P log ∧ P log o := by
  constructor
  · intro i x hi
    have hlt := (List.getElem?_eq_some_iff.mp hi).1
    have hx := h i x (by rw [List.getElem?_append_left hlt]; exact hi)
    rwa [List.take_append_of_le_length hlt.le] at hx
  · have ho := h log.length o List.getElem?_concat_length
    rwa [List.take_left] at ho

/-- The first output with nothing before it, the others after it. -/
theorem each_cons {P : List O → O → Prop} {o : O} {log : List O} :
    Each P (o :: log) ↔ P [] o ∧ Each (fun before => P (o :: before)) log := by
  constructor
  · intro h
    exact ⟨h 0 o rfl, fun i x hi => h (i + 1) x hi⟩
  · rintro ⟨ho, hlog⟩ i x hi
    cases i with
    | zero =>
      cases hi
      exact ho
    | succ i => exact hlog i x hi

theorem each_append {P : List O → O → Prop} {a b : List O} :
    Each P (a ++ b) ↔ Each P a ∧ Each (fun before => P (a ++ before)) b := by
  induction a generalizing P with
  | nil => exact (and_iff_right Each.nil).symm
  | cons o a ih =>
    rw [List.cons_append, each_cons, ih, each_cons, and_assoc]
    rfl

/-! ## The latest output of a key -/

variable {K : Type} [DecidableEq K]

def latest (key : O → Option K) (log : List O) (k : K) : Option O :=
  (log.filter fun o => key o = some k).getLast?

theorem latest_concat (key : O → Option K) (log : List O) (o : O) (k : K) :
    latest key (log ++ [o]) k = if key o = some k then some o else latest key log k := by
  unfold latest
  rw [List.filter_append]
  split
  · rename_i hk
    simp [hk]
  · rename_i hk
    simp [hk]

theorem latest_eq_some {key : O → Option K} {log : List O} {k : K} {o : O}
    (h : latest key log k = some o) : o ∈ log ∧ key o = some k := by
  have hmem := List.mem_of_getLast? h
  rw [List.mem_filter, decide_eq_true_iff] at hmem
  exact hmem

end UsbScope.Lib.Trace
