import Mathlib

/-! # Fallible computations

Errors are their message texts. The bind lemmas take a successful computation
apart into its successful parts. -/
namespace UsbScope.Lib

abbrev Result := Except String

/-- Succeed exactly when the condition holds. -/
def ensure (c : Prop) [Decidable c] (message : String) : Result Unit :=
  if c then .ok () else .error message

/-- `Option` as a fallible value, with the message for a missing one. -/
def context {α : Type} (x : Option α) (message : String) : Result α :=
  match x with
  | some a => .ok a
  | none => .error message

namespace Result

variable {α β : Type}

theorem bind_eq_ok {x : Result α} {f : α → Result β} {b : β} :
    (x >>= f) = .ok b ↔ ∃ a, x = .ok a ∧ f a = .ok b := by
  cases x with
  | error e => simp [bind, Except.bind]
  | ok a => simp [bind, Except.bind]

/-- Where an error comes from. -/
theorem bind_eq_error {x : Result α} {f : α → Result β} {e : String} :
    (x >>= f) = .error e ↔ x = .error e ∨ ∃ a, x = .ok a ∧ f a = .error e := by
  cases x with
  | error e' => simp [bind, Except.bind]
  | ok a => simp [bind, Except.bind]

theorem pure_eq_ok {a b : α} : (pure a : Result α) = .ok b ↔ a = b := by
  simp [pure, Except.pure]

theorem eq_ok_of_toOption {x : Result α} {a : α} (h : x.toOption = some a) : x = .ok a := by
  cases x with
  | error e => cases h
  | ok b => exact congrArg Except.ok (Option.some.inj h)

@[simp] theorem ok_bind (a : α) (f : α → Result β) : ((.ok a : Result α) >>= f) = f a := rfl

@[simp] theorem error_bind (e : String) (f : α → Result β) :
    ((.error e : Result α) >>= f) = .error e := rfl

end Result

theorem ensure_eq_ok {c : Prop} [Decidable c] {message : String} {u : Unit} :
    ensure c message = .ok u ↔ c := by
  unfold ensure
  split <;> simp_all

theorem ensure_eq_error {c : Prop} [Decidable c] {message e : String}
    (h : ensure c message = .error e) : e = message := by
  unfold ensure at h
  split at h
  · cases h
  · cases h
    rfl

theorem ensure_bind_eq_error {α : Type} {c : Prop} [Decidable c] {message e : String}
    {f : Unit → Result α} (h : (ensure c message >>= f) = .error e) : e = message ∨ f () = .error e := by
  unfold ensure at h
  split at h
  · exact .inr h
  · cases h
    exact .inl rfl

theorem ensure_of {c : Prop} [Decidable c] (message : String) (h : c) :
    ensure c message = .ok () := if_pos h

theorem context_eq_ok {α : Type} {x : Option α} {message : String} {a : α} :
    context x message = .ok a ↔ x = some a := by
  cases x <;> simp [context]

@[simp] theorem context_some {α : Type} (a : α) (message : String) :
    context (some a) message = .ok a := rfl

/-- A guarded computation succeeds when the guard holds and the rest does. -/
theorem ensure_bind_eq_ok {α : Type} {c : Prop} [Decidable c] {message : String}
    {f : Unit → Result α} {a : α} :
    (ensure c message >>= f) = .ok a ↔ c ∧ f () = .ok a := by
  rw [Result.bind_eq_ok]
  constructor
  · rintro ⟨u, hc, hf⟩
    exact ⟨ensure_eq_ok.mp hc, hf⟩
  · rintro ⟨hc, hf⟩
    exact ⟨(), ensure_of _ hc, hf⟩

theorem forM_eq_ok {α : Type} {l : List α} {f : α → Result Unit} :
    l.forM f = .ok () ↔ ∀ x ∈ l, f x = .ok () := by
  induction l with
  | nil => simp [pure, Except.pure]
  | cons x rest ih =>
    have hcons : (x :: rest).forM f = f x >>= fun _ => rest.forM f := rfl
    rw [hcons, Result.bind_eq_ok, List.forall_mem_cons]
    constructor
    · intro h
      obtain ⟨_, hx, hrest⟩ := h
      exact ⟨hx, ih.mp hrest⟩
    · intro h
      exact ⟨(), h.1, ih.mpr h.2⟩

/-! ## Two computations side by side -/

/-- Both computations fail with the same message, or both succeed, with related
values. -/
inductive Both {α β : Type} (R : α → β → Prop) : Result α → Result β → Prop where
  | ok {a : α} {b : β} (h : R a b) : Both R (.ok a) (.ok b)
  | error (message : String) : Both R (.error message) (.error message)

namespace Both

variable {α β γ δ : Type} {R : α → β → Prop} {S : γ → δ → Prop}

theorem bind {x : Result α} {y : Result β} {f : α → Result γ} {g : β → Result δ} (h : Both R x y)
    (hnext : ∀ a b, x = .ok a → R a b → Both S (f a) (g b)) : Both S (x >>= f) (y >>= g) := by
  cases h with
  | ok h => exact hnext _ _ rfl h
  | error message => exact .error message

theorem same (x : Result α) {f : α → Result γ} {g : α → Result δ}
    (hnext : ∀ a, x = .ok a → Both S (f a) (g a)) : Both S (x >>= f) (x >>= g) := by
  cases x with
  | ok a => exact hnext a rfl
  | error message => exact .error message

theorem ensure {c : Prop} [Decidable c] (message : String) {f : Unit → Result γ} {g : Unit → Result δ}
    (hnext : c → Both S (f ()) (g ())) :
    Both S (Lib.ensure c message >>= f) (Lib.ensure c message >>= g) :=
  same _ fun _ h => hnext (ensure_eq_ok.mp h)

end Both

end UsbScope.Lib
