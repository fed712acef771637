import UsbScope.Lib.Bytes
import UsbScope.Lib.Result

/-! # Computations that may panic

A panic is kept apart from the errors that a computation returns: a difference
below zero, a value outside its type, a division by zero, a field outside its
slice. `Checked.of` says that a computation does not panic; `of_bind` proves it
step by step. -/
namespace UsbScope.Lib

inductive Fault where
  | panic
  | error (message : String)
deriving DecidableEq

abbrev Checked := Except Fault

namespace Checked

variable {α β : Type}

/-- A computation that returns errors but does not panic. -/
def of : Result α → Checked α
  | .ok a => .ok a
  | .error message => .error (.error message)

def guard (c : Prop) [Decidable c] (a : α) : Checked α := if c then .ok a else .error .panic

def sub (a b : Nat) : Checked Nat := guard (b ≤ a) (a - b)

/-- A difference of unsigned words. -/
def sub32 (a b : UInt32) : Checked UInt32 := guard (b ≤ a) (a - b)

/-! Words: a sum, product or left shift that loses bits, a difference below zero
and a shift by the width or more are faults. -/

def add32 (a b : UInt32) : Checked UInt32 := guard (a.toNat + b.toNat < 2 ^ 32) (a + b)

def shl32 (a n : UInt32) : Checked UInt32 :=
  guard (n.toNat < 32 ∧ a.toNat * 2 ^ n.toNat < 2 ^ 32) (a <<< n)

def sub64 (a b : UInt64) : Checked UInt64 := guard (b ≤ a) (a - b)

def add64 (a b : UInt64) : Checked UInt64 := guard (a.toNat + b.toNat < 2 ^ 64) (a + b)

def mul64 (a b : UInt64) : Checked UInt64 := guard (a.toNat * b.toNat < 2 ^ 64) (a * b)

def shl64 (a n : UInt64) : Checked UInt64 :=
  guard (n.toNat < 64 ∧ a.toNat * 2 ^ n.toNat < 2 ^ 64) (a <<< n)

def shr64 (a n : UInt64) : Checked UInt64 := guard (n.toNat < 64) (a >>> n)

/-- A sum of `w` bits. -/
def add (w a b : Nat) : Checked Nat := guard (a + b < 2 ^ w) (a + b)

/-- A signed value of `w` bits. -/
def signed (w : Nat) (v : Int) : Checked Int := guard (-2 ^ (w - 1) ≤ v ∧ v < 2 ^ (w - 1)) v

def div (a b : Int) : Checked Int := guard (b ≠ 0) (a.tdiv b)

/-- A field of a slice. -/
def field (n : Nat) (read : Nat → Bytes → α) (pos : Nat) (b : Bytes) : Checked α :=
  guard (pos + n ≤ b.length) (read pos b)

theorem guard_of {c : Prop} [Decidable c] (h : c) (a : α) : guard c a = .ok a := if_pos h

@[simp] theorem ok_bind (a : α) (f : α → Checked β) : ((.ok a : Checked α) >>= f) = f a := rfl

theorem field_ok {n : Nat} {read : Nat → Bytes → α} {pos : Nat} {b : Bytes} (h : pos + n ≤ b.length) :
    field n read pos b = .ok (read pos b) := guard_of h _

theorem sub_ok {a b : Nat} (h : b ≤ a) : sub a b = .ok (a - b) := guard_of h _

theorem sub32_ok {a b : UInt32} (h : b ≤ a) : sub32 a b = .ok (a - b) := guard_of h _

/-- A computation does not panic when its first step does not and the rest does
not on what that step returns. -/
theorem of_bind {x : Result α} {f : α → Checked β} {g : α → Result β}
    (h : ∀ a, x = .ok a → f a = of (g a)) : (of x >>= f) = of (x >>= g) := by
  cases x with
  | error message => rfl
  | ok a => exact h a rfl

theorem of_ne_panic (x : Result α) : of x ≠ .error .panic := by
  cases x with
  | error message => nofun
  | ok a => nofun

end Checked
end UsbScope.Lib
