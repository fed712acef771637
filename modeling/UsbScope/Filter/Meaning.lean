import UsbScope.Filter.Parse

/-! # Expressions with the same meaning

Two expressions mean the same when they evaluate alike on every event and
latency, errors included. Both connectives are associative in this sense: their
operands are evaluated from left to right up to the first one that decides.
Balancing a flat list of operands therefore keeps its meaning. -/
namespace UsbScope.Filter
open UsbScope.Lib UsbScope.Common UsbScope.Capture

/-- The same value, or the same error, on every event and latency. -/
def Expr.Same (x y : Expr) : Prop := ∀ e latency, x.evaluate e latency = y.evaluate e latency

namespace Expr.Same

variable {x x' y y' z : Expr}

theorem refl (x : Expr) : x.Same x := fun _ _ => rfl

theorem symm (h : x.Same y) : y.Same x := fun e latency => (h e latency).symm

theorem trans (h : x.Same y) (h' : y.Same z) : x.Same z := fun e latency =>
  (h e latency).trans (h' e latency)

theorem not (h : x.Same y) : (Expr.not x).Same (.not y) := by
  intro e latency
  rw [Expr.evaluate, Expr.evaluate, h e latency]

theorem and (h : x.Same x') (h' : y.Same y') : (Expr.and x y).Same (.and x' y') := by
  intro e latency
  rw [Expr.evaluate, Expr.evaluate, h e latency, h' e latency]

theorem or (h : x.Same x') (h' : y.Same y') : (Expr.or x y).Same (.or x' y') := by
  intro e latency
  rw [Expr.evaluate, Expr.evaluate, h e latency, h' e latency]

/-- The third operand is evaluated when neither of the first two is false. -/
theorem and_assoc (x y z : Expr) : (Expr.and (.and x y) z).Same (.and x (.and y z)) := by
  intro e latency
  simp only [Expr.evaluate]
  cases hx : x.evaluate e latency with
  | error message => rfl
  | ok t =>
    cases hy : y.evaluate e latency with
    | error message => cases t <;> rfl
    | ok u =>
      cases hz : z.evaluate e latency with
      | error message => cases t <;> cases u <;> rfl
      | ok v => cases t <;> cases u <;> cases v <;> rfl

theorem or_assoc (x y z : Expr) : (Expr.or (.or x y) z).Same (.or x (.or y z)) := by
  intro e latency
  simp only [Expr.evaluate]
  cases hx : x.evaluate e latency with
  | error message => rfl
  | ok t =>
    cases hy : y.evaluate e latency with
    | error message => cases t <;> rfl
    | ok u =>
      cases hz : z.evaluate e latency with
      | error message => cases t <;> cases u <;> rfl
      | ok v => cases t <;> cases u <;> cases v <;> rfl

end Expr.Same

/-! ## Chains of operands -/

/-- The connective of `balanced`. -/
def join (and : Bool) (a b : Expr) : Expr := if and then .and a b else .or a b

/-- The operands joined one after another. -/
def chain (and : Bool) (first : Expr) (rest : List Expr) : Expr := rest.foldl (join and) first

section

variable {and : Bool} {x x' y y' : Expr}

theorem same_join (h : x.Same x') (h' : y.Same y') : (join and x y).Same (join and x' y') := by
  cases and with
  | true => exact h.and h'
  | false => exact h.or h'

theorem join_assoc (x y z : Expr) : (join and (join and x y) z).Same (join and x (join and y z)) := by
  cases and with
  | true => exact Expr.Same.and_assoc x y z
  | false => exact Expr.Same.or_assoc x y z

theorem same_chain (h : x.Same x') (rest : List Expr) :
    (chain and x rest).Same (chain and x' rest) := by
  induction rest generalizing x x' with
  | nil => exact h
  | cons y rest ih => exact ih (same_join h (Expr.Same.refl y))

theorem chain_join (x y : Expr) (rest : List Expr) :
    (chain and (join and x y) rest).Same (join and x (chain and y rest)) := by
  induction rest generalizing x y with
  | nil => exact Expr.Same.refl _
  | cons z rest ih =>
    have hassoc : (chain and (join and (join and x y) z) rest).Same
        (chain and (join and x (join and y z)) rest) := same_chain (join_assoc x y z) rest
    exact hassoc.trans (ih x (join and y z))

theorem same_chain_pairUp (first : Expr) (rest : List Expr) :
    (chain and (Parser.pairUp and first rest).1 (Parser.pairUp and first rest).2).Same
      (chain and first rest) := by
  fun_induction Parser.pairUp and first rest with
  | case1 a => exact Expr.Same.refl _
  | case2 a b => exact Expr.Same.refl _
  | case3 a b c rest first' more heq ih =>
    rw [heq] at ih
    -- join the tail that is already right to the first pair
    have hpair : (chain and (join and (join and a b) first') more).Same
        (join and (join and a b) (chain and first' more)) := chain_join _ _ _
    have htail : (join and (join and a b) (chain and c rest)).Same
        (chain and (join and (join and a b) c) rest) := (chain_join _ _ _).symm
    exact (hpair.trans (same_join (Expr.Same.refl _) ih)).trans htail

theorem length_pairUp (and : Bool) (first : Expr) (rest : List Expr) :
    (Parser.pairUp and first rest).2.length ≤ rest.length - 1 := by
  fun_induction Parser.pairUp and first rest with
  | case1 a => simp
  | case2 a b => simp
  | case3 a b c rest first' more heq ih =>
    rw [heq] at ih
    simp only [List.length_cons] at ih ⊢
    omega

/-- Balancing keeps the meaning of a chain. -/
theorem same_balanced (first : Expr) (rest : List Expr) :
    (Parser.balanced first rest and).Same (chain and first rest) := by
  have hloop : ∀ fuel first rest, rest.length ≤ fuel →
      (Parser.balanceLoop and fuel first rest).Same (chain and first rest) := by
    intro fuel
    induction fuel with
    | zero =>
      intro first rest hfuel
      obtain rfl := List.length_eq_zero_iff.mp (Nat.le_zero.mp hfuel)
      exact Expr.Same.refl _
    | succ fuel ih =>
      intro first rest hfuel
      rw [Parser.balanceLoop]
      split
      · rename_i hempty
        obtain rfl := List.isEmpty_iff.mp hempty
        exact Expr.Same.refl _
      · have hlen := length_pairUp and first rest
        exact (ih _ _ (by omega)).trans (same_chain_pairUp first rest)
  exact hloop rest.length first rest le_rfl

end
end UsbScope.Filter
