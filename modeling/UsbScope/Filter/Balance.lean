import UsbScope.Filter.Meaning
import UsbScope.Filter.Search

/-! # Balanced expressions

`balanced` joins neighbours round after round. What it builds is evaluated like
its operands one after another, up to the first point that decides, and is only
logarithmically higher than they are. A parsed expression is therefore no higher
than its nesting and the logarithm of its length allow. -/
namespace UsbScope.Filter
open UsbScope.Lib UsbScope.Common UsbScope.Capture

/-! ## From left to right -/

/-- Kleene's connective. -/
def Truth.join (and : Bool) (t u : Truth) : Truth := if and then t.and u else t.or u

/-- The value that decides a row of operands. -/
def Truth.deciding (and : Bool) : Truth := if and then .false else .true

/-- The operands one after another, joined to `t`, until the value decides. -/
def leftToRight (and : Bool) (e : Event) (latency : Option UInt64) : Truth → List Expr → Result Truth
  | t, [] => .ok t
  | t, x :: rest =>
    if t = .deciding and then .ok t
    else do
      let u ← x.evaluate e latency
      leftToRight and e latency (t.join and u) rest

section

variable {and : Bool} {e : Event} {latency : Option UInt64}

theorem leftToRight_deciding (rest : List Expr) :
    leftToRight and e latency (.deciding and) rest = .ok (.deciding and) := by
  cases rest with
  | nil => rfl
  | cons x rest => rw [leftToRight, if_pos rfl]

theorem evaluate_join (x y : Expr) : (join and x y).evaluate e latency = (do
    let t ← x.evaluate e latency
    if t = .deciding and then .ok t
    else do
      let u ← y.evaluate e latency
      .ok (t.join and u)) := by
  cases and with
  | true => rfl
  | false => rfl

theorem evaluate_chain (first : Expr) (rest : List Expr) :
    (chain and first rest).evaluate e latency =
      first.evaluate e latency >>= fun t => leftToRight and e latency t rest := by
  induction rest generalizing first with
  | nil =>
    cases h : first.evaluate e latency with
    | error message => rw [chain, List.foldl_nil, h, Result.error_bind]
    | ok t => rw [chain, List.foldl_nil, h, Result.ok_bind, leftToRight]
  | cons x rest ih =>
    have hstep : chain and first (x :: rest) = chain and (join and first x) rest := rfl
    rw [hstep, ih, evaluate_join]
    cases hfirst : first.evaluate e latency with
    | error message => rfl
    | ok t =>
      rw [Result.ok_bind, Result.ok_bind, leftToRight]
      by_cases hdecided : t = .deciding and
      · rw [if_pos hdecided, if_pos hdecided, Result.ok_bind, hdecided, leftToRight_deciding]
      · rw [if_neg hdecided, if_neg hdecided]
        cases x.evaluate e latency with
        | error message => rfl
        | ok u => rfl

/-- Balancing changes neither the value nor the error. -/
theorem evaluate_balanced (first : Expr) (rest : List Expr) :
    (Parser.balanced first rest and).evaluate e latency =
      first.evaluate e latency >>= fun t => leftToRight and e latency t rest := by
  rw [same_balanced first rest e latency, evaluate_chain]

end

/-! ## Heights -/

/-- The nodes on the longest path down. -/
def Expr.height : Expr → Nat
  | .not x => x.height + 1
  | .and x y => max x.height y.height + 1
  | .or x y => max x.height y.height + 1
  | .all | .predicate _ | .contains _ => 1

theorem height_join (and : Bool) (x y : Expr) : (join and x y).height = max x.height y.height + 1 := by
  cases and with
  | true => rfl
  | false => rfl

theorem length_pairUp_eq (and : Bool) (first : Expr) (rest : List Expr) :
    (Parser.pairUp and first rest).2.length = rest.length / 2 := by
  fun_induction Parser.pairUp and first rest with
  | case1 a => simp
  | case2 a b => simp
  | case3 a b c rest first' more heq ih =>
    rw [heq] at ih
    simp only [List.length_cons] at ih ⊢
    omega

theorem height_pairUp {and : Bool} {first : Expr} {rest : List Expr} {h : Nat} (hfirst : first.height ≤ h)
    (hrest : ∀ x ∈ rest, x.height ≤ h) : (Parser.pairUp and first rest).1.height ≤ h + 1 ∧
      ∀ x ∈ (Parser.pairUp and first rest).2, x.height ≤ h + 1 := by
  have hjoin : ∀ a b : Expr, a.height ≤ h → b.height ≤ h → (join and a b).height ≤ h + 1 := by
    intro a b ha hb
    rw [height_join]
    omega
  fun_induction Parser.pairUp and first rest with
  | case1 a => exact ⟨Nat.le_succ_of_le hfirst, by simp⟩
  | case2 a b => exact ⟨hjoin a b hfirst (hrest b List.mem_cons_self), by simp⟩
  | case3 a b c rest first' more heq ih =>
    rw [heq] at ih
    have hb := hrest b List.mem_cons_self
    have hc := hrest c (List.mem_cons_of_mem _ List.mem_cons_self)
    obtain ⟨hnext, hmore⟩ := ih hc fun x hx =>
      hrest x (List.mem_cons_of_mem _ (List.mem_cons_of_mem _ hx))
    exact ⟨hjoin a b hfirst hb, List.forall_mem_cons.mpr ⟨hnext, hmore⟩⟩

/-- Each round halves the row and adds one level. -/
theorem height_balanced {and : Bool} {first : Expr} {rest : List Expr} {h : Nat}
    (hfirst : first.height ≤ h) (hrest : ∀ x ∈ rest, x.height ≤ h) :
    (Parser.balanced first rest and).height ≤ h + Nat.clog 2 (rest.length + 1) := by
  have hloop : ∀ fuel first rest h, rest.length ≤ fuel → first.height ≤ h → (∀ x ∈ rest, x.height ≤ h) →
      (Parser.balanceLoop and fuel first rest).height ≤ h + Nat.clog 2 (rest.length + 1) := by
    intro fuel
    induction fuel with
    | zero =>
      intro first rest h _ hfirst _
      rw [Parser.balanceLoop]
      omega
    | succ fuel ih =>
      intro first rest h hfuel hfirst hrest
      rw [Parser.balanceLoop]
      split
      · omega
      · rename_i hne
        have hpos : 0 < rest.length := List.length_pos_of_ne_nil (by simpa using hne)
        have hlen := length_pairUp_eq and first rest
        have hclog : Nat.clog 2 (rest.length + 1) = Nat.clog 2 (rest.length / 2 + 1) + 1 := by
          rw [Nat.clog_of_two_le (by norm_num) (by omega)]
          congr 2
          omega
        obtain ⟨hnext, hmore⟩ := @height_pairUp and _ _ _ hfirst hrest
        have hrec := ih _ _ (h + 1) (by omega) hnext hmore
        refine hrec.trans ?_
        rw [hlen]
        omega
  exact hloop rest.length first rest h le_rfl hfirst hrest

/-! ## Parsed expressions -/

/-- The parser takes at least one token, and what it makes of at most `k` tokens
is not higher than `h`. -/
def Limited (k h : Nat) (parser : List Token → Result (Expr × List Token)) : Prop :=
  ∀ tokens x rest, tokens.length ≤ k → parser tokens = .ok (x, rest) →
    rest.length < tokens.length ∧ x.height ≤ h

theorem length_take {tokens rest : List Token} {token : Token}
    (h : Parser.take tokens = .ok (token, rest)) : rest.length < tokens.length := by
  cases tokens with
  | nil => cases h
  | cons first tokens =>
    cases h
    exact Nat.lt_succ_self _

theorem length_accept {text : String} {tokens rest : List Token}
    (h : Parser.accept text tokens = some rest) : rest.length < tokens.length := by
  cases tokens with
  | nil => cases h
  | cons first tokens =>
    rw [Parser.accept] at h
    split at h
    · cases h
      exact Nat.lt_succ_self _
    · cases h

theorem length_comparison (tokens : List Token) :
    (Parser.comparison tokens).2.length ≤ tokens.length := by
  unfold Parser.comparison
  split <;> simp

theorem condition_limited (k : Nat) (field : Field) : Limited k 1 (Parser.condition field) := by
  have hvalue : ∀ mask tokens x rest, (do
      let taken ← Parser.take (Parser.comparison tokens).2
      let value ← Parser.fieldValue field taken.1.text
      .ok (Expr.predicate ⟨field, mask, (Parser.comparison tokens).1, value⟩, taken.2)) =
        Except.ok (x, rest) → rest.length < tokens.length ∧ x.height ≤ 1 := by
    intro mask tokens x rest h
    obtain ⟨⟨token, after⟩, htake, h⟩ := Result.bind_eq_ok.mp h
    obtain ⟨_, _, h⟩ := Result.bind_eq_ok.mp h
    cases h
    exact ⟨(length_take htake).trans_le (length_comparison tokens), le_rfl⟩
  intro tokens x rest _ h
  unfold Parser.condition at h
  dsimp only at h
  split at h
  · rename_i masked hmasked
    obtain ⟨⟨token, after⟩, htake, h⟩ := Result.bind_eq_ok.mp h
    obtain ⟨_, _, h⟩ := Result.bind_eq_ok.mp h
    obtain ⟨_, h⟩ := ensure_bind_eq_ok.mp h
    obtain ⟨hless, hheight⟩ := hvalue _ _ _ _ h
    exact ⟨(hless.trans (length_take htake)).trans (length_accept hmasked), hheight⟩
  · exact hvalue _ _ _ _ h

theorem length_extraction {tokens rest : List Token} {field : Field}
    (h : Parser.extraction tokens = .ok (field, rest)) : rest.length < tokens.length := by
  have hexpect : ∀ {text : String} {tokens rest : List Token},
      Parser.expect text tokens = .ok rest → rest.length < tokens.length :=
    fun h => length_accept (context_eq_ok.mp h)
  unfold Parser.extraction at h
  obtain ⟨inner, hopen, h⟩ := Result.bind_eq_ok.mp h
  obtain ⟨⟨token, after⟩, htake, h⟩ := Result.bind_eq_ok.mp h
  obtain ⟨_, _, h⟩ := Result.bind_eq_ok.mp h
  obtain ⟨_, h⟩ := ensure_bind_eq_ok.mp h
  have hbefore : after.length < tokens.length := (length_take htake).trans (hexpect hopen)
  dsimp only at h
  split at h
  · rename_i width hwidth
    obtain ⟨⟨token', after'⟩, htake', h⟩ := Result.bind_eq_ok.mp h
    obtain ⟨_, _, h⟩ := Result.bind_eq_ok.mp h
    obtain ⟨_, h⟩ := ensure_bind_eq_ok.mp h
    obtain ⟨_, h⟩ := ensure_bind_eq_ok.mp h
    obtain ⟨_, hclose, h⟩ := Result.bind_eq_ok.mp h
    cases h
    exact (((hexpect hclose).trans (length_take htake')).trans (length_accept hwidth)).trans hbefore
  · rw [Result.ok_bind] at h
    obtain ⟨_, h⟩ := ensure_bind_eq_ok.mp h
    obtain ⟨_, hclose, h⟩ := Result.bind_eq_ok.mp h
    cases h
    exact (hexpect hclose).trans hbefore

theorem predicate_limited (k : Nat) : Limited k 1 Parser.predicate := by
  intro tokens x rest hk h
  unfold Parser.predicate at h
  obtain ⟨⟨token, after⟩, htake, h⟩ := Result.bind_eq_ok.mp h
  have hless := length_take htake
  dsimp only at h
  split at h
  · split at h
    · rename_i searched hsearched
      obtain ⟨⟨token', after'⟩, htake', h⟩ := Result.bind_eq_ok.mp h
      obtain ⟨_, _, h⟩ := Result.bind_eq_ok.mp h
      cases h
      exact ⟨((length_take htake').trans (length_accept hsearched)).trans hless, le_rfl⟩
    · obtain ⟨⟨field, after'⟩, hfield, h⟩ := Result.bind_eq_ok.mp h
      have hextract := length_extraction hfield
      obtain ⟨hcond, hheight⟩ := condition_limited k field after' x rest (by omega) h
      exact ⟨(hcond.trans hextract).trans hless, hheight⟩
  · split at h
    · cases h
    · cases h
      exact ⟨hless, le_rfl⟩
    · obtain ⟨hcond, hheight⟩ := condition_limited k _ after x rest (by omega) h
      exact ⟨hcond.trans hless, hheight⟩

section

variable {k h : Nat} {unary : List Token → Result (Expr × List Token)}

theorem andRest_limited (hunary : Limited k h unary) {fuel : Nat} {tokens rest : List Token}
    {nodes : List Expr} (hk : tokens.length ≤ k)
    (hnodes : Parser.andRest unary fuel tokens = .ok (nodes, rest)) :
    nodes.length + rest.length ≤ tokens.length ∧ ∀ x ∈ nodes, x.height ≤ h := by
  induction fuel generalizing tokens nodes with
  | zero =>
    cases hnodes
    simp
  | succ fuel ih =>
    rw [Parser.andRest] at hnodes
    split at hnodes
    iterate 4
      cases hnodes
      simp
    have hskip : (((Parser.accept "and" tokens).or (Parser.accept "&&" tokens)).getD tokens).length ≤
        tokens.length := by
      cases hand : Parser.accept "and" tokens with
      | some after => exact (length_accept hand).le
      | none =>
        cases hsign : Parser.accept "&&" tokens with
        | some after => exact (length_accept hsign).le
        | none => exact le_rfl
    obtain ⟨⟨node, tokens₁⟩, hnode, hnodes⟩ := Result.bind_eq_ok.mp hnodes
    obtain ⟨⟨more, tokens₂⟩, hmore, hnodes⟩ := Result.bind_eq_ok.mp hnodes
    cases hnodes
    obtain ⟨hless, hheight⟩ := hunary _ _ _ (hskip.trans hk) hnode
    obtain ⟨hcount, hall⟩ := ih (by omega) hmore
    refine ⟨?_, List.forall_mem_cons.mpr ⟨hheight, hall⟩⟩
    rw [List.length_cons]
    omega

theorem orRest_limited (hand : Limited k h (Parser.and unary)) {fuel : Nat} {tokens rest : List Token}
    {nodes : List Expr} (hk : tokens.length ≤ k)
    (hnodes : Parser.orRest unary fuel tokens = .ok (nodes, rest)) :
    nodes.length + rest.length ≤ tokens.length ∧ ∀ x ∈ nodes, x.height ≤ h := by
  induction fuel generalizing tokens nodes with
  | zero =>
    cases hnodes
    simp
  | succ fuel ih =>
    rw [Parser.orRest] at hnodes
    split at hnodes
    · cases hnodes
      simp
    · rename_i after hafter
      have hskip : after.length < tokens.length := by
        rcases Option.or_eq_some_iff.mp hafter with hor | ⟨_, hor⟩
        · exact length_accept hor
        · exact length_accept hor
      obtain ⟨⟨node, tokens₁⟩, hnode, hnodes⟩ := Result.bind_eq_ok.mp hnodes
      obtain ⟨⟨more, tokens₂⟩, hmore, hnodes⟩ := Result.bind_eq_ok.mp hnodes
      cases hnodes
      obtain ⟨hless, hheight⟩ := hand _ _ _ (by omega) hnode
      obtain ⟨hcount, hall⟩ := ih (by omega) hmore
      refine ⟨?_, List.forall_mem_cons.mpr ⟨hheight, hall⟩⟩
      rw [List.length_cons]
      omega

/-- A row of at most `k` tokens adds the logarithm of its length. -/
theorem row_limited {and : Bool} {node : Expr} {nodes : List Expr} (hnode : node.height ≤ h)
    (hnodes : ∀ x ∈ nodes, x.height ≤ h) (hlen : nodes.length ≤ k) :
    (Parser.balanced node nodes and).height ≤ h + Nat.clog 2 (k + 1) := by
  have hclog : Nat.clog 2 (nodes.length + 1) ≤ Nat.clog 2 (k + 1) := Nat.clog_mono_right 2 (by omega)
  exact (height_balanced hnode hnodes).trans (by omega)

theorem and_limited (hunary : Limited k h unary) :
    Limited k (h + Nat.clog 2 (k + 1)) (Parser.and unary) := by
  intro tokens x rest hk hx
  obtain ⟨⟨node, tokens₁⟩, hnode, hx⟩ := Result.bind_eq_ok.mp hx
  obtain ⟨⟨nodes, tokens₂⟩, hnodes, hx⟩ := Result.bind_eq_ok.mp hx
  cases hx
  obtain ⟨hless, hheight⟩ := hunary _ _ _ hk hnode
  obtain ⟨hcount, hall⟩ := andRest_limited hunary (by omega) hnodes
  exact ⟨by omega, row_limited hheight hall (by omega)⟩

theorem or_limited (hunary : Limited k h unary) :
    Limited k (h + 2 * Nat.clog 2 (k + 1)) (Parser.or unary) := by
  intro tokens x rest hk hx
  have hand := and_limited hunary
  obtain ⟨⟨node, tokens₁⟩, hnode, hx⟩ := Result.bind_eq_ok.mp hx
  obtain ⟨⟨nodes, tokens₂⟩, hnodes, hx⟩ := Result.bind_eq_ok.mp hx
  cases hx
  obtain ⟨hless, hheight⟩ := hand _ _ _ hk hnode
  obtain ⟨hcount, hall⟩ := orRest_limited hand (by omega) hnodes
  have hlen : nodes.length ≤ k := by omega
  have hrow := @row_limited k _ false _ _ hheight hall hlen
  exact ⟨by omega, by omega⟩

end

/-- The three forms of an operand. -/
theorem unary_forms {k h budget : Nat} (hpredicate : 1 ≤ h)
    (hnot : ∀ tokens x rest, tokens.length ≤ k → Parser.unary budget tokens = .ok (x, rest) →
      rest.length < tokens.length ∧ x.height + 1 ≤ h)
    (hparens : Limited k h (Parser.or (Parser.unary budget))) : Limited k h (Parser.unary (budget + 1)) := by
  intro tokens x rest hk hx
  rw [Parser.unary] at hx
  split at hx
  · rename_i after hafter
    have hskip : after.length < tokens.length := by
      rcases Option.or_eq_some_iff.mp hafter with haccept | ⟨_, haccept⟩
      · exact length_accept haccept
      · exact length_accept haccept
    obtain ⟨⟨node, tokens₁⟩, hnode, hx⟩ := Result.bind_eq_ok.mp hx
    cases hx
    obtain ⟨hless, hheight⟩ := hnot _ _ _ (by omega) hnode
    exact ⟨by omega, hheight⟩
  · split at hx
    · rename_i after hafter
      have hskip := length_accept hafter
      obtain ⟨⟨node, tokens₁⟩, hnode, hx⟩ := Result.bind_eq_ok.mp hx
      obtain ⟨tokens₂, hclose, hx⟩ := Result.bind_eq_ok.mp hx
      cases hx
      obtain ⟨hless, hheight⟩ := hparens _ _ _ (by omega) hnode
      have hend := length_accept (context_eq_ok.mp hclose)
      exact ⟨by omega, hheight⟩
    · obtain ⟨hless, hheight⟩ := predicate_limited k tokens x rest hk hx
      exact ⟨hless, hheight.trans hpredicate⟩

/-- Each level of nesting adds a negation, or one conjunction and one
disjunction. -/
theorem unary_limited (k budget : Nat) :
    Limited k (budget * (1 + 2 * Nat.clog 2 (k + 1)) + 1) (Parser.unary (budget + 1)) := by
  induction budget with
  | zero =>
    -- no operand can be nested in this one
    refine unary_forms (by omega) ?_ ?_
    · intro tokens x rest _ hx
      cases hx
    · intro tokens x rest _ hx
      cases hx
  | succ budget ih =>
    have hor := or_limited ih
    rw [Nat.succ_mul]
    refine unary_forms (by omega) ?_ ?_
    · intro tokens x rest hk hx
      obtain ⟨hless, hheight⟩ := ih tokens x rest hk hx
      exact ⟨hless, by omega⟩
    · intro tokens x rest hk hx
      obtain ⟨hless, hheight⟩ := hor tokens x rest hk hx
      exact ⟨hless, by omega⟩

theorem height_parse {source : String} {tokens : List Token} {f : Filter}
    (htokens : tokenize source = .ok tokens) (h : parse source = .ok f) :
    f.expression.height ≤ 128 * (1 + 2 * Nat.clog 2 (tokens.length + 1)) := by
  rw [parse, htokens, Result.ok_bind] at h
  split at h
  · cases h
    show 1 ≤ _
    omega
  · obtain ⟨⟨x, rest⟩, hx, h⟩ := Result.bind_eq_ok.mp h
    obtain ⟨_, h⟩ := ensure_bind_eq_ok.mp h
    cases h
    have hheight := (or_limited (unary_limited tokens.length 127) tokens x rest le_rfl hx).2
    dsimp only
    omega

end UsbScope.Filter
