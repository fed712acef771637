import UsbScope.Filter.Balance
import UsbScope.Filter.Inverse

/-! # Nesting

The parser's own counter of nested calls. It goes up when `unary` is entered and
down when `unary` succeeds; a failure ends the parse. With frames for 128 nested
calls the parser never runs out of them, and a row of operands needs one. -/
namespace UsbScope.Filter
open UsbScope.Lib UsbScope.Common UsbScope.Capture

/-! ## The counter -/

namespace Counted

/-- The tokens not yet taken, and the calls of `unary` that are active. -/
structure State where
  tokens : List Token
  depth : Nat

section
variable (unary : State → Result (Expr × State))

def andRest : Nat → State → Result (List Expr × State)
  | 0, s => .ok ([], s)
  | fuel + 1, s =>
    match Parser.peek s.tokens with
    | none | some ")" | some "or" | some "||" => .ok ([], s)
    | _ => do
      let tokens := ((Parser.accept "and" s.tokens).or (Parser.accept "&&" s.tokens)).getD s.tokens
      let (node, s) ← unary { s with tokens := tokens }
      let (nodes, s) ← andRest fuel s
      .ok (node :: nodes, s)

def and (s : State) : Result (Expr × State) := do
  let (node, s) ← unary s
  let (nodes, s) ← andRest unary s.tokens.length s
  .ok (Parser.balanced node nodes true, s)

def orRest : Nat → State → Result (List Expr × State)
  | 0, s => .ok ([], s)
  | fuel + 1, s =>
    match (Parser.accept "or" s.tokens).or (Parser.accept "||" s.tokens) with
    | none => .ok ([], s)
    | some tokens => do
      let (node, s) ← and unary { s with tokens := tokens }
      let (nodes, s) ← orRest fuel s
      .ok (node :: nodes, s)

def or (s : State) : Result (Expr × State) := do
  let (node, s) ← and unary s
  let (nodes, s) ← orRest unary s.tokens.length s
  .ok (Parser.balanced node nodes false, s)

end

/-- `unary` with its counter, as long as there are frames for the calls that
pass the check. -/
def unary : Nat → State → Result (Expr × State)
  | 0, s => do
    ensure (s.depth + 1 ≤ Parser.maxDepth) "filter nesting exceeds parser resource limit"
    .error "no frame is left"
  | frames + 1, s => do
    ensure (s.depth + 1 ≤ Parser.maxDepth) "filter nesting exceeds parser resource limit"
    let depth := s.depth + 1
    let (node, s) ←
      match (Parser.accept "not" s.tokens).or (Parser.accept "!" s.tokens) with
      | some tokens => do
        let (node, s) ← unary frames ⟨tokens, depth⟩
        (.ok (.not node, s) : Result (Expr × State))
      | none =>
        match Parser.accept "(" s.tokens with
        | some tokens => do
          let (node, s) ← or (unary frames) ⟨tokens, depth⟩
          let tokens ← Parser.expect ")" s.tokens
          .ok (node, { s with tokens := tokens })
        | none => do
          let (node, tokens) ← Parser.predicate s.tokens
          .ok (node, ⟨tokens, depth⟩)
    .ok (node, { s with depth := s.depth - 1 })

/-- `Filter::parse` with the counter, within a number of frames. -/
def parse (frames : Nat) (source : String) : Result Filter := do
  let tokens ← tokenize source
  if tokens.isEmpty then .ok ⟨.all⟩
  else do
    let (expression, s) ← or (unary frames) ⟨tokens, 0⟩
    ensure (Parser.peek s.tokens = none) ("unexpected token " ++ Parser.debug (Parser.peek s.tokens))
    .ok ⟨expression⟩

/-- The result of the parser without the counter, at a depth. -/
def atDepth {α : Type} (depth : Nat) (r : Result (α × List Token)) : Result (α × State) :=
  r >>= fun p => .ok (p.1, ⟨p.2, depth⟩)

theorem atDepth_bind {α β : Type} (depth : Nat) (r : Result (α × List Token))
    (f : α × State → Result β) : (atDepth depth r >>= f) = r >>= fun p => f (p.1, ⟨p.2, depth⟩) := by
  cases r with
  | error message => rfl
  | ok p => rfl

theorem andRest_open {counted : State → Result (Expr × State)} {s : State} (fuel : Nat)
    (h : ¬ AndEnds s.tokens) : andRest counted (fuel + 1) s = (do
      let tokens := ((Parser.accept "and" s.tokens).or (Parser.accept "&&" s.tokens)).getD s.tokens
      let (node, s) ← counted { s with tokens := tokens }
      let (nodes, s) ← andRest counted fuel s
      .ok (node :: nodes, s)) := by
  rw [andRest]
  split
  iterate 4
    rename_i hpeek
    exact absurd (by simp [AndEnds, hpeek]) h
  rfl

section
variable {counted : State → Result (Expr × State)} {plain : List Token → Result (Expr × List Token)}
  {depth : Nat} (h : ∀ tokens, counted ⟨tokens, depth⟩ = atDepth depth (plain tokens))
include h

theorem andRest_eq (fuel : Nat) (tokens : List Token) :
    andRest counted fuel ⟨tokens, depth⟩ = atDepth depth (Parser.andRest plain fuel tokens) := by
  induction fuel generalizing tokens with
  | zero => rfl
  | succ fuel ih =>
    by_cases hends : AndEnds tokens
    · rw [andRest_ends _ hends]
      simp only [AndEnds, List.mem_cons, List.not_mem_nil, or_false] at hends
      rcases hends with hends | hends | hends | hends
      all_goals
        simp only [andRest, hends]
        rfl
    rw [andRest_more fuel hends, andRest_open fuel hends]
    dsimp only
    rw [h, atDepth_bind]
    cases plain (((Parser.accept "and" tokens).or (Parser.accept "&&" tokens)).getD tokens) with
    | error message => rfl
    | ok p =>
      simp only [Result.ok_bind, ih, atDepth_bind]
      cases Parser.andRest plain fuel p.2 with
      | error message => rfl
      | ok q => rfl

theorem and_eq (tokens : List Token) :
    and counted ⟨tokens, depth⟩ = atDepth depth (Parser.and plain tokens) := by
  rw [and, Parser.and, h, atDepth_bind]
  cases plain tokens with
  | error message => rfl
  | ok p =>
    simp only [Result.ok_bind, andRest_eq h, atDepth_bind]
    cases Parser.andRest plain p.2.length p.2 with
    | error message => rfl
    | ok q => rfl

theorem orRest_eq (fuel : Nat) (tokens : List Token) :
    orRest counted fuel ⟨tokens, depth⟩ = atDepth depth (Parser.orRest plain fuel tokens) := by
  induction fuel generalizing tokens with
  | zero => rfl
  | succ fuel ih =>
    rw [orRest, Parser.orRest]
    cases (Parser.accept "or" tokens).or (Parser.accept "||" tokens) with
    | none => rfl
    | some after =>
      dsimp only
      rw [and_eq h, atDepth_bind]
      cases Parser.and plain after with
      | error message => rfl
      | ok p =>
        simp only [Result.ok_bind, ih, atDepth_bind]
        cases Parser.orRest plain fuel p.2 with
        | error message => rfl
        | ok q => rfl

theorem or_eq (tokens : List Token) :
    or counted ⟨tokens, depth⟩ = atDepth depth (Parser.or plain tokens) := by
  rw [or, Parser.or, and_eq h, atDepth_bind]
  cases Parser.and plain tokens with
  | error message => rfl
  | ok p =>
    simp only [Result.ok_bind, orRest_eq h, atDepth_bind]
    cases Parser.orRest plain p.2.length p.2 with
    | error message => rfl
    | ok q => rfl

end

/-- The counter and the nesting still allowed add up, and the calls that pass
the check never run out of frames. -/
theorem unary_eq {frames depth : Nat} (hdepth : depth ≤ Parser.maxDepth)
    (hframes : Parser.maxDepth ≤ frames + depth) (tokens : List Token) :
    unary frames ⟨tokens, depth⟩ = atDepth depth (Parser.unary (Parser.maxDepth - depth) tokens) := by
  induction frames generalizing depth tokens with
  | zero =>
    obtain rfl : depth = Parser.maxDepth := by omega
    rfl
  | succ frames ih =>
    by_cases hfull : depth = Parser.maxDepth
    · subst hfull
      rfl
    · obtain ⟨budget, hbudget⟩ : ∃ b, Parser.maxDepth - depth = b + 1 :=
        ⟨Parser.maxDepth - depth - 1, by omega⟩
      have hcall : ∀ tokens, unary frames ⟨tokens, depth + 1⟩ =
          atDepth (depth + 1) (Parser.unary budget tokens) := by
        intro tokens
        rw [ih (by omega) (by omega) tokens, show Parser.maxDepth - (depth + 1) = budget by omega]
      have hcheck : depth + 1 ≤ Parser.maxDepth := by omega
      rw [hbudget, unary, Parser.unary, ensure_of _ hcheck, Result.ok_bind]
      cases (Parser.accept "not" tokens).or (Parser.accept "!" tokens) with
      | some after =>
        dsimp only
        rw [hcall, atDepth_bind]
        cases Parser.unary budget after with
        | error message => rfl
        | ok p => rfl
      | none =>
        cases Parser.accept "(" tokens with
        | some after =>
          dsimp only
          rw [or_eq hcall, atDepth_bind]
          cases Parser.or (Parser.unary budget) after with
          | error message => rfl
          | ok p =>
            simp only [Result.ok_bind]
            cases Parser.expect ")" p.2 with
            | error message => rfl
            | ok after' => rfl
        | none =>
          dsimp only
          cases Parser.predicate tokens with
          | error message => rfl
          | ok p => rfl

theorem parse_eq {frames : Nat} (hframes : Parser.maxDepth ≤ frames) (source : String) :
    parse frames source = Filter.parse source := by
  have hunary : ∀ tokens, unary frames ⟨tokens, 0⟩ = atDepth 0 (Parser.unary Parser.maxDepth tokens) :=
    unary_eq (Nat.zero_le _) hframes
  rw [parse, Filter.parse]
  cases tokenize source with
  | error message => rfl
  | ok tokens =>
    rw [Result.ok_bind, Result.ok_bind, or_eq hunary, atDepth_bind]

end Counted

/-! ## Flat rows -/

/-- An operand may be put before a whole disjunction. -/
theorem Printed.prepend {depth : Nat} {x y : Expr} {left op right : List Lexeme}
    (hx : Printed .and depth x left) (hop : op ∈ andTexts ++ orTexts) (hy : Printed .or depth y right) :
    ∃ z, Printed .or depth z (left ++ (op ++ right)) := by
  rcases List.mem_append.mp hop with hop | hop
  · generalize hlevel : Level.or = level at hy
    induction hy with
    | leaf | not | parens | unary | and => cases hlevel
    | conjunction h => exact ⟨_, .conjunction (.and hop hx h)⟩
    | @or depth y₁ y₂ text op' more hop' _ hz ih _ =>
      obtain ⟨z, hfirst⟩ := ih hx hlevel
      have hsplit : left ++ (op ++ (text ++ (op' ++ more))) = left ++ (op ++ text) ++ (op' ++ more) := by
        simp only [List.append_assoc]
      rw [hsplit]
      exact ⟨_, .or hop' hfirst hz⟩
  · exact ⟨_, .or hop (.conjunction hx) hy⟩

theorem Operands.flat {first : Expr} {rest : List Expr} {text : List Lexeme}
    (h : Operands Leaf (andTexts ++ orTexts) first rest text) : ∃ x, Printed .or 1 x text := by
  induction h with
  | one h => exact ⟨_, .conjunction (.unary (.leaf h))⟩
  | more h hop _ ih =>
    obtain ⟨y, hy⟩ := ih
    exact Printed.prepend (.unary (.leaf h)) hop hy

theorem Printed.deeper {level : Level} {depth : Nat} {x : Expr} {text : List Lexeme}
    (h : Printed level depth x text) (n : Nat) : Printed level (depth + n) x text := by
  induction h with
  | leaf h =>
    rw [Nat.succ_add]
    exact .leaf h
  | not hop _ ih =>
    rw [Nat.succ_add]
    exact .not hop ih
  | parens _ ih =>
    rw [Nat.succ_add]
    exact .parens ih
  | unary _ ih => exact .unary ih
  | and hop _ _ ihx ihy => exact .and hop ihx ihy
  | conjunction _ ih => exact .conjunction ih
  | or hop _ _ ihx ihy => exact .or hop ihx ihy

theorem le_foldr_max {x : Expr} {nodes : List Expr} (h : x ∈ nodes) :
    x.height ≤ (nodes.map Expr.height).foldr max 0 := by
  induction nodes with
  | nil => cases h
  | cons y rest ih =>
    rw [List.map_cons, List.foldr_cons]
    rcases List.mem_cons.mp h with rfl | h
    · exact le_max_left _ _
    · exact (ih h).trans (le_max_right _ _)

/-- Balancing keeps the meaning of a row and adds the logarithm of its length to
the height. So parsed expressions are low, the parser nests at most 128 calls,
and rows of any length are accepted. -/
theorem balanced_bounded :
    (∀ and first rest e latency, (Parser.balanced first rest and).evaluate e latency =
      first.evaluate e latency >>= fun t => leftToRight and e latency t rest) ∧
    (∀ and first rest, (Parser.balanced first rest and).height ≤
      ((first :: rest).map Expr.height).foldr max 0 + Nat.clog 2 (first :: rest).length) ∧
    (∀ source tokens f, tokenize source = .ok tokens → parse source = .ok f →
      f.expression.height ≤ 128 * (1 + 2 * Nat.clog 2 (tokens.length + 1))) ∧
    (∀ frames, 128 ≤ frames → ∀ source, Counted.parse frames source = parse source) ∧
    ∀ first rest text chars, Operands Leaf (andTexts ++ orTexts) first rest text → Spaced text chars →
      ∃ f, parse (String.ofList chars) = .ok f := by
  refine ⟨?_, ?_, ?_, ?_, ?_⟩
  · intro and first rest e latency
    exact evaluate_balanced first rest
  · intro and first rest
    rw [List.length_cons]
    exact height_balanced (le_foldr_max List.mem_cons_self) fun x hx =>
      le_foldr_max (List.mem_cons_of_mem _ hx)
  · intro source tokens f htokens hf
    exact height_parse htokens hf
  · intro frames hframes source
    exact Counted.parse_eq hframes source
  · intro first rest text chars hrow hspaced
    obtain ⟨x, hx⟩ := hrow.flat
    obtain ⟨f, hf, _⟩ := (hx.deeper 127).parses hspaced
    exact ⟨f, hf⟩

end UsbScope.Filter
