import UsbScope.Filter.Meaning
import UsbScope.Filter.Spacing

/-! # Parsing undoes printing

A printed conjunction is a row of operands with operators between them, and so
is a disjunction. The parser reads such a row operand by operand and joins the
results; the tree that it builds need not be the printed one, but it means the
same. -/
namespace UsbScope.Filter
open UsbScope.Lib UsbScope.Common

/-! ## Rows of operands -/

/-- Operands with operators between them. -/
inductive Operands (P : Expr → List Lexeme → Prop) (ops : List (List Lexeme)) :
    Expr → List Expr → List Lexeme → Prop where
  | one {x : Expr} {text : List Lexeme} (h : P x text) : Operands P ops x [] text
  | more {x y : Expr} {ys : List Expr} {text op rest : List Lexeme} (h : P x text) (hop : op ∈ ops)
      (hrest : Operands P ops y ys rest) : Operands P ops x (y :: ys) (text ++ (op ++ rest))

section

variable {P : Expr → List Lexeme → Prop} {ops : List (List Lexeme)}

theorem Operands.append {x y : Expr} {xs ys : List Expr} {left op right : List Lexeme}
    (hx : Operands P ops x xs left) (hop : op ∈ ops) (hy : Operands P ops y ys right) :
    Operands P ops x (xs ++ y :: ys) (left ++ (op ++ right)) := by
  induction hx with
  | one h => exact .more h hop hy
  | more h hop' _ ih =>
    rw [List.append_assoc, List.append_assoc]
    exact .more h hop' ih

theorem Operands.head {x : Expr} {xs : List Expr} {text : List Lexeme} (h : Operands P ops x xs text) :
    ∃ first rest, text = first ++ rest ∧ P x first := by
  cases h with
  | one h => exact ⟨text, [], (List.append_nil text).symm, h⟩
  | more h hop hrest => exact ⟨_, _, rfl, h⟩

/-- Rows that are put together mean the connective of their meanings. -/
theorem same_chain_append {and : Bool} {x y x' y' : Expr} {xs ys : List Expr}
    (hx : (chain and x xs).Same x') (hy : (chain and y ys).Same y') :
    (chain and x (xs ++ y :: ys)).Same (join and x' y') := by
  have hsplit : chain and x (xs ++ y :: ys) = chain and (join and (chain and x xs) y) ys := by
    rw [chain, List.foldl_append]
    rfl
  rw [hsplit]
  exact (chain_join _ _ _).trans (same_join hx hy)

theorem Printed.conjuncts {depth : Nat} {x : Expr} {text : List Lexeme}
    (h : Printed .and depth x text) : ∃ first rest,
      Operands (Printed .unary depth) andTexts first rest text ∧ (chain true first rest).Same x := by
  generalize hlevel : Level.and = level at h
  induction h with
  | leaf | not | parens | conjunction | or => cases hlevel
  | unary h => exact ⟨_, [], .one h, Expr.Same.refl _⟩
  | and hop hx hy ihx ihy =>
    obtain ⟨first, rest, hleft, hsame⟩ := ihx hlevel
    obtain ⟨first', rest', hright, hsame'⟩ := ihy hlevel
    exact ⟨first, _, hleft.append hop hright, same_chain_append hsame hsame'⟩

theorem Printed.disjuncts {depth : Nat} {x : Expr} {text : List Lexeme}
    (h : Printed .or depth x text) : ∃ first rest,
      Operands (Printed .and depth) orTexts first rest text ∧ (chain false first rest).Same x := by
  generalize hlevel : Level.or = level at h
  induction h with
  | leaf | not | parens | unary | and => cases hlevel
  | conjunction h => exact ⟨_, [], .one h, Expr.Same.refl _⟩
  | or hop hx hy ihx ihy =>
    obtain ⟨first, rest, hleft, hsame⟩ := ihx hlevel
    obtain ⟨first', rest', hright, hsame'⟩ := ihy hlevel
    exact ⟨first, _, hleft.append hop hright, same_chain_append hsame hsame'⟩

theorem same_chain_all {and : Bool} {x y : Expr} {xs ys : List Expr} (h : x.Same y)
    (hall : List.Forall₂ Expr.Same xs ys) : (chain and x xs).Same (chain and y ys) := by
  induction hall generalizing x y with
  | nil => exact h
  | cons hhead _ ih => exact ih (same_join h hhead)

/-! ## Loops over operands -/

/-- What may follow an operand: the end of the row, or the next operator. -/
def Follows (ops : List (List Lexeme)) (ends : List Token → Prop) (rest : List Token) : Prop :=
  ends rest ∨ ∃ op ∈ ops, ∃ more, rest = op.map Lexeme.token ++ more

/-- `parse` reads what is printed as `x`, where `follows` allows the rest. -/
def Reads (parse : List Token → Result (Expr × List Token)) (follows : List Token → Prop) (x : Expr)
    (text : List Lexeme) : Prop :=
  ∀ rest, follows rest →
    ∃ y, parse (text.map Lexeme.token ++ rest) = .ok (y, rest) ∧ y.Same x

/-- A loop of the parser that takes one operator and one operand each round,
until the row ends. -/
structure OperandLoop (P : Expr → List Lexeme → Prop) (ops : List (List Lexeme))
    (operand : List Token → Result (Expr × List Token))
    (loop : Nat → List Token → Result (List Expr × List Token)) (ends : List Token → Prop) : Prop where
  nonempty {x : Expr} {text : List Lexeme} (h : P x text) : text ≠ []
  reads {x : Expr} {text : List Lexeme} (h : P x text) : Reads operand (Follows ops ends) x text
  stop {rest : List Token} (fuel : Nat) (h : ends rest) : loop fuel rest = .ok ([], rest)
  round {op text : List Lexeme} {x : Expr} (fuel : Nat) (rest : List Token) (hop : op ∈ ops) (h : P x text) :
    loop (fuel + 1) (op.map Lexeme.token ++ (text.map Lexeme.token ++ rest)) = (do
      let (node, tokens) ← operand (text.map Lexeme.token ++ rest)
      let (nodes, tokens) ← loop fuel tokens
      .ok (node :: nodes, tokens))

variable {operand : List Token → Result (Expr × List Token)}
  {loop : Nat → List Token → Result (List Expr × List Token)} {ends : List Token → Prop}

/-- The first operand is read, and the loop reads the others. -/
theorem OperandLoop.operands (hloop : OperandLoop P ops operand loop ends) {x : Expr} {xs : List Expr}
    {text : List Lexeme} (h : Operands P ops x xs text) {rest : List Token} (hrest : ends rest) :
    ∃ y ys tokens, operand (text.map Lexeme.token ++ rest) = .ok (y, tokens) ∧
      tokens.length < (text.map Lexeme.token ++ rest).length ∧
      (∀ fuel, tokens.length ≤ fuel → loop fuel tokens = .ok (ys, rest)) ∧
      y.Same x ∧ List.Forall₂ Expr.Same ys xs := by
  induction h with
  | @one x text h =>
    obtain ⟨y, hread, hsame⟩ := hloop.reads h rest (.inl hrest)
    have hlen := List.length_pos_of_ne_nil (hloop.nonempty h)
    refine ⟨y, [], rest, hread, ?_, fun fuel _ => hloop.stop fuel hrest, hsame, .nil⟩
    rw [List.length_append, List.length_map]
    omega
  | @more x y ys text op more h hop hmore ih =>
    obtain ⟨node, nodes, tokens, hnode, hless, hnodes, hsame, hall⟩ := ih
    have hsplit : (text ++ (op ++ more)).map Lexeme.token ++ rest = text.map Lexeme.token ++
        (op.map Lexeme.token ++ (more.map Lexeme.token ++ rest)) := by
      simp only [List.map_append, List.append_assoc]
    obtain ⟨first, hread, hfirst⟩ := hloop.reads h _ (.inr ⟨op, hop, _, rfl⟩)
    have hlen := List.length_pos_of_ne_nil (hloop.nonempty h)
    rw [hsplit]
    refine ⟨first, node :: nodes, _, hread, ?_, ?_, hfirst, .cons hsame hall⟩
    · simp only [List.length_append, List.length_map]
      omega
    · intro fuel hfuel
      -- the next operand is not empty either, so there is fuel for this round
      rw [List.length_append] at hfuel
      obtain ⟨fuel, rfl⟩ : ∃ n, fuel = n + 1 := ⟨fuel - 1, by omega⟩
      obtain ⟨next, tail, rfl, hnext⟩ := hmore.head
      rw [List.map_append, List.append_assoc] at hnode ⊢
      have hrest := hnodes fuel (by omega)
      simp only [hloop.round fuel _ hop hnext, hnode, Result.ok_bind, hrest]

end

/-! ## The grammar -/

/-- What ends a conjunction. -/
def AndEnds (rest : List Token) : Prop := Parser.peek rest ∈ [none, some ")", some "or", some "||"]

/-- What ends a disjunction. -/
def OrEnds (rest : List Token) : Prop := Parser.peek rest ∈ [none, some ")"]

theorem OrEnds.andEnds {rest : List Token} (h : OrEnds rest) : AndEnds rest := by
  simp only [OrEnds, AndEnds, List.mem_cons] at h ⊢
  tauto

theorem openings_text : ∀ l ∈ openings, l.token.text ∉ [")", "or", "||", "and", "&&"] := by
  decide

section

variable {unary : List Token → Result (Expr × List Token)} {depth : Nat}

theorem andRest_ends {rest : List Token} (fuel : Nat) (h : AndEnds rest) :
    Parser.andRest unary fuel rest = .ok ([], rest) := by
  cases fuel with
  | zero => rfl
  | succ fuel =>
    simp only [AndEnds, List.mem_cons, List.not_mem_nil, or_false] at h
    rcases h with h | h | h | h
    all_goals simp only [Parser.andRest, h]

theorem accept_of_peek {text : String} {rest : List Token} (h : Parser.peek rest ≠ some text) :
    Parser.accept text rest = none := by
  cases rest with
  | nil => rfl
  | cons token rest =>
    refine Parser.accept_of_ne ?_ rest
    rintro rfl
    exact h rfl

theorem orRest_ends {rest : List Token} (fuel : Nat) (h : OrEnds rest) :
    Parser.orRest unary fuel rest = .ok ([], rest) := by
  cases fuel with
  | zero => rfl
  | succ fuel =>
    simp only [OrEnds, List.mem_cons, List.not_mem_nil, or_false] at h
    have hor : Parser.peek rest ≠ some "or" := by rcases h with h | h <;> rw [h] <;> decide
    have hsign : Parser.peek rest ≠ some "||" := by rcases h with h | h <;> rw [h] <;> decide
    rw [Parser.orRest, accept_of_peek hor, accept_of_peek hsign]
    rfl

theorem andRest_more {tokens : List Token} (fuel : Nat) (h : ¬ AndEnds tokens) :
    Parser.andRest unary (fuel + 1) tokens = (do
      let (node, tokens) ← unary
        (((Parser.accept "and" tokens).or (Parser.accept "&&" tokens)).getD tokens)
      let (nodes, tokens) ← Parser.andRest unary fuel tokens
      .ok (node :: nodes, tokens)) := by
  rw [Parser.andRest]
  split
  · rename_i hpeek
    exact absurd (by simp [AndEnds, hpeek]) h
  · rename_i hpeek
    exact absurd (by simp [AndEnds, hpeek]) h
  · rename_i hpeek
    exact absurd (by simp [AndEnds, hpeek]) h
  · rename_i hpeek
    exact absurd (by simp [AndEnds, hpeek]) h
  · rfl

/-- A conjunction goes on at an operator or at the next operand. -/
theorem andRest_round {level : Level} {x : Expr} {op text : List Lexeme} (fuel : Nat)
    (rest : List Token) (hop : op ∈ andTexts) (h : Printed level depth x text) :
    Parser.andRest unary (fuel + 1) (op.map Lexeme.token ++ (text.map Lexeme.token ++ rest)) = (do
      let (node, tokens) ← unary (text.map Lexeme.token ++ rest)
      let (nodes, tokens) ← Parser.andRest unary fuel tokens
      .ok (node :: nodes, tokens)) := by
  obtain ⟨l, hl, more, rfl⟩ := h.head
  have htext := openings_text l hl
  simp only [andTexts, List.mem_cons, List.not_mem_nil, or_false] at hop htext
  have hends : ∀ t : Token, t.text ∉ [")", "or", "||"] → ∀ tokens, ¬ AndEnds (t :: tokens) := by
    intro t ht tokens hends
    simp only [AndEnds, Parser.peek, List.head?_cons, Option.map_some, List.mem_cons, reduceCtorEq,
      Option.some.injEq, List.not_mem_nil, or_false, false_or] at hends ht
    exact ht hends
  rcases hop with rfl | rfl | rfl
  · simp only [List.map_cons, List.map_nil, token_name, List.cons_append, List.nil_append]
    rw [andRest_more fuel (hends _ (by decide) _), Parser.accept_self]
    rfl
  · have hand : ∀ tokens, Parser.accept "and" (⟨"&&", false⟩ :: tokens) = none :=
      Parser.accept_of_ne (by decide)
    simp only [List.map_cons, List.map_nil, token_sign, List.cons_append, List.nil_append]
    rw [andRest_more fuel (hends _ (by decide) _), hand, Parser.accept_self]
    rfl
  · have hand : l.token.text ≠ "and" := by tauto
    have hsign : l.token.text ≠ "&&" := by tauto
    rw [List.map_nil, List.nil_append, List.map_cons, List.cons_append,
      andRest_more fuel (hends _ (by simp; tauto) _), Parser.accept_of_ne hand, Parser.accept_of_ne hsign]
    rfl

theorem orRest_round {op text : List Lexeme} (fuel : Nat) (rest : List Token) (hop : op ∈ orTexts) :
    Parser.orRest unary (fuel + 1) (op.map Lexeme.token ++ (text.map Lexeme.token ++ rest)) = (do
      let (node, tokens) ← Parser.and unary (text.map Lexeme.token ++ rest)
      let (nodes, tokens) ← Parser.orRest unary fuel tokens
      .ok (node :: nodes, tokens)) := by
  simp only [orTexts, List.mem_cons, List.not_mem_nil, or_false] at hop
  rcases hop with rfl | rfl
  · simp only [List.map_cons, List.map_nil, token_name, List.cons_append, List.nil_append]
    rw [Parser.orRest, Parser.accept_self]
    rfl
  · have hor : ∀ tokens, Parser.accept "or" (⟨"||", false⟩ :: tokens) = none :=
      Parser.accept_of_ne (by decide)
    simp only [List.map_cons, List.map_nil, token_sign, List.cons_append, List.nil_append]
    rw [Parser.orRest, hor, Parser.accept_self]
    rfl

theorem andLoop (hunary : ∀ x text, Printed .unary depth x text → ∀ follows, Reads unary follows x text) :
    OperandLoop (Printed .unary depth) andTexts unary (Parser.andRest unary) AndEnds where
  nonempty h := h.ne_nil
  reads h := hunary _ _ h _
  stop fuel h := andRest_ends fuel h
  round fuel rest hop h := andRest_round fuel rest hop h

/-- A printed conjunction is read up to what ends it. -/
theorem and_reads
    (hunary : ∀ x text, Printed .unary depth x text → ∀ follows, Reads unary follows x text) {x : Expr}
    {text : List Lexeme} (h : Printed .and depth x text) : Reads (Parser.and unary) AndEnds x text := by
  intro rest hrest
  obtain ⟨first, more, hrow, hsame⟩ := h.conjuncts
  obtain ⟨y, ys, tokens, hnode, _, hnodes, hfirst, hall⟩ := (andLoop hunary).operands hrow hrest
  refine ⟨Parser.balanced y ys true, ?_, ?_⟩
  · simp only [Parser.and, hnode, Result.ok_bind, hnodes tokens.length le_rfl]
  · exact ((same_balanced y ys).trans (same_chain_all hfirst hall)).trans hsame

theorem orLoop (hunary : ∀ x text, Printed .unary depth x text → ∀ follows, Reads unary follows x text) :
    OperandLoop (Printed .and depth) orTexts (Parser.and unary) (Parser.orRest unary) OrEnds where
  nonempty h := h.ne_nil
  reads h := by
    intro rest hrest
    refine and_reads hunary h rest ?_
    rcases hrest with hrest | ⟨op, hop, more, rfl⟩
    · exact hrest.andEnds
    · simp only [orTexts, List.mem_cons, List.not_mem_nil, or_false] at hop
      rcases hop with rfl | rfl <;> simp [AndEnds, Parser.peek]
  stop fuel h := orRest_ends fuel h
  round fuel rest hop h := orRest_round fuel rest hop

/-- A printed disjunction is read up to what ends it. -/
theorem or_reads
    (hunary : ∀ x text, Printed .unary depth x text → ∀ follows, Reads unary follows x text) {x : Expr}
    {text : List Lexeme} (h : Printed .or depth x text) : Reads (Parser.or unary) OrEnds x text := by
  intro rest hrest
  obtain ⟨first, more, hrow, hsame⟩ := h.disjuncts
  obtain ⟨y, ys, tokens, hnode, _, hnodes, hfirst, hall⟩ := (orLoop hunary).operands hrow hrest
  refine ⟨Parser.balanced y ys false, ?_, ?_⟩
  · simp only [Parser.or, hnode, Result.ok_bind, hnodes tokens.length le_rfl]
  · exact ((same_balanced y ys).trans (same_chain_all hfirst hall)).trans hsame

end

/-- The parser reads every operand that is nested no deeper than it allows. -/
theorem unary_reads (depth : Nat) : ∀ x text, Printed .unary depth x text →
    ∀ follows, Reads (Parser.unary depth) follows x text := by
  induction depth with
  | zero =>
    intro x text h
    cases h
  | succ depth ih =>
    intro x text h follows rest _
    cases h with
    | leaf h =>
      have hread := h.predicate rest
      obtain ⟨lead, hlead, more, rfl⟩ := h.head
      have hall : ∀ lead ∈ leadNames, lead ≠ "not" ∧ lead ≠ "!" ∧ lead ≠ "(" := by decide
      obtain ⟨hnot, hsign, hopen⟩ := hall lead hlead
      rw [List.map_cons, token_name, List.cons_append] at hread ⊢
      refine ⟨x, ?_, Expr.Same.refl x⟩
      rw [Parser.unary, Parser.accept_of_ne hnot, Parser.accept_of_ne hsign, Parser.accept_of_ne hopen]
      exact hread
    | @not _ x op text hop h =>
      obtain ⟨y, hread, hsame⟩ := ih x text h (fun _ => True) rest trivial
      refine ⟨.not y, ?_, hsame.not⟩
      have htake : (Parser.accept "not" ((op ++ text).map Lexeme.token ++ rest)).or
          (Parser.accept "!" ((op ++ text).map Lexeme.token ++ rest)) =
          some (text.map Lexeme.token ++ rest) := by
        simp only [notTexts, List.mem_cons, List.not_mem_nil, or_false] at hop
        rcases hop with rfl | rfl
        · simp only [List.cons_append, List.nil_append, List.map_cons, token_name, Parser.accept_self,
            Option.some_or]
        · have hnot : ∀ tokens, Parser.accept "not" (⟨"!", false⟩ :: tokens) = none :=
            Parser.accept_of_ne (by decide)
          simp only [List.cons_append, List.nil_append, List.map_cons, token_sign, hnot,
            Parser.accept_self, Option.none_or]
      simp only [Parser.unary, htake, hread, Result.ok_bind]
    | @parens _ x text h =>
      obtain ⟨y, hread, hsame⟩ := or_reads ih h (⟨")", false⟩ :: rest) (by simp [OrEnds, Parser.peek])
      refine ⟨y, ?_, hsame⟩
      have hnot : ∀ tokens, Parser.accept "not" (⟨"(", false⟩ :: tokens) = none :=
        Parser.accept_of_ne (by decide)
      have hsign : ∀ tokens, Parser.accept "!" (⟨"(", false⟩ :: tokens) = none :=
        Parser.accept_of_ne (by decide)
      simp only [List.cons_append, List.map_cons, List.map_append, List.map_nil, token_sign,
        List.append_assoc, List.nil_append, Parser.unary, hnot, hsign, Option.none_or,
        Parser.accept_self, hread, Result.ok_bind, Parser.expect, context_some]

/-! ## Filters -/

theorem Printed.parses {x : Expr} {ls : List Lexeme} {chars : List Char}
    (h : Printed .or Parser.maxDepth x ls) (hspaced : Spaced ls chars) :
    ∃ f, parse (String.ofList chars) = .ok f ∧ f.expression.Same x := by
  have htokens : tokenize (String.ofList chars) = .ok (ls.map Lexeme.token) := by
    rw [tokenize, String.toList_ofList]
    exact hspaced.lexes h.sound.valid h.sound.fits _ le_rfl
  obtain ⟨y, hread, hsame⟩ := or_reads (unary_reads Parser.maxDepth) h [] (by simp [OrEnds, Parser.peek])
  rw [List.append_nil] at hread
  have hne : (ls.map Lexeme.token).isEmpty = false := by simpa using h.ne_nil
  refine ⟨⟨y⟩, ?_, hsame⟩
  rw [parse, htokens, Result.ok_bind, hne]
  simp only [Bool.false_eq_true, if_false, hread, Result.ok_bind]
  rfl

/-- Every written form of an expression is accepted, and the filter gives the
expression's truth value on every event and latency. -/
theorem parse_printed {x : Expr} {ls : List Lexeme} {chars : List Char}
    (h : Printed .or Parser.maxDepth x ls) (hspaced : Spaced ls chars) :
    ∃ f, parse (String.ofList chars) = .ok f ∧
      (∀ e latency, f.expression.evaluate e latency = x.evaluate e latency) ∧
      ∀ e latency, f.isMatch e latency = Filter.isMatch ⟨x⟩ e latency := by
  obtain ⟨f, hf, hsame⟩ := h.parses hspaced
  refine ⟨f, hf, hsame, ?_⟩
  intro e latency
  rw [Filter.isMatch, Filter.isMatch, hsame e latency]

theorem parse_printed_juxtaposed : ∃ f, parse "!in bulk||latency >= 5us" = .ok f ∧
    (∀ e latency, f.expression.evaluate e latency = (Expr.or
      (.and (.not (.predicate ⟨.direction, none, .eq, 1⟩)) (.predicate ⟨.transfer, none, .eq, 3⟩))
      (.predicate ⟨.latency, none, .ge, 5000⟩)).evaluate e latency) ∧
    ∀ e latency, f.isMatch e latency = Filter.isMatch ⟨.or
      (.and (.not (.predicate ⟨.direction, none, .eq, 1⟩)) (.predicate ⟨.transfer, none, .eq, 3⟩))
      (.predicate ⟨.latency, none, .ge, 5000⟩)⟩ e latency := by
  have hfive : (Numeral.decimal false [5]).InRange := ⟨by decide, by decide, by decide⟩
  have hus : ("us", (1000 : Int)) ∈ durationUnits := by decide
  have hin : Printed .unary 127 (.predicate ⟨.direction, none, .eq, 1⟩) [name "in"] :=
    .leaf (.shorthand (by decide))
  have hbulk : Printed .unary 128 (.predicate ⟨.transfer, none, .eq, 3⟩) [name "bulk"] :=
    .leaf (.shorthand (by decide))
  have hlatency : Printed .unary 128 (.predicate ⟨.latency, none, .ge, 5000⟩)
      [name "latency", sign ">=", .word "5us".toList] :=
    .leaf (.condition (.named (by decide)) .absent (.written (by decide)) (.duration hfive hus))
  have hnot : [sign "!"] ∈ notTexts := by decide
  have hand : [] ∈ andTexts := by decide
  have hor : [sign "||"] ∈ orTexts := by decide
  have hprinted := Printed.or hor (.conjunction (.and hand (.unary (.not hnot hin)) (.unary hbulk)))
    (.conjunction (.unary hlatency))
  have hblank : Blank [] := by simp [Blank]
  have hspace : Blank [' '] := by simp [Blank, isWhitespace]
  have hsign : ∀ text : String, (sign text).isWord = true → False := by simp [sign, Lexeme.isWord]
  have hvalue : Spaced [.word "5us".toList] " 5us".toList :=
    .lexeme hspace (.done hblank) (by simp)
  have hge : Spaced [sign ">=", .word "5us".toList] " >= 5us".toList :=
    .lexeme hspace hvalue (fun h => (hsign _ h).elim)
  have hname : Spaced [name "latency", sign ">=", .word "5us".toList] "latency >= 5us".toList :=
    .lexeme hblank hge (fun _ next hnext hword => by cases hnext; exact (hsign _ hword).elim)
  have hor' : Spaced [sign "||", name "latency", sign ">=", .word "5us".toList]
      "||latency >= 5us".toList := .lexeme hblank hname (fun h => (hsign _ h).elim)
  have hbulks : Spaced [name "bulk", sign "||", name "latency", sign ">=", .word "5us".toList]
      " bulk||latency >= 5us".toList :=
    .lexeme hspace hor' (fun _ next hnext hword => by cases hnext; exact (hsign _ hword).elim)
  have hin' : Spaced [name "in", name "bulk", sign "||", name "latency", sign ">=", .word "5us".toList]
      "in bulk||latency >= 5us".toList := .lexeme hblank hbulks (fun _ _ _ _ => ⟨' ', rfl, by decide⟩)
  have hspaced : Spaced [sign "!", name "in", name "bulk", sign "||", name "latency", sign ">=",
      .word "5us".toList] "!in bulk||latency >= 5us".toList :=
    .lexeme hblank hin' (fun h => (hsign _ h).elim)
  have hparse := parse_printed hprinted hspaced
  rwa [String.ofList_toList] at hparse

end UsbScope.Filter
