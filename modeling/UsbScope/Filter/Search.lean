import UsbScope.Capture.Storage
import UsbScope.Filter.Parse
import UsbScope.Filter.Refine

/-! # Evaluation does not fail

The search keeps its match inside the needle and the prefix table, and reads
only declared ranges. The parser accepts no empty needle. So a filter can be
evaluated on every event whose payload is as long as declared. -/
namespace UsbScope
open UsbScope.Lib UsbScope.Common UsbScope.Capture
namespace Filter

/-! ## The search -/

/-- No entry of a prefix table exceeds its index. -/
def Bounded (table : List Nat) : Prop := ∀ i v : Nat, table[i]? = some v → v ≤ i

theorem indexAt_ok {α : Type} (xs : List α) {i : Nat} (h : i < xs.length) :
    ∃ x, xs[i]? = some x ∧ indexAt xs i = .ok x := by
  refine ⟨xs[i], List.getElem?_eq_getElem h, ?_⟩
  rw [indexAt, List.getElem?_eq_getElem h, context_some]

section
variable {needle : Bytes} {table : List Nat} (htable : Bounded table)
include htable

/-- Each turn of the inner loop shortens the match. -/
theorem fallBack_ok (byte : UInt8) {fuel matched : Nat} (hfuel : matched ≤ fuel)
    (hneedle : matched < needle.length) (hlen : matched ≤ table.length) :
    ∃ n, fallBack needle table byte fuel matched = .ok n ∧ n ≤ matched := by
  induction fuel generalizing matched with
  | zero =>
    obtain rfl : matched = 0 := by omega
    exact ⟨0, rfl, le_rfl⟩
  | succ fuel ih =>
    rw [fallBack]
    by_cases hzero : matched = 0
    · exact ⟨0, if_pos hzero, by omega⟩
    · obtain ⟨expected, _, hexpected⟩ := indexAt_ok needle hneedle
      obtain ⟨shorter, hget, hshorter⟩ := indexAt_ok table (i := matched - 1) (by omega)
      have hle := htable _ _ hget
      rw [if_neg hzero, hexpected, Result.ok_bind]
      split
      · rw [hshorter, Result.ok_bind]
        obtain ⟨n, hn, hnle⟩ := @ih shorter (by omega) (by omega) (by omega)
        exact ⟨n, hn, by omega⟩
      · exact ⟨matched, rfl, le_rfl⟩

theorem extend_ok (byte : UInt8) {matched : Nat} (hneedle : matched < needle.length)
    (hlen : matched ≤ table.length) :
    ∃ n, extend needle table matched byte = .ok n ∧ n ≤ matched + 1 := by
  obtain ⟨n, hn, hle⟩ := fallBack_ok htable byte le_rfl hneedle hlen
  obtain ⟨expected, _, hexpected⟩ := indexAt_ok needle (i := n) (by omega)
  rw [extend, hn, Result.ok_bind, hexpected, Result.ok_bind]
  split
  · exact ⟨n + 1, rfl, by omega⟩
  · exact ⟨n, rfl, by omega⟩

theorem prefixFrom_ok {rest : Bytes} {matched : Nat} (hmatched : matched < table.length)
    (hlen : table.length + rest.length = needle.length) :
    ∃ t, prefixFrom needle rest table matched = .ok t ∧ Bounded t ∧ t.length = needle.length := by
  induction rest generalizing table matched with
  | nil => exact ⟨table, rfl, htable, by simpa using hlen⟩
  | cons byte rest ih =>
    rw [List.length_cons] at hlen
    have hneedle : matched < needle.length := by omega
    obtain ⟨n, hn, hle⟩ := extend_ok htable byte hneedle hmatched.le
    have hbounded : Bounded (table ++ [n]) := by
      intro i v hv
      rcases Nat.lt_or_ge i table.length with hi | hi
      · rw [List.getElem?_append_left hi] at hv
        exact htable i v hv
      · rw [List.getElem?_append_right hi] at hv
        obtain ⟨_, hv⟩ := List.getElem?_eq_some_iff.mp hv
        rw [List.getElem_singleton] at hv
        omega
    rw [prefixFrom, hn, Result.ok_bind]
    refine ih hbounded ?_ ?_
    · rw [List.length_append, List.length_singleton]
      omega
    · rw [List.length_append, List.length_singleton]
      omega

end

theorem prefixTable_ok {needle : Bytes} (h : needle ≠ []) :
    ∃ table, prefixTable needle = .ok table ∧ Bounded table ∧ table.length = needle.length := by
  obtain ⟨first, rest, rfl⟩ := List.exists_cons_of_ne_nil h
  refine prefixFrom_ok (fun i v hv => ?_) (by decide) (by simp [Nat.add_comm])
  cases i with
  | zero =>
    cases hv
    exact le_rfl
  | succ i => simp at hv

section
variable {payload needle : Bytes} {table : List Nat} (htable : Bounded table)
  (hlen : table.length = needle.length)
include htable hlen

theorem scanBuffer_ok (buffer : Bytes) {matched : Nat} (hmatched : matched < needle.length) :
    ∃ r, scanBuffer needle table matched buffer = .ok r ∧ ∀ n, r = some n → n < needle.length := by
  induction buffer generalizing matched with
  | nil => exact ⟨_, rfl, fun n hn => by cases hn; exact hmatched⟩
  | cons byte rest ih =>
    obtain ⟨n, hn, hle⟩ := extend_ok htable byte hmatched (by omega)
    rw [scanBuffer, hn, Result.ok_bind]
    split
    · exact ⟨none, rfl, nofun⟩
    · exact ih (by omega)

theorem scanRange_ok (fuel : Nat) {pos length matched : Nat} (hmatched : matched < needle.length)
    (hrange : length = 0 ∨ pos + length ≤ payload.length) :
    ∃ found, scanRange payload needle table fuel pos length matched = .ok found := by
  induction fuel generalizing pos length matched with
  | zero => exact ⟨false, rfl⟩
  | succ fuel ih =>
    rw [scanRange]
    by_cases hzero : length = 0
    · exact ⟨false, if_pos hzero⟩
    · have hread : readExact payload pos (min length bufferSize) =
          .ok ((payload.drop pos).take (min length bufferSize)) := by
        rw [readExact, Spool.readAt_eq_some (by omega), context_some]
      obtain ⟨r, hr, hbound⟩ := scanBuffer_ok htable hlen
        ((payload.drop pos).take (min length bufferSize)) hmatched
      rw [if_neg hzero]
      dsimp only
      rw [hread, Result.ok_bind, hr, Result.ok_bind]
      cases r with
      | none => exact ⟨true, rfl⟩
      | some n => exact ih (hbound n rfl) (by omega)

theorem scanRanges_ok (hneedle : needle ≠ []) {ranges : List (Nat × Nat)}
    (hranges : ∀ x ∈ ranges, x.2 = 0 ∨ x.1 + x.2 ≤ payload.length) :
    ∃ found, scanRanges payload needle table ranges = .ok found := by
  induction ranges with
  | nil => exact ⟨false, rfl⟩
  | cons x rest ih =>
    obtain ⟨found, hfound⟩ := scanRange_ok htable hlen (x.2 / bufferSize + 1)
      (List.length_pos_iff.mpr hneedle) (hranges x List.mem_cons_self)
    rw [scanRanges, hfound, Result.ok_bind]
    cases found with
    | true => exact ⟨true, rfl⟩
    | false => exact ih fun y hy => hranges y (List.mem_cons_of_mem _ hy)

end

/-! ## Evaluation -/

theorem contains_ok {e : Event} {needle : Bytes} (h : Readable e) (hdata : e.metadata.hasData ≠ 0)
    (hneedle : needle ≠ []) : ∃ found, contains e needle = .ok found := by
  obtain ⟨table, htable, hbounded, hlen⟩ := prefixTable_ok hneedle
  rw [contains, htable, Result.ok_bind]
  refine scanRanges_ok hbounded hlen hneedle fun x hx => ?_
  split at hx
  · obtain ⟨d, hd, rfl⟩ := List.mem_map.mp hx
    by_cases hzero : d.length = 0
    · left
      rw [hzero]
      rfl
    · right
      rw [h.length]
      exact h.inside hdata d hd hzero
  · obtain rfl := List.mem_singleton.mp hx
    right
    rw [h.length]
    omega

theorem payloadValue_ok {e : Event} (h : Readable e) (offset : UInt64) (size : UInt8) :
    ∃ v, payloadValue e offset size = .ok v := by
  unfold payloadValue
  dsimp only
  split
  · exact ⟨none, rfl⟩
  · split
    · exact ⟨none, rfl⟩
    · rename_i hshort
      split
      · exact ⟨none, rfl⟩
      · have hle : offset.toNat + size.toNat ≤ e.payload.length := by
          rw [h.length]
          omega
        rw [readExact, Spool.readAt_eq_some hle, context_some, Result.ok_bind]
        exact ⟨_, rfl⟩

theorem value_ok {e : Event} (h : Readable e) (field : Field) (latency : Option UInt64) :
    ∃ v, value field e latency = .ok v := by
  unfold value
  split
  · exact ⟨none, rfl⟩
  · cases field with
    | payload offset size => exact payloadValue_ok h offset size
    | actual =>
      dsimp only
      split
      · exact ⟨_, rfl⟩
      · exact ⟨_, rfl⟩
    | _ => exact ⟨_, rfl⟩

/-- No search for nothing. -/
def Expr.Searchable (x : Expr) : Prop := ∀ needle, Expr.contains needle ∈ x.leaves → needle ≠ []

theorem Expr.leaf_cases {x y : Expr} (h : y ∈ x.leaves) :
    y = .all ∨ (∃ p, y = .predicate p) ∨ ∃ needle, y = .contains needle := by
  induction x with
  | all => exact .inl (List.mem_singleton.mp h)
  | predicate p => exact .inr (.inl ⟨p, List.mem_singleton.mp h⟩)
  | contains needle => exact .inr (.inr ⟨needle, List.mem_singleton.mp h⟩)
  | not inner ih => exact ih h
  | and a b iha ihb => exact (List.mem_append.mp h).elim iha ihb
  | or a b iha ihb => exact (List.mem_append.mp h).elim iha ihb

theorem evaluate_ok {e : Event} (h : Readable e) {x : Expr} (hx : x.Searchable)
    (latency : Option UInt64) : ∃ t, x.evaluate e latency = .ok t := by
  refine Expr.evaluate_of_leaves fun y hy => ?_
  rcases Expr.leaf_cases hy with rfl | ⟨p, rfl⟩ | ⟨needle, rfl⟩
  · exact ⟨.true, rfl⟩
  · obtain ⟨v, hv⟩ := value_ok h p.field latency
    rw [Expr.evaluate, Predicate.evaluate, hv, Result.ok_bind]
    cases v <;> exact ⟨_, rfl⟩
  · rw [Expr.evaluate]
    split
    · exact ⟨.unknown, rfl⟩
    · rename_i hdata
      obtain ⟨found, hfound⟩ := contains_ok h hdata (hx needle hy)
      rw [hfound]
      exact ⟨_, rfl⟩

/-! ## What the parser builds -/

section
variable {P : Expr → Prop}

theorem pairUp_rule {and : Bool} (hjoin : ∀ a b, P a → P b → P (if and then .and a b else .or a b))
    {first : Expr} {rest : List Expr} (hfirst : P first) (hrest : ∀ x ∈ rest, P x) :
    P (Parser.pairUp and first rest).1 ∧ ∀ x ∈ (Parser.pairUp and first rest).2, P x := by
  fun_induction Parser.pairUp and first rest with
  | case1 a => exact ⟨hfirst, hrest⟩
  | case2 a b => exact ⟨hjoin a b hfirst (hrest b List.mem_cons_self), by simp⟩
  | case3 a b c rest first' more heq ih =>
    rw [heq] at ih
    have hb := hrest b List.mem_cons_self
    have hc := hrest c (List.mem_cons_of_mem _ List.mem_cons_self)
    obtain ⟨hnext, hmore⟩ := ih hc fun x hx =>
      hrest x (List.mem_cons_of_mem _ (List.mem_cons_of_mem _ hx))
    exact ⟨hjoin a b hfirst hb, List.forall_mem_cons.mpr ⟨hnext, hmore⟩⟩

theorem balanced_rule {and : Bool}
    (hjoin : ∀ a b, P a → P b → P (if and then .and a b else .or a b))
    {first : Expr} {rest : List Expr} (hfirst : P first) (hrest : ∀ x ∈ rest, P x) :
    P (Parser.balanced first rest and) := by
  unfold Parser.balanced
  generalize rest.length = fuel
  induction fuel generalizing first rest with
  | zero => exact hfirst
  | succ fuel ih =>
    rw [Parser.balanceLoop]
    split
    · exact hfirst
    · obtain ⟨hnext, hmore⟩ := pairUp_rule hjoin hfirst hrest
      exact ih hnext hmore

/-- Every expression that a parser returns has the property. -/
def Yields (P : Expr → Prop) (parser : List Token → Result (Expr × List Token)) : Prop :=
  ∀ tokens x rest, parser tokens = .ok (x, rest) → P x

variable {unary : List Token → Result (Expr × List Token)}

theorem andRest_rule (h : Yields P unary) {fuel : Nat} {tokens rest : List Token} {nodes : List Expr}
    (hnodes : Parser.andRest unary fuel tokens = .ok (nodes, rest)) : ∀ x ∈ nodes, P x := by
  induction fuel generalizing tokens nodes with
  | zero =>
    cases hnodes
    simp
  | succ fuel ih =>
    rw [Parser.andRest] at hnodes
    split at hnodes
    iterate 4
      cases hnodes
      simp
    obtain ⟨⟨node, tokens₁⟩, hnode, hnodes⟩ := Result.bind_eq_ok.mp hnodes
    obtain ⟨⟨more, tokens₂⟩, hmore, hnodes⟩ := Result.bind_eq_ok.mp hnodes
    cases hnodes
    exact List.forall_mem_cons.mpr ⟨h _ _ _ hnode, ih hmore⟩

theorem and_rule (hand : ∀ a b, P a → P b → P (.and a b)) (h : Yields P unary) :
    Yields P (Parser.and unary) := by
  intro tokens x rest hx
  obtain ⟨⟨node, tokens₁⟩, hnode, hx⟩ := Result.bind_eq_ok.mp hx
  obtain ⟨⟨nodes, tokens₂⟩, hnodes, hx⟩ := Result.bind_eq_ok.mp hx
  cases hx
  exact balanced_rule (by simpa using hand) (h _ _ _ hnode) (andRest_rule h hnodes)

theorem orRest_rule (h : Yields P (Parser.and unary)) {fuel : Nat} {tokens rest : List Token}
    {nodes : List Expr} (hnodes : Parser.orRest unary fuel tokens = .ok (nodes, rest)) :
    ∀ x ∈ nodes, P x := by
  induction fuel generalizing tokens nodes with
  | zero =>
    cases hnodes
    simp
  | succ fuel ih =>
    rw [Parser.orRest] at hnodes
    split at hnodes
    · cases hnodes
      simp
    · obtain ⟨⟨node, tokens₁⟩, hnode, hnodes⟩ := Result.bind_eq_ok.mp hnodes
      obtain ⟨⟨more, tokens₂⟩, hmore, hnodes⟩ := Result.bind_eq_ok.mp hnodes
      cases hnodes
      exact List.forall_mem_cons.mpr ⟨h _ _ _ hnode, ih hmore⟩

theorem or_rule (hand : ∀ a b, P a → P b → P (.and a b)) (hor : ∀ a b, P a → P b → P (.or a b))
    (h : Yields P unary) : Yields P (Parser.or unary) := by
  intro tokens x rest hx
  have hconj := and_rule hand h
  obtain ⟨⟨node, tokens₁⟩, hnode, hx⟩ := Result.bind_eq_ok.mp hx
  obtain ⟨⟨nodes, tokens₂⟩, hnodes, hx⟩ := Result.bind_eq_ok.mp hx
  cases hx
  exact balanced_rule (by simpa using hor) (hconj _ _ _ hnode) (orRest_rule hconj hnodes)

/-- What holds of the predicates and is kept by the connectives holds of every
parsed expression. -/
theorem unary_rule (hpredicate : Yields P Parser.predicate) (hnot : ∀ a, P a → P (.not a))
    (hand : ∀ a b, P a → P b → P (.and a b)) (hor : ∀ a b, P a → P b → P (.or a b)) (budget : Nat) :
    Yields P (Parser.unary budget) := by
  induction budget with
  | zero =>
    intro tokens x rest hx
    cases hx
  | succ budget ih =>
    intro tokens x rest hx
    rw [Parser.unary] at hx
    split at hx
    · obtain ⟨⟨node, tokens₁⟩, hnode, hx⟩ := Result.bind_eq_ok.mp hx
      cases hx
      exact hnot _ (ih _ _ _ hnode)
    · split at hx
      · obtain ⟨⟨node, tokens₁⟩, hnode, hx⟩ := Result.bind_eq_ok.mp hx
        obtain ⟨tokens₂, _, hx⟩ := Result.bind_eq_ok.mp hx
        cases hx
        exact or_rule hand hor ih _ _ _ hnode
      · exact hpredicate _ _ _ hx

end

theorem pattern_ne_nil {token : Token} {bytes : Bytes} (h : pattern token = .ok bytes) :
    bytes ≠ [] := by
  have hkept : ∀ {x : Result Bytes},
      (x >>= fun bytes => ensure (bytes ≠ []) "empty payload pattern" >>= fun _ => .ok bytes) =
        .ok bytes → bytes ≠ [] := by
    intro x hx
    obtain ⟨found, _, hx⟩ := Result.bind_eq_ok.mp hx
    obtain ⟨hne, hx⟩ := ensure_bind_eq_ok.mp hx
    cases hx
    exact hne
  unfold pattern at h
  dsimp only at h
  split at h
  · exact hkept h
  · obtain ⟨_, _, h⟩ := Result.bind_eq_ok.mp h
    obtain ⟨_, h⟩ := ensure_bind_eq_ok.mp h
    exact hkept h

theorem condition_predicate {field : Field} {tokens rest : List Token} {x : Expr}
    (h : Parser.condition field tokens = .ok (x, rest)) : ∃ p, x = .predicate p := by
  unfold Parser.condition at h
  dsimp only at h
  split at h
  · obtain ⟨_, _, h⟩ := Result.bind_eq_ok.mp h
    obtain ⟨_, _, h⟩ := Result.bind_eq_ok.mp h
    obtain ⟨_, h⟩ := ensure_bind_eq_ok.mp h
    obtain ⟨_, _, h⟩ := Result.bind_eq_ok.mp h
    obtain ⟨_, _, h⟩ := Result.bind_eq_ok.mp h
    obtain ⟨_, _, h⟩ := Result.bind_eq_ok.mp h
    cases h
    exact ⟨_, rfl⟩
  · obtain ⟨_, _, h⟩ := Result.bind_eq_ok.mp h
    obtain ⟨_, _, h⟩ := Result.bind_eq_ok.mp h
    obtain ⟨_, _, h⟩ := Result.bind_eq_ok.mp h
    cases h
    exact ⟨_, rfl⟩

theorem searchable_predicate (p : Predicate) : (Expr.predicate p).Searchable := by
  intro needle hmem
  cases List.mem_singleton.mp hmem

theorem predicate_searchable : Yields Expr.Searchable Parser.predicate := by
  intro tokens x rest hx
  unfold Parser.predicate at hx
  obtain ⟨⟨token, tokens₁⟩, _, hx⟩ := Result.bind_eq_ok.mp hx
  dsimp only at hx
  split at hx
  · split at hx
    · obtain ⟨⟨token₁, tokens₂⟩, _, hx⟩ := Result.bind_eq_ok.mp hx
      obtain ⟨bytes, hbytes, hx⟩ := Result.bind_eq_ok.mp hx
      cases hx
      intro needle hmem
      cases List.mem_singleton.mp hmem
      exact pattern_ne_nil hbytes
    · obtain ⟨⟨field, tokens₂⟩, _, hx⟩ := Result.bind_eq_ok.mp hx
      obtain ⟨p, rfl⟩ := condition_predicate hx
      exact searchable_predicate p
  · split at hx
    · cases hx
    · cases hx
      exact searchable_predicate _
    · obtain ⟨p, rfl⟩ := condition_predicate hx
      exact searchable_predicate p

theorem parse_searchable {source : String} {f : Filter} (h : parse source = .ok f) :
    f.expression.Searchable := by
  have hjoin : ∀ a b : Expr, a.Searchable → b.Searchable → ∀ needle,
      Expr.contains needle ∈ a.leaves ++ b.leaves → needle ≠ [] := by
    intro a b ha hb needle hmem
    exact (List.mem_append.mp hmem).elim (ha needle) (hb needle)
  unfold parse at h
  obtain ⟨tokens, _, h⟩ := Result.bind_eq_ok.mp h
  split at h
  · cases h
    intro needle hmem
    cases List.mem_singleton.mp hmem
  · obtain ⟨⟨x, rest⟩, hx, h⟩ := Result.bind_eq_ok.mp h
    obtain ⟨_, h⟩ := ensure_bind_eq_ok.mp h
    cases h
    exact or_rule hjoin hjoin (unary_rule predicate_searchable (fun _ ha => ha) hjoin hjoin _) _ _ _ hx

/-- A parsed filter answers on every readable event. -/
theorem isMatch_ok {source : String} {f : Filter} (h : parse source = .ok f) {e : Event}
    (he : Readable e) (latency : Option UInt64) : ∃ b, f.isMatch e latency = .ok b := by
  obtain ⟨t, ht⟩ := evaluate_ok he (parse_searchable h) latency
  rw [isMatch, ht]
  exact ⟨_, rfl⟩

end Filter
end UsbScope
