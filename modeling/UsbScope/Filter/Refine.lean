import UsbScope.Filter.Parse

/-! # What unknown fields decide

An event about which less is known gives the same verdicts, or none. The order
on truth values is that of information: unknown is below both others. -/
namespace UsbScope
open UsbScope.Lib UsbScope.Common UsbScope.Capture
namespace Filter

/-- `t` says nothing that `u` does not say. -/
def Truth.Below (t u : Truth) : Prop := t = .unknown ∨ t = u

namespace Truth

theorem Below.not {t u : Truth} (h : Below t u) : Below t.not u.not := by
  rcases h with rfl | rfl
  · exact .inl rfl
  · exact .inr rfl

theorem Below.and {t u t' u' : Truth} (h : Below t u) (h' : Below t' u') :
    Below (t.and t') (u.and u') := by
  rcases h with rfl | rfl <;> rcases h' with rfl | rfl
  · exact .inl rfl
  · cases t' <;> cases u <;> simp [Below, Truth.and]
  · cases t <;> cases u' <;> simp [Below, Truth.and]
  · exact .inr rfl

theorem Below.or {t u t' u' : Truth} (h : Below t u) (h' : Below t' u') :
    Below (t.or t') (u.or u') := by
  rcases h with rfl | rfl <;> rcases h' with rfl | rfl
  · exact .inl rfl
  · cases t' <;> cases u <;> simp [Below, Truth.or]
  · cases t <;> cases u' <;> simp [Below, Truth.or]
  · exact .inr rfl

/-- A value that is known stays. -/
theorem Below.eq {t u : Truth} (h : Below t u) (hne : t ≠ .unknown) : u = t :=
  (h.resolve_left hne).symm

theorem and_of_false {t u : Truth} (h : t = .false) : t.and u = .false := by
  subst h
  rfl

theorem or_of_true {t u : Truth} (h : t = .true) : t.or u = .true := by
  subst h
  rfl

end Truth

/-- Every predicate of the expression is over one of these fields. -/
def Expr.Over (P : Field → Prop) : Expr → Prop
  | .predicate p => P p.field
  | .not inner => inner.Over P
  | .and a b => a.Over P ∧ b.Over P
  | .or a b => a.Over P ∧ b.Over P
  | .all => True
  | .contains _ => True

/-- The second event says of these fields what the first one says, or more, and
carries the same data. -/
structure Refined (P : Field → Prop) (e e' : Event) (latency latency' : Option UInt64) : Prop where
  value : ∀ field, P field → ∀ v, value field e latency = .ok v →
    ∃ v', Filter.value field e' latency' = .ok v' ∧ (v = none ∨ v' = v)
  hasData : e'.metadata.hasData = e.metadata.hasData
  contains : ∀ needle, contains e' needle = Filter.contains e needle

section
variable {P : Field → Prop} {e e' : Event} {latency latency' : Option UInt64}

theorem Refined.predicate (h : Refined P e e' latency latency') {p : Predicate} (hp : P p.field)
    {t : Truth} (ht : p.evaluate e latency = .ok t) :
    ∃ u, p.evaluate e' latency' = .ok u ∧ t.Below u := by
  unfold Predicate.evaluate at ht ⊢
  obtain ⟨v, hv, ht⟩ := Result.bind_eq_ok.mp ht
  obtain ⟨v', hv', hle⟩ := h.value p.field hp v hv
  rw [hv', Result.ok_bind]
  rcases hle with rfl | rfl
  · cases ht
    cases v' with
    | none => exact ⟨_, rfl, .inl rfl⟩
    | some x => exact ⟨_, rfl, .inl rfl⟩
  · exact ⟨t, ht, .inr rfl⟩

/-- Evaluation is monotone in what is known, short circuits included. -/
theorem Refined.evaluate (h : Refined P e e' latency latency') {x : Expr} (hx : x.Over P) {t : Truth}
    (ht : x.evaluate e latency = .ok t) : ∃ u, x.evaluate e' latency' = .ok u ∧ t.Below u := by
  induction x generalizing t with
  | all =>
    cases ht
    exact ⟨_, rfl, .inr rfl⟩
  | predicate p => exact h.predicate hx ht
  | contains needle =>
    rw [Expr.evaluate] at ht ⊢
    rw [h.hasData, h.contains]
    exact ⟨t, ht, .inr rfl⟩
  | not inner ih =>
    rw [Expr.evaluate] at ht ⊢
    obtain ⟨s, hs, ht⟩ := Result.bind_eq_ok.mp ht
    cases ht
    obtain ⟨u, hu, hle⟩ := ih hx hs
    rw [hu]
    exact ⟨_, rfl, hle.not⟩
  | and a b iha ihb =>
    rw [Expr.evaluate] at ht ⊢
    obtain ⟨s, hs, ht⟩ := Result.bind_eq_ok.mp ht
    obtain ⟨u, hu, hle⟩ := iha hx.1 hs
    rw [hu, Result.ok_bind]
    split at ht
    · -- the left side is false, here and there
      rename_i hf
      cases ht
      rw [hle.eq (by rw [hf]; decide), if_pos hf]
      exact ⟨_, rfl, .inr rfl⟩
    · obtain ⟨s', hs', ht⟩ := Result.bind_eq_ok.mp ht
      cases ht
      obtain ⟨u', hu', hle'⟩ := ihb hx.2 hs'
      split
      · rename_i hf
        refine ⟨u, rfl, ?_⟩
        have hand := hle.and hle'
        rwa [Truth.and_of_false hf, ← hf] at hand
      · rw [hu']
        exact ⟨_, rfl, hle.and hle'⟩
  | or a b iha ihb =>
    rw [Expr.evaluate] at ht ⊢
    obtain ⟨s, hs, ht⟩ := Result.bind_eq_ok.mp ht
    obtain ⟨u, hu, hle⟩ := iha hx.1 hs
    rw [hu, Result.ok_bind]
    split at ht
    · rename_i hf
      cases ht
      rw [hle.eq (by rw [hf]; decide), if_pos hf]
      exact ⟨_, rfl, .inr rfl⟩
    · obtain ⟨s', hs', ht⟩ := Result.bind_eq_ok.mp ht
      cases ht
      obtain ⟨u', hu', hle'⟩ := ihb hx.2 hs'
      split
      · rename_i hf
        refine ⟨u, rfl, ?_⟩
        have hor := hle.or hle'
        rwa [Truth.or_of_true hf, ← hf] at hor
      · rw [hu']
        exact ⟨_, rfl, hle.or hle'⟩

/-- A match with less known is a match with more known. -/
theorem Refined.isMatch (h : Refined P e e' latency latency') {f : Filter}
    (hx : f.expression.Over P) (hm : f.isMatch e latency = .ok true) :
    f.isMatch e' latency' = .ok true := by
  unfold Filter.isMatch at hm ⊢
  obtain ⟨t, ht, hm⟩ := Result.bind_eq_ok.mp hm
  have htrue : t = .true := by simpa using hm
  obtain ⟨u, hu, hle⟩ := h.evaluate hx ht
  rw [hu, Result.ok_bind, hle.eq (by rw [htrue]; decide), htrue]
  rfl

end

/-! ## Kleene's connectives -/

/-- The strong Kleene value of an expression over values of its leaves. -/
def Expr.kleene (leaf : Expr → Truth) : Expr → Truth
  | .not inner => (inner.kleene leaf).not
  | .and a b => (a.kleene leaf).and (b.kleene leaf)
  | .or a b => (a.kleene leaf).or (b.kleene leaf)
  | .all => leaf .all
  | .predicate p => leaf (.predicate p)
  | .contains needle => leaf (.contains needle)

def Expr.leaves : Expr → List Expr
  | .not inner => inner.leaves
  | .and a b => a.leaves ++ b.leaves
  | .or a b => a.leaves ++ b.leaves
  | .all => [.all]
  | .predicate p => [.predicate p]
  | .contains needle => [.contains needle]

section
variable {e : Event} {latency : Option UInt64} {leaf : Expr → Truth} {x : Expr}

/-- Whatever is evaluated has the Kleene value, also where a short circuit left
out a leaf that cannot be evaluated. -/
theorem Expr.kleene_of_evaluate
    (hleaf : ∀ y ∈ x.leaves, ∀ t, y.evaluate e latency = .ok t → leaf y = t) {t : Truth}
    (ht : x.evaluate e latency = .ok t) : x.kleene leaf = t := by
  induction x generalizing t with
  | all => exact hleaf _ List.mem_cons_self t ht
  | predicate p => exact hleaf _ List.mem_cons_self t ht
  | contains needle => exact hleaf _ List.mem_cons_self t ht
  | not inner ih =>
    rw [Expr.evaluate] at ht
    obtain ⟨s, hs, ht⟩ := Result.bind_eq_ok.mp ht
    cases ht
    rw [Expr.kleene, ih hleaf hs]
  | and a b iha ihb =>
    rw [Expr.evaluate] at ht
    obtain ⟨s, hs, ht⟩ := Result.bind_eq_ok.mp ht
    have ha := iha (fun y hy => hleaf y (List.mem_append_left _ hy)) hs
    rw [Expr.kleene, ha]
    split at ht
    · rename_i hf
      cases ht
      rw [Truth.and_of_false hf, hf]
    · obtain ⟨s', hs', ht⟩ := Result.bind_eq_ok.mp ht
      cases ht
      rw [ihb (fun y hy => hleaf y (List.mem_append_right _ hy)) hs']
  | or a b iha ihb =>
    rw [Expr.evaluate] at ht
    obtain ⟨s, hs, ht⟩ := Result.bind_eq_ok.mp ht
    have ha := iha (fun y hy => hleaf y (List.mem_append_left _ hy)) hs
    rw [Expr.kleene, ha]
    split at ht
    · rename_i hf
      cases ht
      rw [Truth.or_of_true hf, hf]
    · obtain ⟨s', hs', ht⟩ := Result.bind_eq_ok.mp ht
      cases ht
      rw [ihb (fun y hy => hleaf y (List.mem_append_right _ hy)) hs']

/-- If every leaf can be evaluated, so can the expression. -/
theorem Expr.evaluate_of_leaves (hleaf : ∀ y ∈ x.leaves, ∃ t, y.evaluate e latency = .ok t) :
    ∃ t, x.evaluate e latency = .ok t := by
  induction x with
  | all => exact hleaf _ List.mem_cons_self
  | predicate p => exact hleaf _ List.mem_cons_self
  | contains needle => exact hleaf _ List.mem_cons_self
  | not inner ih =>
    obtain ⟨t, ht⟩ := ih hleaf
    exact ⟨t.not, by rw [Expr.evaluate, ht, Result.ok_bind]⟩
  | and a b iha ihb =>
    obtain ⟨t, ht⟩ := iha fun y hy => hleaf y (List.mem_append_left _ hy)
    obtain ⟨u, hu⟩ := ihb fun y hy => hleaf y (List.mem_append_right _ hy)
    rw [Expr.evaluate, ht, hu, Result.ok_bind]
    split
    · exact ⟨_, rfl⟩
    · exact ⟨_, rfl⟩
  | or a b iha ihb =>
    obtain ⟨t, ht⟩ := iha fun y hy => hleaf y (List.mem_append_left _ hy)
    obtain ⟨u, hu⟩ := ihb fun y hy => hleaf y (List.mem_append_right _ hy)
    rw [Expr.evaluate, ht, hu, Result.ok_bind]
    split
    · exact ⟨_, rfl⟩
    · exact ⟨_, rfl⟩

end

/-! ## Missing fields -/

/-- The second event is the first one with more known of its identity and its
requested length. -/
structure Completed (e e' : Event) : Prop where
  event : ∃ vid pid requestedLen identityKnown requestedKnown, e' =
    { e with
      metadata := { e.metadata with vid := vid, pid := pid, requestedLen := requestedLen }
      identityKnown := identityKnown
      requestedKnown := requestedKnown }
  identity : e.identityKnown = true → e'.identityKnown = true ∧
    e'.metadata.vid = e.metadata.vid ∧ e'.metadata.pid = e.metadata.pid
  requested : e.requestedKnown = true → e'.requestedKnown = true ∧
    e'.metadata.requestedLen = e.metadata.requestedLen

section
variable (e : Event) (latency : Option UInt64)

theorem value_vid : value .vid e latency =
    .ok (if e.identityKnown then some (e.metadata.vid.toNat : Int) else none) := by
  cases h : e.identityKnown <;> simp [value, h]

theorem value_pid : value .pid e latency =
    .ok (if e.identityKnown then some (e.metadata.pid.toNat : Int) else none) := by
  cases h : e.identityKnown <;> simp [value, h]

theorem value_requested : value .requested e latency =
    .ok (if e.requestedKnown then some (e.metadata.requestedLen.toNat : Int) else none) := by
  cases h : e.requestedKnown <;> simp [value, h]

end

/-- A field that is only read when it is known. -/
theorem ok_of_known {known known' : Bool} {v v' : Int} {w : Option Int}
    (h : known = true → known' = true ∧ v' = v)
    (hw : (.ok (if known then some v else none) : Result (Option Int)) = .ok w) :
    ∃ w', (.ok (if known' then some v' else none) : Result (Option Int)) = .ok w' ∧
      (w = none ∨ w' = w) := by
  cases hw
  cases known with
  | false => exact ⟨_, rfl, .inl rfl⟩
  | true =>
    obtain ⟨rfl, rfl⟩ := h rfl
    exact ⟨_, rfl, .inr rfl⟩

theorem Completed.refined {e e' : Event} {latency latency' : Option UInt64} (h : Completed e e')
    (hsubmit : e.metadata.eventType = submitType → e.requestedKnown = true)
    (hlatency : latency = none ∨ latency' = latency) :
    Refined (fun _ => True) e e' latency latency' := by
  obtain ⟨⟨vid, pid, requestedLen, identityKnown, requestedKnown, rfl⟩, hidentity, hrequested⟩ := h
  refine ⟨fun field _ v hv => ?_, rfl, fun needle => rfl⟩
  cases field with
  | vid =>
    rw [value_vid] at hv ⊢
    refine ok_of_known (fun hk => ?_) hv
    obtain ⟨hknown, hvid, _⟩ := hidentity hk
    exact ⟨hknown, by rw [hvid]⟩
  | pid =>
    rw [value_pid] at hv ⊢
    refine ok_of_known (fun hk => ?_) hv
    obtain ⟨hknown, _, hpid⟩ := hidentity hk
    exact ⟨hknown, by rw [hpid]⟩
  | requested =>
    rw [value_requested] at hv ⊢
    refine ok_of_known (fun hk => ?_) hv
    obtain ⟨hknown, hlen⟩ := hrequested hk
    exact ⟨hknown, by rw [hlen]⟩
  | length =>
    -- the length of a submission is its requested length, which is known
    refine ⟨v, ?_, .inr rfl⟩
    rw [← hv]
    by_cases hs : e.metadata.eventType = submitType
    · have hlen : requestedLen = e.metadata.requestedLen := (hrequested (hsubmit hs)).2
      simp [value, hs, hlen]
    · simp [value, hs]
  | latency =>
    have hval : ∀ (x : Event) (l : Option UInt64), value .latency x l =
        .ok (l.map fun l => (l.toNat : Int)) := fun x l => by simp [value]
    rw [hval] at hv ⊢
    cases hv
    rcases hlatency with rfl | rfl
    · exact ⟨_, rfl, .inl rfl⟩
    · exact ⟨_, rfl, .inr rfl⟩
  | _ => exact ⟨v, hv, .inr rfl⟩

theorem Expr.over_true (x : Expr) : x.Over fun _ => True := by
  induction x with
  | all => trivial
  | predicate p => trivial
  | contains needle => trivial
  | not inner ih => exact ih
  | and a b iha ihb => exact ⟨iha, ihb⟩
  | or a b iha ihb => exact ⟨iha, ihb⟩

/-- **Unknown fields never decide.** A verdict reached with fields missing stands
whatever the missing values are, and every verdict is the strong Kleene value of
the expression over its leaves. -/
theorem evaluate_missing_fields {e e' : Event} {latency latency' : Option UInt64} (f : Filter)
    (hsubmit : e.metadata.eventType = submitType → e.requestedKnown = true)
    (he : Completed e e') (hlatency : latency = none ∨ latency' = latency) :
    (∀ t, t ≠ .unknown → f.expression.evaluate e latency = .ok t →
      f.expression.evaluate e' latency' = .ok t) ∧
    (∀ leaf : Expr → Truth,
      (∀ y ∈ f.expression.leaves, ∀ t, y.evaluate e latency = .ok t → leaf y = t) →
      (∀ t, f.expression.evaluate e latency = .ok t → t = f.expression.kleene leaf) ∧
      ((∀ y ∈ f.expression.leaves, ∃ t, y.evaluate e latency = .ok t) →
        f.expression.evaluate e latency = .ok (f.expression.kleene leaf))) ∧
    (f.isMatch e latency = .ok true → f.isMatch e' latency' = .ok true) := by
  have hrefined := he.refined hsubmit hlatency
  refine ⟨fun t hne ht => ?_, fun leaf hleaf => ⟨fun t ht => ?_, fun hall => ?_⟩,
    hrefined.isMatch f.expression.over_true⟩
  · obtain ⟨u, hu, hle⟩ := hrefined.evaluate f.expression.over_true ht
    rw [hu, hle.eq hne]
  · exact (Expr.kleene_of_evaluate hleaf ht).symm
  · obtain ⟨t, ht⟩ := Expr.evaluate_of_leaves hall
    rw [ht, Expr.kleene_of_evaluate hleaf ht]

/-- A bulk completion of unknown identity and request. -/
def unidentified : Event :=
  { sourceId := 0
    metadata := { EventMeta.zero with eventType := completeType, transferType := 3 }
    iso := []
    payload := []
    identityKnown := false
    requestedKnown := false }

/-- The same completion once the device is known. -/
def identified : Event :=
  { unidentified with
    metadata := { unidentified.metadata with vid := 0x1d6b, pid := 2 }
    identityKnown := true }

theorem evaluate_missing_fields_bulk :
    Filter.parse "bulk or vid 0x1234" = .ok ⟨.or (.predicate ⟨.transfer, none, .eq, 3⟩)
      (.predicate ⟨.vid, none, .eq, 0x1234⟩)⟩ ∧
    isMatch ⟨.or (.predicate ⟨.transfer, none, .eq, 3⟩)
      (.predicate ⟨.vid, none, .eq, 0x1234⟩)⟩ identified (some 7) = .ok true := by
  refine ⟨by rfl, (evaluate_missing_fields (e := unidentified) _ (by decide) ?_ (.inl rfl)).2.2
    (by decide)⟩
  exact ⟨⟨0x1d6b, 2, 0, true, false, rfl⟩, by decide, by decide⟩

end Filter
end UsbScope
