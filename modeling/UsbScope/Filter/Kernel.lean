import UsbScope.Filter.Parse
import UsbScope.Ebpf.Hooks

/-! # The kernel prefilter is sound

Predicates pushed into the kernel are necessary for the whole expression, and
read only fields that a URB keeps from its submission to its completion: an
event that matches in userspace was never rejected in the kernel. -/
namespace UsbScope
open UsbScope.Lib UsbScope.Common UsbScope.Capture
namespace Filter

/-! ## Evaluation by cases -/

section
variable {e : Event} {latency : Option UInt64} {a b : Expr}

theorem Expr.evaluate_not {t : Truth} :
    (Expr.not a).evaluate e latency = .ok t ↔ a.evaluate e latency = .ok t.not := by
  rw [Expr.evaluate, Result.bind_eq_ok]
  constructor
  · rintro ⟨u, hu, h⟩
    cases h
    rw [hu]
    cases u <;> rfl
  · intro h
    refine ⟨_, h, ?_⟩
    cases t <;> rfl

theorem Expr.evaluate_and_true (h : (Expr.and a b).evaluate e latency = .ok .true) :
    a.evaluate e latency = .ok .true ∧ b.evaluate e latency = .ok .true := by
  rw [Expr.evaluate, Result.bind_eq_ok] at h
  obtain ⟨t, ht, h⟩ := h
  split at h
  · rename_i hf
    rw [hf] at h
    cases h
  · obtain ⟨u, hu, h⟩ := Result.bind_eq_ok.mp h
    cases t <;> cases u <;> simp [Truth.and] at h
    exact ⟨ht, hu⟩

theorem Expr.evaluate_and_false (h : (Expr.and a b).evaluate e latency = .ok .false) :
    a.evaluate e latency = .ok .false ∨ b.evaluate e latency = .ok .false := by
  rw [Expr.evaluate, Result.bind_eq_ok] at h
  obtain ⟨t, ht, h⟩ := h
  split at h
  · rename_i hf
    exact .inl (hf ▸ ht)
  · rename_i hf
    obtain ⟨u, hu, h⟩ := Result.bind_eq_ok.mp h
    cases t <;> cases u <;> simp [Truth.and] at h hf <;> exact .inr hu

theorem Expr.evaluate_or_false (h : (Expr.or a b).evaluate e latency = .ok .false) :
    a.evaluate e latency = .ok .false ∧ b.evaluate e latency = .ok .false := by
  rw [Expr.evaluate, Result.bind_eq_ok] at h
  obtain ⟨t, ht, h⟩ := h
  split at h
  · rename_i hf
    rw [hf] at h
    cases h
  · obtain ⟨u, hu, h⟩ := Result.bind_eq_ok.mp h
    cases t <;> cases u <;> simp [Truth.or] at h
    exact ⟨ht, hu⟩

theorem Expr.evaluate_or_true (h : (Expr.or a b).evaluate e latency = .ok .true) :
    a.evaluate e latency = .ok .true ∨ b.evaluate e latency = .ok .true := by
  rw [Expr.evaluate, Result.bind_eq_ok] at h
  obtain ⟨t, ht, h⟩ := h
  split at h
  · rename_i hf
    exact .inl (hf ▸ ht)
  · rename_i hf
    obtain ⟨u, hu, h⟩ := Result.bind_eq_ok.mp h
    cases t <;> cases u <;> simp [Truth.or] at h hf <;> exact .inr hu

end

/-! ## Required predicates -/

theorem mem_union {left right : List Predicate} {p : Predicate} :
    p ∈ Expr.union left right ↔ p ∈ left ∨ p ∈ right := by
  unfold Expr.union
  induction right generalizing left with
  | nil => simp
  | cons q rest ih =>
    rw [List.foldl_cons, ih]
    split
    · rename_i hq
      have hmem : q ∈ left := by simpa using hq
      constructor
      · rintro (h | h)
        · exact .inl h
        · exact .inr (List.mem_cons_of_mem _ h)
      · rintro (h | h)
        · exact .inl h
        · rcases List.mem_cons.mp h with rfl | h
          · exact .inl hmem
          · exact .inr h
    · simp only [List.mem_append, List.mem_cons, List.not_mem_nil, false_or, or_assoc]

theorem mem_inter {left right : List Predicate} {p : Predicate} :
    p ∈ Expr.inter left right ↔ p ∈ left ∧ p ∈ right := by
  simp [Expr.inter, List.mem_filter]

/-- The value a predicate compares, after its mask. -/
def Predicate.masked (p : Predicate) (v : Int) : Int :=
  match p.mask with
  | some mask => ((UInt64.ofInt v &&& mask).toNat : Int)
  | none => v

/-- A predicate is decided by a known value. -/
theorem Predicate.evaluate_ofBool {p : Predicate} {e : Event} {latency : Option UInt64} {b : Bool} :
    p.evaluate e latency = .ok (.ofBool b) ↔
      ∃ v, Filter.value p.field e latency = .ok (some v) ∧ p.comparison.holds (p.masked v) p.value = b := by
  rw [Predicate.evaluate, Result.bind_eq_ok]
  constructor
  · rintro ⟨v, hv, h⟩
    cases v with
    | none => cases b <;> simp [Truth.ofBool] at h
    | some v =>
      refine ⟨v, hv, ?_⟩
      dsimp only at h
      change Except.ok (Truth.ofBool (p.comparison.holds (p.masked v) p.value)) = _ at h
      cases hb : p.comparison.holds (p.masked v) p.value <;> cases b <;>
        simp [hb, Truth.ofBool] at h ⊢
  · rintro ⟨v, hv, h⟩
    refine ⟨some v, hv, ?_⟩
    subst h
    rfl

/-- An expression that is true, or false if `negated`, makes its required
predicates true. -/
theorem Expr.required_sound {e : Event} {latency : Option UInt64} {expr : Expr} (negated : Bool)
    (h : expr.evaluate e latency = .ok (.ofBool !negated)) :
    ∀ p ∈ expr.required negated, p.evaluate e latency = .ok .true := by
  induction expr generalizing negated with
  | all => simp [Expr.required]
  | contains needle => simp [Expr.required]
  | predicate p =>
    intro q hq
    rw [Expr.required, List.mem_singleton] at hq
    rw [Expr.evaluate, Predicate.evaluate_ofBool] at h
    obtain ⟨v, hv, hb⟩ := h
    rw [show Truth.true = Truth.ofBool true from rfl, Predicate.evaluate_ofBool]
    cases negated with
    | false =>
      rw [hq]
      exact ⟨v, hv, hb⟩
    | true =>
      rw [hq]
      refine ⟨v, hv, ?_⟩
      change p.comparison.invert.holds (p.masked v) p.value = true
      rw [Compare.holds_invert, hb]
      rfl
  | not inner ih =>
    rw [Expr.evaluate_not] at h
    rw [Expr.required]
    refine ih (!negated) ?_
    rw [h]
    cases negated <;> rfl
  | and a b iha ihb =>
    intro p hp
    rw [Expr.required] at hp
    cases negated with
    | false =>
      obtain ⟨ha, hb⟩ := Expr.evaluate_and_true h
      rw [if_neg (by simp), mem_union] at hp
      rcases hp with hp | hp
      · exact iha false ha p hp
      · exact ihb false hb p hp
    | true =>
      rw [if_pos rfl, mem_inter] at hp
      rcases Expr.evaluate_and_false h with ha | hb
      · exact iha true ha p hp.1
      · exact ihb true hb p hp.2
  | or a b iha ihb =>
    intro p hp
    rw [Expr.required] at hp
    cases negated with
    | false =>
      rw [if_neg (by simp), mem_inter] at hp
      rcases Expr.evaluate_or_true h with ha | hb
      · exact iha false ha p hp.1
      · exact ihb false hb p hp.2
    | true =>
      obtain ⟨ha, hb⟩ := Expr.evaluate_or_false h
      rw [if_pos rfl, mem_union] at hp
      rcases hp with hp | hp
      · exact iha true ha p hp
      · exact ihb true hb p hp

/-! ## Kernel predicates -/

/-- The fields that the events of one URB share. -/
structure SameUrb (m n : EventMeta) : Prop where
  bus : m.bus = n.bus
  device : m.device = n.device
  vid : m.vid = n.vid
  pid : m.pid = n.pid
  endpoint : m.endpoint = n.endpoint
  transferType : m.transferType = n.transferType
  requestedLen : m.requestedLen = n.requestedLen
  isoCount : m.isoCount = n.isoCount

/-- The kernel reads the value that userspace compares. -/
theorem fieldOf_kernel {field : Field} {f : UInt32} {e : Event} {latency : Option UInt64} {v : Int}
    {m : EventMeta} (hf : field.kernel = some f) (hv : value field e latency = .ok (some v))
    (hs : SameUrb m e.metadata) : ∃ w, KernelPredicate.fieldOf f m = some w ∧ v = w.toNat := by
  unfold value at hv
  split at hv
  · cases hv
  cases field <;> simp only [Field.kernel, reduceCtorEq, Option.some.injEq] at hf <;> cases hf <;>
    cases hv
  · exact ⟨m.bus.toUInt64, rfl, by simp [hs.bus]⟩
  · exact ⟨m.device.toUInt64, rfl, by simp [hs.device]⟩
  · exact ⟨m.vid.toUInt64, rfl, by simp [hs.vid]⟩
  · exact ⟨m.pid.toUInt64, rfl, by simp [hs.pid]⟩
  · exact ⟨m.endpoint.toUInt64, rfl, by simp [hs.endpoint]⟩
  · exact ⟨(m.endpoint &&& 15).toUInt64, rfl, by simp [hs.endpoint]⟩
  · exact ⟨(m.endpoint >>> 7).toUInt64, rfl, by simp [hs.endpoint]⟩
  · exact ⟨m.transferType.toUInt64, rfl, by simp [hs.transferType]⟩
  · exact ⟨m.requestedLen.toUInt64, rfl, by simp [hs.requestedLen]⟩
  · exact ⟨m.isoCount.toUInt64, rfl, by simp [hs.isoCount]⟩

/-- The kernel's comparison of unsigned words is the comparison of integers. -/
theorem compare_code (c : Compare) (x : UInt64) {v : Int} (h0 : 0 ≤ v) (h1 : v < 2 ^ 64) :
    KernelPredicate.compare c.code x (UInt64.ofNat v.toNat) = c.holds x.toNat v := by
  have hv : (UInt64.ofNat v.toNat).toNat = v.toNat := by
    rw [UInt64.toNat_ofNat']
    omega
  have hx : ((x.toNat : Nat) : Int) = v ↔ x.toNat = v.toNat := by omega
  cases c with
  | eq =>
    simp only [KernelPredicate.compare, Compare.code, Compare.holds, UInt32.reduceToNat]
    rw [Bool.eq_iff_iff, beq_iff_eq, beq_iff_eq, ← UInt64.toNat_inj, hv, hx]
  | ne =>
    simp only [KernelPredicate.compare, Compare.code, Compare.holds, UInt32.reduceToNat]
    rw [Bool.eq_iff_iff, bne_iff_ne, bne_iff_ne, ne_eq, ne_eq, ← UInt64.toNat_inj, hv, hx]
  | lt =>
    simp only [KernelPredicate.compare, Compare.code, Compare.holds, UInt32.reduceToNat]
    rw [decide_eq_decide, UInt64.lt_iff_toNat_lt, hv]
    omega
  | le =>
    simp only [KernelPredicate.compare, Compare.code, Compare.holds, UInt32.reduceToNat]
    rw [decide_eq_decide, UInt64.le_iff_toNat_le, hv]
    omega
  | gt =>
    simp only [KernelPredicate.compare, Compare.code, Compare.holds, UInt32.reduceToNat]
    rw [decide_eq_decide, gt_iff_lt, UInt64.lt_iff_toNat_lt, hv]
    omega
  | ge =>
    simp only [KernelPredicate.compare, Compare.code, Compare.holds, UInt32.reduceToNat]
    rw [decide_eq_decide, ge_iff_le, UInt64.le_iff_toNat_le, hv]
    omega

/-- A true predicate holds in the kernel, for any event of the same URB. -/
theorem Predicate.kernel_sound {p : Predicate} {k : KernelPredicate} {e : Event}
    {latency : Option UInt64} {m : EventMeta} (h : p.evaluate e latency = .ok .true)
    (hk : p.kernel = some k) (hs : SameUrb m e.metadata) : k.matchesMeta m = true := by
  rw [show Truth.true = Truth.ofBool true from rfl, Predicate.evaluate_ofBool] at h
  obtain ⟨v, hv, hholds⟩ := h
  unfold Predicate.kernel at hk
  split at hk
  · cases hk
  rename_i f hf
  split at hk
  · rename_i hrange
    cases hk
    obtain ⟨w, hw, rfl⟩ := fieldOf_kernel hf hv hs
    have hmask : ((w &&& p.mask.getD 0xffffffffffffffff).toNat : Int) = p.masked w.toNat := by
      unfold Predicate.masked
      cases p.mask with
      | none =>
        have hall : w &&& 0xffffffffffffffff = w := by
          apply UInt64.toBitVec_inj.mp
          rw [UInt64.toBitVec_and]
          exact BitVec.and_allOnes
        rw [Option.getD_none, hall]
      | some mask =>
        have hofInt : UInt64.ofInt (w.toNat : Int) = w := by
          apply UInt64.toNat_inj.mp
          rw [UInt64.ofInt, UInt64.toNat_ofNat']
          have := w.toNat_lt
          omega
        rw [Option.getD_some, hofInt]
    unfold KernelPredicate.matchesMeta
    dsimp only
    rw [hw]
    dsimp only
    rw [compare_code _ _ hrange.1 hrange.2, hmask]
    exact hholds
  · cases hk

/-- Predicates that all match are accepted by the loop over them. -/
theorem prefilter_of_all {filters : List KernelPredicate} {m : EventMeta} {count : UInt32}
    (h : ∀ i p, i < count.toNat → filters[i]? = some p → p.matchesMeta m = true)
    (st : Ebpf.Probe) : (Ebpf.prefilter filters m count st).1 = true := by
  unfold Ebpf.prefilter
  split
  · rfl
  unfold Ebpf.bpfLoop
  generalize st.fails = f
  obtain ⟨fault, t⟩ := f
  cases fault with
  | true => rfl
  | false =>
    have hloop := Loop.run_rule (Ebpf.filterPredicate filters m)
      (I := fun _ s => s.1 = true) (Q := fun _ => False) (n := min count.toNat maxKernelPredicates)
      (i := 0) (s := (true, t)) rfl fun j s b s' _ hj hI hb => by
        obtain ⟨accepted, u⟩ := s
        unfold Ebpf.filterPredicate at hb
        dsimp only at hb
        split at hb
        · rename_i p hp
          rw [if_pos (h j p (by omega) hp)] at hb
          cases hb
          exact .inl ⟨rfl, hI⟩
        · cases hb
          exact .inl ⟨rfl, hI⟩
    rcases hloop with hfalse | haccept
    · exact hfalse.elim
    · dsimp only
      rw [haccept]
      rfl

/-- **The kernel prefilter is sound.** If a filter matches an event, every
predicate it pushes into the kernel matches the metadata of any event of the
same URB, and the prefilter over these predicates accepts it. -/
theorem prefilter_accepts {f : Filter} {e : Event} {latency : Option UInt64} {m : EventMeta}
    (hmatch : f.isMatch e latency = .ok true) (hs : SameUrb m e.metadata) :
    (∀ p ∈ f.kernelPredicates, p.matchesMeta m = true) ∧
      ∀ (filters : List KernelPredicate) (st : Ebpf.Probe), f.kernelPredicates <+: filters →
        (Ebpf.prefilter filters m (UInt32.ofNat f.kernelPredicates.length) st).1 = true := by
  have htrue : f.expression.evaluate e latency = .ok .true := by
    obtain ⟨t, ht, h⟩ := Result.bind_eq_ok.mp hmatch
    rw [ht, of_decide_eq_true (Except.ok.inj h)]
  have hall : ∀ p ∈ f.kernelPredicates, p.matchesMeta m = true := by
    intro k hk
    obtain ⟨p, hp, hkernel⟩ := List.mem_filterMap.mp (List.mem_of_mem_take hk)
    exact Predicate.kernel_sound (Expr.required_sound false htrue p hp) hkernel hs
  refine ⟨hall, fun filters st hpre => prefilter_of_all (fun i p hi hp => ?_) st⟩
  have hlen : f.kernelPredicates.length ≤ maxKernelPredicates := List.length_take_le _ _
  have hcount : (UInt32.ofNat f.kernelPredicates.length).toNat = f.kernelPredicates.length :=
    UInt32.toNat_ofNat_of_lt' (Nat.lt_of_le_of_lt hlen (by decide))
  rw [hcount] at hi
  obtain ⟨rest, rfl⟩ := hpre
  rw [List.getElem?_append_left hi] at hp
  exact hall p (List.mem_of_getElem? hp)

/-- A completion of one byte on bus 1. -/
def bulkInCompletion : Event :=
  { sourceId := 0
    metadata :=
      { EventMeta.zero with
        bus := 1
        device := 5
        endpoint := 0x81
        transferType := 3
        eventType := completeType
        requestedLen := 64
        actualLen := 1
        payloadLen := 1
        hasData := 1 }
    iso := []
    payload := [0x61]
    identityKnown := true
    requestedKnown := true }

/-- Its submission. -/
def bulkInSubmission : EventMeta :=
  { EventMeta.zero with
    bus := 1
    device := 5
    endpoint := 0x81
    transferType := 3
    eventType := submitType
    status := -115
    requestedLen := 64 }

/-- `bus 1 and (in or payload contains 0x61)`. -/
def busFilter : Filter :=
  ⟨.and (.predicate ⟨.bus, none, .eq, 1⟩)
    (.or (.predicate ⟨.direction, none, .eq, 1⟩) (.contains [0x61]))⟩

theorem prefilter_accepts_bulkIn :
    Filter.parse "bus 1 and (in or payload contains 0x61)" = .ok busFilter ∧
      busFilter.kernelPredicates = [⟨1, 0xffffffffffffffff, 1, 0⟩] ∧
      (∀ p ∈ busFilter.kernelPredicates, p.matchesMeta bulkInSubmission = true) ∧
      ∀ (filters : List KernelPredicate) (st : Ebpf.Probe), busFilter.kernelPredicates <+: filters →
        (Ebpf.prefilter filters bulkInSubmission (UInt32.ofNat busFilter.kernelPredicates.length)
          st).1 = true :=
  ⟨by decide +kernel, by decide +kernel,
    prefilter_accepts (show busFilter.isMatch bulkInCompletion none = .ok true by decide +kernel)
      ⟨rfl, rfl, rfl, rfl, rfl, rfl, rfl, rfl⟩⟩

end Filter
end UsbScope
