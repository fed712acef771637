import UsbScope.Lib.Intervals
import UsbScope.Capture.Completeness

/-! # The range map of a pending event

In every reachable state the range map of a pending event is canonical and
covers what the `DATA` records since its `BEGIN` carried. From that alone follow
the exactness of the tests in `push`: the two neighbour tests, the end of the
merge loop, the overlap read and `covers`. -/
namespace UsbScope.Capture
open UsbScope.Lib UsbScope.Common

/-- The range map and the spool of an event that accepted the payload fragments
`frags`. -/
structure Mapped (frags : List Fragment) (p : Pending) : Prop where
  nonempty : ∀ e ∈ p.ranges, e.1 < e.2
  /-- In increasing order, with an uncovered position between two neighbours. -/
  apart : p.ranges.Pairwise fun x y => x.2 < y.1
  union : ∀ q, p.ranges.Covered q ↔ ∃ f ∈ frags, f.Has q
  inside : ∀ q, p.ranges.Covered q → q < p.event.metadata.payloadLen.toNat
  copied : p.copied = (frags.map fun f => f.2.length).sum
  /-- Only ISO frames may be copied twice. -/
  total : (p.ranges.map fun e => e.2 - e.1).sum ≤ p.copied ∧
    (p.event.metadata.transferType ≠ 0 → (p.ranges.map fun e => e.2 - e.1).sum = p.copied)
  stored : ∀ f ∈ frags, ∀ q b, f.Carries q b → p.event.payload[q]? = some b
  zeros : ∀ q < p.event.payload.length, ¬ p.ranges.Covered q → p.event.payload[q]? = some 0

/-- What the code relies on when it works with the map. -/
structure ExactTests (p : Pending) : Prop where
  /-- The tests against the two neighbours say that nothing is shared. -/
  disjoint : ∀ start len, 0 < len →
    ((p.ranges.lastLE start).all (fun e => decide (e.2 ≤ start)) = true ∧
      (p.ranges.firstGE start).all (fun e => decide (start + len ≤ e.1)) = true ↔
      ∀ q, start ≤ q → q < start + len → ¬ p.ranges.Covered q)
  /-- The merge loop is over after at most one turn for each entry. -/
  terminates : ∀ start body turns, p.ranges.length ≤ turns →
    RangeMap.absorb (p.checkOverlap start body) (p.ranges.windowStart start) (start + body.length)
      turns p.ranges start (start + body.length) =
    RangeMap.absorb (p.checkOverlap start body) (p.ranges.windowStart start) (start + body.length)
      p.ranges.length p.ranges start (start + body.length)
  exhausts : ∀ start body ranges first last,
    RangeMap.absorb (p.checkOverlap start body) (p.ranges.windowStart start) (start + body.length)
      p.ranges.length p.ranges start (start + body.length) = (ranges, .ok (first, last)) →
    ranges.firstIn (p.ranges.windowStart start) (start + body.length) = none
  /-- The overlap read stays inside the stored data. -/
  reads : ∀ start body, (p.pushData start body).2 ≠ .error "failed to fill whole buffer"
  covers : ∀ start len, p.covers start len = true ↔
    ∀ q, start ≤ q → q < start + len → p.ranges.Covered q

section
variable {frags : List Fragment} {p : Pending}

/-- The ranges as intervals with a start and a length. -/
theorem positions_ranges (h : p.ranges.Canonical) (q : Nat) :
    q ∈ Intervals.positions (p.ranges.map fun e => (e.1, e.2 - e.1)) ↔ p.ranges.Covered q := by
  rw [Intervals.mem_positions]
  constructor
  · intro hq
    obtain ⟨i, hi, hle, hlt⟩ := hq
    obtain ⟨e, he, rfl⟩ := List.mem_map.mp hi
    have hne := h.nonempty e he
    exact ⟨e, he, hle, by dsimp only at hlt; omega⟩
  · intro hq
    obtain ⟨e, he, hle, hlt⟩ := hq
    exact ⟨_, List.mem_map_of_mem he, hle, by dsimp only; omega⟩

theorem apart_ranges (h : p.ranges.Canonical) :
    (p.ranges.map fun e => (e.1, e.2 - e.1)).Pairwise Intervals.Apart := by
  rw [List.pairwise_map]
  refine h.apart.imp_of_mem fun {x y} hx _ hxy => Or.inl ?_
  have hne := h.nonempty x hx
  dsimp only
  omega

theorem positions_fragments (h : Assembled frags p) :
    Intervals.positions (p.ranges.map fun e => (e.1, e.2 - e.1)) =
      Intervals.positions (frags.map fun f => (f.1, f.2.length)) := by
  ext q
  rw [positions_ranges h.canonical, h.covered, Intervals.mem_positions]
  constructor
  · intro hq
    obtain ⟨f, hf, hhas⟩ := hq
    exact ⟨_, List.mem_map_of_mem hf, hhas⟩
  · intro hq
    obtain ⟨i, hi, hhas⟩ := hq
    obtain ⟨f, hf, rfl⟩ := List.mem_map.mp hi
    exact ⟨f, hf, hhas⟩

/-- Fragments of which no two share a position are apart as intervals. -/
theorem apart_of_disjoint {f g : Fragment} (h : ∀ q, f.Has q → ¬ g.Has q) :
    Intervals.Apart (f.1, f.2.length) (g.1, g.2.length) := by
  by_contra hn
  unfold Intervals.Apart at hn
  dsimp only at hn
  -- the larger start lies in both
  refine h (max f.1 g.1) ⟨le_max_left _ _, ?_⟩ ⟨le_max_right _ _, ?_⟩
  · unfold Fragment.stop
    omega
  · unfold Fragment.stop
    omega

/-- The ranges are as long together as the positions they cover. -/
theorem total_ranges (h : Assembled frags p) :
    (p.ranges.map fun e => e.2 - e.1).sum =
      (Intervals.positions (frags.map fun f => (f.1, f.2.length))).card := by
  rw [← positions_fragments h, Intervals.card_positions (apart_ranges h.canonical),
    Intervals.total, List.map_map]
  rfl

theorem total_fragments (h : Assembled frags p) :
    Intervals.total (frags.map fun f => (f.1, f.2.length)) = p.copied := by
  rw [h.copied, Intervals.total, List.map_map]
  rfl

theorem total_le (h : Assembled frags p) : (p.ranges.map fun e => e.2 - e.1).sum ≤ p.copied := by
  rw [total_ranges h, ← total_fragments h]
  exact Intervals.card_positions_le _

theorem total_eq {m : EventMeta} (h : Assembled frags p) (ht : m.transferType ≠ 0)
    (hc : frags.Pairwise (Fragment.Compatible m)) :
    (p.ranges.map fun e => e.2 - e.1).sum = p.copied := by
  rw [total_ranges h, ← total_fragments h]
  refine Intervals.card_positions ?_
  rw [List.pairwise_map]
  refine hc.imp fun {f g} hfg => apart_of_disjoint ?_
  rwa [Fragment.Compatible, if_neg ht] at hfg

theorem zero_of_gap (h : Assembled frags p) {q : Nat} (hq : q < p.event.payload.length)
    (hn : ¬ p.ranges.Covered q) : p.event.payload[q]? = some 0 := by
  have hat := List.getElem?_eq_getElem hq
  rw [hat, h.gaps q _ hat hn]

theorem Gathered.mapped {m : EventMeta} {own : List Bytes} (h : Gathered m own p) :
    Mapped (fragmentsOf own) p where
  nonempty := h.assembled.canonical.nonempty
  apart := h.assembled.canonical.apart
  union := h.assembled.covered
  inside := by
    intro q hq
    obtain ⟨f, hf, hhas⟩ := (h.assembled.covered q).mp hq
    rw [h.metadata]
    exact Nat.lt_of_lt_of_le hhas.2 (h.fits f hf).2.2
  copied := h.assembled.copied
  total := by
    rw [h.metadata]
    exact ⟨total_le h.assembled, fun ht => total_eq h.assembled ht h.compatible⟩
  stored := h.assembled.bytes
  zeros := fun q hq hn => zero_of_gap h.assembled hq hn

/-! ## The tests -/

theorem neighbours_iff (h : p.ranges.Canonical) {start len : Nat} (hlen : 0 < len) :
    (p.ranges.lastLE start).all (fun e => decide (e.2 ≤ start)) = true ∧
      (p.ranges.firstGE start).all (fun e => decide (start + len ≤ e.1)) = true ↔
      ∀ q, start ≤ q → q < start + len → ¬ p.ranges.Covered q := by
  rw [← RangeMap.disjoint_iff h (show start < start + len by omega)]
  simp only [Option.all_eq_true, decide_eq_true_eq]

/-- An entry of the map has been stored up to its end. -/
theorem stop_le_length (h : Assembled frags p) {e : Nat × Nat} (he : e ∈ p.ranges) :
    e.2 ≤ p.event.payload.length := by
  have hne := h.canonical.nonempty e he
  have hlast := h.lt_length ⟨e, he, show e.1 ≤ e.2 - 1 by omega, show e.2 - 1 < e.2 by omega⟩
  omega

theorem checkOverlap_reads (h : Assembled frags p) {e : Nat × Nat} (he : e ∈ p.ranges)
    (start : Nat) (body : Bytes) :
    p.checkOverlap start body e ≠ .error "failed to fill whole buffer" := by
  have hstop := stop_le_length h he
  intro herr
  unfold Pending.checkOverlap at herr
  dsimp only at herr
  split at herr
  · rw [Spool.readAt_eq_some (by omega)] at herr
    exact absurd (ensure_eq_error herr) (by decide)
  · cases herr

theorem checkData_reads (start : Nat) (body : Bytes) :
    p.checkData start body ≠ .error "failed to fill whole buffer" := by
  intro h
  unfold Pending.checkData at h
  rcases ensure_bind_eq_error h with he | h
  · exact absurd he (by decide)
  rcases ensure_bind_eq_error h with he | h
  · exact absurd he (by decide)
  rcases ensure_bind_eq_error h with he | h
  · exact absurd he (by decide)
  rcases ensure_bind_eq_error h with he | h
  · exact absurd he (by decide)
  exact absurd (ensure_eq_error h) (by decide)

theorem pushData_reads (h : Assembled frags p) (start : Nat) (body : Bytes) :
    (p.pushData start body).2 ≠ .error "failed to fill whole buffer" := by
  unfold Pending.pushData
  cases hc : p.checkData start body with
  | error message =>
    dsimp only
    intro he
    exact checkData_reads start body (hc.trans he)
  | ok =>
    dsimp only
    cases ha : RangeMap.absorb (p.checkOverlap start body) (p.ranges.windowStart start)
        (start + body.length) p.ranges.length p.ranges start (start + body.length) with
    | mk ranges result =>
      cases result with
      | error message =>
        obtain ⟨e, he, herr, _⟩ := RangeMap.absorb_error h.canonical ha
        have hread := checkOverlap_reads h (RangeMap.mem_window.mp he).1 start body
        rwa [herr] at hread
      | ok _ => simp

/-- `covers` is the subset test, also for ranges that end behind every offset. -/
theorem covers_iff_subset (h : Assembled frags p)
    (hin : ∀ q, p.ranges.Covered q → q < p.event.metadata.payloadLen.toNat) (start len : Nat) :
    p.covers start len = true ↔ ∀ q, start ≤ q → q < start + len → p.ranges.Covered q := by
  by_cases hmax : start + len ≤ u64Max
  · rw [covers_iff h hmax]
    simp only [h.covered]
  · by_cases hl : len = 0
    · subst hl
      have htrue : p.covers start 0 = true := rfl
      simp only [htrue, true_iff]
      intro q h1 h2
      omega
    · have hfalse : p.covers start len = false := by simp [Pending.covers, hl, hmax]
      rw [hfalse]
      refine iff_of_false Bool.false_ne_true fun hall => ?_
      have hlast := hin _ (hall (start + len - 1) (by omega) (by omega))
      have hsize := p.event.metadata.payloadLen.toNat_lt
      unfold u64Max at hmax
      omega

theorem Gathered.exactTests {m : EventMeta} {own : List Bytes} (h : Gathered m own p) :
    ExactTests p where
  disjoint := fun _ _ hlen => neighbours_iff h.assembled.canonical hlen
  terminates := fun _ _ _ hle => RangeMap.absorb_fuel _ _ h.assembled.canonical le_rfl hle
  exhausts := fun _ _ _ _ _ ha => RangeMap.absorb_exhausts h.assembled.canonical le_rfl ha
  reads := fun start body => pushData_reads h.assembled start body
  covers := fun start len => covers_iff_subset h.assembled h.mapped.inside start len

end

namespace Reassembler

/-- **The range map.** In every state reached by pushes that succeeded, a pending
event maps exactly what the records of its id since its `BEGIN` carried, and the
tests of `push` on the map are exact. -/
theorem range_map_invariant {records : List Bytes} {next : Reassembler}
    {evs : List (Option Event)} (hrun : fresh.run records = .ok (next, evs)) {id : UInt64}
    {p : Pending} (hp : next.pending[id]? = some p) :
    (∃ before start own, (records.filter fun b => recordId b = id) = before ++ start :: own ∧
      recordKind start = recordBegin ∧
      (∀ b ∈ own, recordKind b ≠ recordBegin ∧ recordKind b ≠ recordEnd) ∧
      Mapped (fragmentsOf own) p) ∧ ExactTests p := by
  obtain ⟨os, hslot, _⟩ := run_slot hrun id
  obtain ⟨before, start, m, own, hsplit, hkind, _, hno, hg⟩ := run_openedBy hslot p hp
  exact ⟨⟨before, start, own, hsplit, hkind, hno, hg.mapped⟩, hg.exactTests⟩

/-- A transfer of three bytes that arrived and waits for its `END`. -/
theorem range_map_invariant_bulkOut :
    ∃ next evs p, fresh.run bulkOutRecords = .ok (next, evs) ∧ next.pending[(9 : UInt64)]? = some p ∧
      ExactTests p ∧ p.ranges = [(0, 3)] := by
  refine ⟨_, _, _, rfl, rfl, ?_, by decide⟩
  exact (@range_map_invariant bulkOutRecords _ _ rfl 9 _ rfl).2

end Reassembler
end UsbScope.Capture
