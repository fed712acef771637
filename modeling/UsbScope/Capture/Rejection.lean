import UsbScope.Capture.Gaps
import UsbScope.Capture.Storage

/-! # What a rejected record leaves behind

Most checks come before the first change. Two do not: the bytes of an ISO
fragment are compared while the ranges it touches are merged, and an `END`
record takes its event out before the descriptors are looked at. -/
namespace UsbScope.Capture
open UsbScope.Lib UsbScope.Common

namespace Reassembler

/-- A state that calls of the reassembler lead to, whatever they return. -/
inductive Reachable : Reassembler → Prop where
  | fresh : Reachable fresh
  | push {self : Reassembler} (h : Reachable self) (b : Bytes) : Reachable (self.push b).1
  | finish {self : Reassembler} (h : Reachable self) : Reachable self.finish
  | stopAtLimit {self : Reassembler} (h : Reachable self) : Reachable self.stopAtLimit

end Reassembler

/-- The range `e` holds other bytes than the fragment, where they overlap. -/
def Pending.Conflicts (self : Pending) (start : Nat) (body : Bytes) (e : Nat × Nat) : Prop :=
  max e.1 start < min e.2 (start + body.length) ∧
    (self.event.payload.drop (max e.1 start)).take
        (min e.2 (start + body.length) - max e.1 start) ≠
      (body.drop (max e.1 start - start)).take (min e.2 (start + body.length) - max e.1 start)

/-- Stored ranges can be read back, so an overlap fails only for its bytes. -/
theorem checkOverlap_eq {p : Pending} (h : Stored p) (start : Nat) (body : Bytes) {e : Nat × Nat}
    (he : e ∈ p.ranges) :
    (p.checkOverlap start body e = .ok () ∧ ¬ p.Conflicts start body e) ∨
      (p.checkOverlap start body e = .error "conflicting overlapping ISO payload" ∧
        p.Conflicts start body e) := by
  have hlen := h.ranges e he
  unfold Pending.checkOverlap Pending.Conflicts
  dsimp only
  split
  · rename_i hlt
    rw [Spool.readAt, if_pos (by omega)]
    dsimp only
    unfold ensure
    split
    · rename_i heq
      exact .inl ⟨rfl, fun hne => hne.2 heq⟩
    · rename_i hne
      exact .inr ⟨rfl, hlt, hne⟩
  · rename_i hlt
    exact .inl ⟨rfl, fun hc => hlt hc.1⟩

/-- Outside isochronous transfers the neighbour tests leave no overlap. -/
theorem checkData_iso {p : Pending} {start : Nat} {body : Bytes} {e : Nat × Nat}
    (hcan : p.ranges.Canonical) (h : p.checkData start body = .ok ()) (he : e ∈ p.ranges)
    (hc : p.Conflicts start body e) : p.event.metadata.transferType = 0 := by
  unfold Pending.checkData at h
  simp only [ensure_bind_eq_ok, ensure_eq_ok] at h
  obtain ⟨_, _, _, hprev, hnext⟩ := h
  by_contra hiso
  have hlt := hc.1
  have hspan : start < start + body.length := by omega
  refine (RangeMap.disjoint_iff hcan hspan).mp ⟨fun x hx => ?_, fun x hx => ?_⟩ (max e.1 start)
    (le_max_right _ _) (by omega) ⟨e, he, le_max_left _ _, by omega⟩
  · simpa [hx] using hprev.resolve_left hiso
  · simpa [hx] using hnext.resolve_left hiso

/-- The event less the ranges before `c` that the fragment overlaps or touches. -/
def Pending.without (self : Pending) (start : Nat) (c : Nat × Nat) : Pending :=
  { self with ranges := self.ranges.filter fun x => !decide (start ≤ x.2 ∧ x.1 < c.1) }

/-- A rejected fragment changes nothing, unless its bytes conflict with a range
after others were merged. -/
theorem pushData_error {p p' : Pending} {start : Nat} {body : Bytes} {message : String}
    (hcan : p.ranges.Canonical) (hst : Stored p)
    (h : p.pushData start body = (p', .error message)) :
    p' = p ∨ (message = "conflicting overlapping ISO payload" ∧
      p.event.metadata.transferType = 0 ∧ ∃ c ∈ p.ranges, p.Conflicts start body c ∧
        (∀ x ∈ p.ranges, x.1 < c.1 → ¬ p.Conflicts start body x) ∧ p' = p.without start c) := by
  unfold Pending.pushData at h
  split at h
  · cases h
    exact .inl rfl
  · rename_i hcheck
    split at h
    · rename_i ranges message' habsorb
      cases h
      obtain ⟨c, hc, herr, hbefore, rfl⟩ := RangeMap.absorb_error hcan habsorb
      obtain ⟨hmem, hlo, hhi⟩ := RangeMap.mem_window.mp hc
      rcases checkOverlap_eq hst start body hmem with ⟨hok, _⟩ | ⟨hbad, hconf⟩
      · rw [hok] at herr
        cases herr
      rw [hbad] at herr
      cases herr
      have htouch : ∀ x ∈ p.ranges, x.1 < c.1 →
          (p.ranges.windowStart start ≤ x.1 ↔ start ≤ x.2) := by
        intro x hx hlt
        have hiff : (p.ranges.windowStart start ≤ x.1 ∧ x.1 ≤ start + body.length) ↔
            (start ≤ x.2 ∧ x.1 ≤ start + body.length) := RangeMap.mem_window_iff_touches hcan hx
        constructor
        · exact fun hw => (hiff.mp ⟨hw, by omega⟩).1
        · exact fun hw => (hiff.mpr ⟨hw, by omega⟩).1
      refine .inr ⟨rfl, checkData_iso hcan hcheck hmem hconf, c, hmem, hconf, ?_, ?_⟩
      · intro x hx hlt hxc
        have hwin : x ∈ p.ranges.window (p.ranges.windowStart start) (start + body.length) := by
          refine RangeMap.mem_window.mpr ⟨hx, (htouch x hx hlt).mpr ?_, by omega⟩
          have := hxc.1
          omega
        rcases checkOverlap_eq hst start body hx with ⟨_, hno⟩ | ⟨hbad, _⟩
        · exact hno hxc
        · rw [hbefore x hwin hlt] at hbad
          cases hbad
      · unfold Pending.without
        congr 1
        refine List.filter_congr fun x hx => ?_
        by_cases hlt : x.1 < c.1
        · simp [hlt, htouch x hx hlt]
        · simp [hlt]
    · cases h

theorem pushData_canonical {p : Pending} (h : p.ranges.Canonical) (start : Nat) (body : Bytes) :
    (p.pushData start body).1.ranges.Canonical := by
  unfold Pending.pushData
  split
  · exact h
  · rename_i hcheck
    split
    · rename_i ranges message habsorb
      obtain ⟨c, _, _, _, rfl⟩ := RangeMap.absorb_error h habsorb
      exact h.filter _
    · rename_i ranges first last habsorb
      have hne : body ≠ [] := by
        unfold Pending.checkData at hcheck
        rw [ensure_bind_eq_ok] at hcheck
        exact hcheck.1
      have hlt : start < start + body.length := by
        have := List.length_pos_iff.mpr hne
        omega
      exact (RangeMap.insert_absorbed h hlt le_rfl habsorb).1

/-- The check of an event fails only for a descriptor outside the buffer. -/
theorem isoSpan_error {requestedLen span : Nat} {ds : List IsoDescriptor} {message : String}
    (h : isoSpan requestedLen ds span = .error message) :
    message = "ISO descriptor outside URB buffer" ∧ ∃ d ∈ ds, requestedLen < d.stop := by
  induction ds generalizing span with
  | nil => cases h
  | cons d rest ih =>
    rw [isoSpan] at h
    by_cases hd : d.stop ≤ requestedLen
    · rw [ensure_of _ hd, Result.ok_bind] at h
      obtain ⟨hmsg, x, hx, hlt⟩ := ih h
      exact ⟨hmsg, x, List.mem_cons_of_mem _ hx, hlt⟩
    · unfold ensure at h
      rw [if_neg hd] at h
      cases h
      exact ⟨rfl, d, List.mem_cons_self, Nat.lt_of_not_le hd⟩

theorem isComplete_error {p : Pending} {body : Bytes} {message : String}
    (h : p.isComplete body = .error message) :
    message = "ISO descriptor outside URB buffer" ∧ p.event.metadata.transferType = 0 ∧
      ∃ d ∈ p.event.iso, p.event.metadata.requestedLen.toNat < d.stop := by
  unfold Pending.isComplete at h
  rcases Result.bind_eq_error.mp h with hspan | ⟨n, _, hpure⟩
  · unfold Pending.span at hspan
    dsimp only at hspan
    split at hspan
    · rename_i hiso
      obtain ⟨hmsg, hd⟩ := isoSpan_error hspan
      exact ⟨hmsg, hiso, hd⟩
    · cases hspan
  · cases hpure

namespace Reassembler

/-- What every call keeps of the pending events. -/
theorem Reachable.kept {self : Reassembler} (h : self.Reachable) (id : UInt64) (p : Pending)
    (hp : self.pending[id]? = some p) : p.ranges.Canonical ∧ Stored p := by
  induction h generalizing id p with
  | fresh =>
    rw [show Reassembler.fresh.pending = ∅ from rfl, Std.ExtTreeMap.getElem?_empty] at hp
    cases hp
  | push h b ih =>
    refine push_keeps (P := fun p => p.ranges.Canonical ∧ Stored p) ?_ ?_ ?_ ih b id p hp
    · exact fun b m hm => ⟨RangeMap.canonical_nil, stored_opened hm⟩
    · exact fun p start body hp => ⟨pushData_canonical hp.1 start body, pushData_stored hp.2 start body⟩
    · intro p p' offset body hp hpush
      refine ⟨?_, pushIso_stored hp.2 hpush⟩
      obtain ⟨_, _, rfl⟩ := Gathered.pushIso_ok_iff.mp hpush
      exact hp.1
  | finish h ih =>
    change (∅ : Std.ExtTreeMap UInt64 Pending)[id]? = some p at hp
    rw [Std.ExtTreeMap.getElem?_empty] at hp
    cases hp
  | stopAtLimit h ih =>
    change (∅ : Std.ExtTreeMap UInt64 Pending)[id]? = some p at hp
    rw [Std.ExtTreeMap.getElem?_empty] at hp
    cases hp

theorem Reachable.run {self next : Reassembler} {records : List Bytes} {evs : List (Option Event)}
    (h : self.Reachable) (hrun : self.run records = .ok (next, evs)) : next.Reachable := by
  induction records generalizing self evs with
  | nil =>
    cases hrun
    exact h
  | cons b rest ih =>
    obtain ⟨mid, out, outs, hstep, hrest, -⟩ := Machine.run_cons.mp hrun
    unfold step at hstep
    split at hstep
    · cases hstep
    · rename_i heq
      cases hstep
      have hmid := h.push b
      rw [heq] at hmid
      exact ih hmid hrest

theorem insert_same {pending : Std.ExtTreeMap UInt64 Pending} {id : UInt64} {p : Pending}
    (h : pending[id]? = some p) : pending.insert id p = pending := by
  refine Std.ExtTreeMap.ext_getElem? fun k => ?_
  rw [Std.ExtTreeMap.getElem?_insert]
  split
  · rename_i hk
    rw [← Std.LawfulEqCmp.eq_of_compare hk, h]
  · rfl

/-- A rejected record changes nothing, with two exceptions: an `END` record whose
event has a descriptor outside the URB buffer takes the event out, and a `DATA`
record whose bytes conflict with a range of an ISO event takes out the ranges
that it merged before it came to that one. -/
theorem push_rejected {self next : Reassembler} {b : Bytes} {message : String}
    (hr : self.Reachable) (h : self.push b = (next, .error message)) :
    next.stats = self.stats ∧ (next = self ∨ ∃ r p, Record.parse b = .ok r ∧
      self.pending[r.id]? = some p ∧ p.event.metadata.transferType = 0 ∧
      ((r.kind = recordEnd ∧ message = "ISO descriptor outside URB buffer" ∧
          (∃ d ∈ p.event.iso, p.event.metadata.requestedLen.toNat < d.stop) ∧
          next.pending = self.pending.erase r.id) ∨
        (r.kind = recordData ∧ message = "conflicting overlapping ISO payload" ∧
          ∃ c ∈ p.ranges, p.Conflicts r.offset.toNat r.body c ∧
            (∀ x ∈ p.ranges, x.1 < c.1 → ¬ p.Conflicts r.offset.toNat r.body x) ∧
            next.pending = self.pending.insert r.id (p.without r.offset.toNat c)))) := by
  have hends := push_ends self b
  rw [h] at hends
  cases hends with
  | refused _ => exact ⟨rfl, .inl rfl⟩
  | @overlap r p p' _ hparse hk hp hpush =>
    obtain ⟨hcan, hst⟩ := hr.kept r.id p hp
    refine ⟨rfl, ?_⟩
    rcases pushData_error hcan hst hpush with rfl | ⟨hmsg, hiso, c, hc, hconf, hbefore, rfl⟩
    · left
      rw [insert_same hp]
    · exact .inr ⟨r, p, hparse, hp, hiso, .inr ⟨hk, hmsg, c, hc, hconf, hbefore, rfl⟩⟩
  | @unfit r p _ hparse hk _ hp hc =>
    obtain ⟨hmsg, hiso, hd⟩ := isComplete_error hc
    exact ⟨rfl, .inr ⟨r, p, hparse, hp, hiso, .inl ⟨hk, hmsg, hd, rfl⟩⟩⟩

/-- Two stored ranges, and a frame that lies outside the buffer. -/
def strainedRecords : List Bytes :=
  [record recordBegin 9 0 (isoIn 1).wire, frame 0 100 2, record recordData 9 0 [1, 1],
    record recordData 9 4 [2, 2]]

/-- A fragment between the two that touches the first and contradicts the second. -/
def contradiction : Bytes := record recordData 9 2 [3, 3, 7]

theorem push_rejected_strained : ∃ mid evs next p, fresh.run strainedRecords = .ok (mid, evs) ∧
    mid.push contradiction = (next, .error "conflicting overlapping ISO payload") ∧
    next.stats = mid.stats ∧ mid.pending[(9 : UInt64)]? = some p ∧
    p.ranges = [(0, 2), (4, 6)] := by
  refine ⟨_, _, _, _, rfl, rfl, ?_, rfl, by decide⟩
  have hreach := Reachable.fresh.run (show fresh.run strainedRecords = .ok (_, _) from rfl)
  exact (push_rejected (b := contradiction) hreach rfl).1

/-- Both exceptions: the contradiction loses the first range, and the end of the
event loses the event. -/
theorem rejected_not_atomic : ∃ mid evs p, fresh.run strainedRecords = .ok (mid, evs) ∧
    mid.pending[(9 : UInt64)]? = some p ∧ p.ranges = [(0, 2), (4, 6)] ∧
    (∃ next q, mid.push contradiction = (next, .error "conflicting overlapping ISO payload") ∧
      next.pending[(9 : UInt64)]? = some q ∧ q.ranges = [(4, 6)]) ∧
    ∃ next, mid.push (record recordEnd 9 0 (EventEnd.wire ⟨4, 1, complete⟩)) =
        (next, .error "ISO descriptor outside URB buffer") ∧
      next.pending[(9 : UInt64)]? = none := by
  exact ⟨_, _, _, rfl, rfl, by decide, ⟨_, _, rfl, rfl, by decide⟩, ⟨_, rfl, rfl⟩⟩

end Reassembler
end UsbScope.Capture
