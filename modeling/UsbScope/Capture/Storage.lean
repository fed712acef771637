import UsbScope.Capture.Completeness

/-! # What is stored, errors or not

A caller may go on after a push that failed. A failed merge leaves fewer ranges
than were stored, never more, so the check at the end still asks for nothing
that is not there. -/
namespace UsbScope.Capture
open UsbScope.Lib UsbScope.Common

/-- An event whose payload is there, as far as lengths and descriptors say. -/
structure Readable (e : Event) : Prop where
  length : e.payload.length = e.metadata.payloadLen.toNat
  inside : e.metadata.hasData ≠ 0 → ∀ d ∈ e.iso, d.length ≠ 0 →
    d.stop ≤ e.metadata.payloadLen.toNat

/-- What every push keeps of a pending event. -/
structure Stored (p : Pending) : Prop where
  ranges : ∀ x ∈ p.ranges, x.2 ≤ p.event.payload.length
  length : p.event.payload.length ≤ p.event.metadata.payloadLen.toNat
  iso : p.event.metadata.transferType = 0 ∨ p.event.metadata.isoCount = 0

theorem stored_opened {b : Bytes} {m : EventMeta} (h : decodeMeta b = .ok m) :
    Stored (Pending.opened m) :=
  ⟨by simp [Pending.opened], Nat.zero_le _, (decodeMeta_eq_ok h).2.2.2.2.2.2.1⟩

theorem checkData_span {p : Pending} {start : Nat} {body : Bytes}
    (h : p.checkData start body = .ok ()) :
    start + body.length ≤ p.event.metadata.payloadLen.toNat := by
  unfold Pending.checkData at h
  rw [ensure_bind_eq_ok, ensure_bind_eq_ok, ensure_bind_eq_ok] at h
  exact h.2.2.1

theorem pushData_stored {p : Pending} (h : Stored p) (start : Nat) (body : Bytes) :
    Stored (p.pushData start body).1 := by
  unfold Pending.pushData
  split
  · exact h
  · rename_i hcheck
    have hspan := checkData_span hcheck
    split
    · rename_i ranges e habsorb
      refine ⟨fun x hx => h.ranges x ?_, h.length, h.iso⟩
      have hx' : x ∈ ranges := hx
      rw [← (Prod.mk.inj habsorb).1] at hx'
      exact RangeMap.absorb_subset hx'
    · rename_i ranges first last habsorb
      have hlen := Spool.length_writeAt p.event.payload start body
      have hgrow : p.event.payload.length ≤ (Spool.writeAt p.event.payload start body).length := by
        omega
      have hlast : last ≤ (Spool.writeAt p.event.payload start body).length :=
        RangeMap.absorb_stop_le (fun x hx => (h.ranges x hx).trans hgrow) (by omega) habsorb
      refine ⟨fun x hx => ?_, ?_, h.iso⟩
      · rcases RangeMap.mem_of_mem_insert hx with rfl | hx
        · exact hlast
        · have hx' : x ∈ ranges := hx
          rw [← (Prod.mk.inj habsorb).1] at hx'
          exact (h.ranges x (RangeMap.absorb_subset hx')).trans hgrow
      · dsimp only
        have hle := h.length
        omega

theorem pushIso_stored {p p' : Pending} {offset : Nat} {body : Bytes} (h : Stored p)
    (hp : p.pushIso offset body = .ok p') : Stored p' := by
  obtain ⟨_, _, rfl⟩ := Gathered.pushIso_ok_iff.mp hp
  exact ⟨h.ranges, h.length, h.iso⟩

/-- A complete event has its payload. -/
theorem Checked.readable {p : Pending} {body : Bytes} (hc : Checked p body) (h : Stored p) :
    Readable p.event := by
  have hcovers : ∀ {start len : Nat}, len ≠ 0 → p.covers start len = true →
      start + len ≤ p.event.payload.length := by
    intro start len hlen hcov
    unfold Pending.covers at hcov
    rw [decide_eq_false hlen, Bool.false_or] at hcov
    cases hlast : p.ranges.lastLE start with
    | none => simp [hlast] at hcov
    | some x =>
      simp only [hlast, Option.any_some, Bool.and_eq_true, decide_eq_true_eq] at hcov
      exact hcov.2.trans (h.ranges x (RangeMap.mem_of_lastLE hlast))
  have hphase : p.event.metadata.payloadLen.toNat ≠ 0 → p.event.metadata.transferType = 0 →
      p.event.metadata.payloadLen.toNat = isoEnd p.event.iso := by
    intro hne ht
    have hlen := hc.length
    rw [declaredPayload_eq, if_pos ht] at hlen
    split at hlen
    · exact absurd hlen hne
    · exact hlen
  refine ⟨le_antisymm h.length ?_, fun hdata d hd hl => ?_⟩
  · by_contra hshort
    have hne : p.event.metadata.payloadLen.toNat ≠ 0 := by omega
    have hdata := hc.presence.mpr hne
    have hcomplete := hc.data
    unfold Pending.dataComplete at hcomplete
    simp only [if_neg hdata] at hcomplete
    split at hcomplete
    · rename_i ht
      have hend := hphase hne ht
      obtain ⟨d, hd, hl, hstop⟩ := isoEnd_mem (hend ▸ hne)
      rw [Bool.and_eq_true, List.all_eq_true] at hcomplete
      have hle := hcovers (fun h0 => hl (UInt32.toNat_inj.mp h0)) (hcomplete.2 d hd)
      unfold IsoDescriptor.stop at hstop
      omega
    · have hle := hcovers hne hcomplete
      omega
  · have hne := hc.presence.mp hdata
    have ht : p.event.metadata.transferType = 0 := by
      refine h.iso.resolve_right fun h0 => ?_
      have hcount := hc.count
      rw [h0] at hcount
      rw [List.length_eq_zero_iff.mp hcount] at hd
      simp at hd
    rw [hphase hne ht]
    exact le_isoEnd hd hl

namespace Reassembler

/-- Push the records one after another, whatever each push returns. -/
def pushAll (self : Reassembler) : List Bytes → Reassembler × List (Result (Option Event))
  | [] => (self, [])
  | b :: rest => (((self.push b).1.pushAll rest).1, (self.push b).2 :: ((self.push b).1.pushAll rest).2)

def AllStored (self : Reassembler) : Prop := ∀ (id : UInt64) p, self.pending[id]? = some p → Stored p

/-! ## How a push ends -/

/-- The ways a push ends, with the state it leaves behind. -/
inductive Ends (self : Reassembler) (b : Bytes) : Reassembler × Result (Option Event) → Prop where
  | refused (message : String) : Ends self b (self, .error message)
  | counted (stats : ReassemblyStats) : Ends self b ({ self with stats := stats }, .ok none)
  | opened {r : Record} {m : EventMeta} (hr : Record.parse b = .ok r)
      (hm : decodeMeta r.body = .ok m) :
      Ends self b ({ self with pending := self.pending.insert r.id (Pending.opened m) }, .ok none)
  | data {r : Record} {p p' : Pending} (hr : Record.parse b = .ok r) (hk : r.kind = recordData)
      (hp : self.pending[r.id]? = some p)
      (hpush : p.pushData r.offset.toNat r.body = (p', .ok ())) :
      Ends self b ({ self with pending := self.pending.insert r.id p' }, .ok none)
  | overlap {r : Record} {p p' : Pending} {message : String} (hr : Record.parse b = .ok r)
      (hk : r.kind = recordData) (hp : self.pending[r.id]? = some p)
      (hpush : p.pushData r.offset.toNat r.body = (p', .error message)) :
      Ends self b ({ self with pending := self.pending.insert r.id p' }, .error message)
  | iso {r : Record} {p p' : Pending} (hr : Record.parse b = .ok r) (hk : r.kind = recordIso)
      (hp : self.pending[r.id]? = some p) (hpush : p.pushIso r.offset.toNat r.body = .ok p') :
      Ends self b ({ self with pending := self.pending.insert r.id p' }, .ok none)
  | unfit {r : Record} {p : Pending} {message : String} (hr : Record.parse b = .ok r)
      (hk : r.kind = recordEnd) (hend : r.body.length = 16 ∧ r.offset = 0)
      (hp : self.pending[r.id]? = some p) (hc : p.isComplete r.body = .error message) :
      Ends self b ({ self with pending := self.pending.erase r.id }, .error message)
  | closed {r : Record} {p : Pending} {complete : Bool} (stats : ReassemblyStats)
      (hr : Record.parse b = .ok r) (hk : r.kind = recordEnd) (hp : self.pending[r.id]? = some p)
      (hc : p.isComplete r.body = .ok complete) :
      Ends self b (⟨self.pending.erase r.id, stats⟩,
        .ok (if complete then some p.event else none))

theorem pushEnd_ends {self : Reassembler} {b : Bytes} {r : Record} {p : Pending}
    (hr : Record.parse b = .ok r) (hk : r.kind = recordEnd) (hp : self.pending[r.id]? = some p) :
    Ends self b (self.pushEnd r p) := by
  unfold pushEnd
  split
  · rename_i hend
    dsimp only
    split
    · rename_i hc
      exact .unfit hr hk hend hp hc
    · rename_i hc
      exact .closed _ hr hk hp hc
    · rename_i hc
      exact .closed _ hr hk hp hc
  · exact .refused _

theorem pushRecord_ends {self : Reassembler} {b : Bytes} {r : Record}
    (hr : Record.parse b = .ok r) : Ends self b (self.pushRecord r) := by
  unfold pushRecord
  split
  · unfold pushStats
    split
    · exact .counted _
    · exact .refused _
  split
  · unfold pushBegin
    dsimp only
    split
    · exact .refused _
    · rename_i m hm
      rw [ensure_bind_eq_ok, ensure_bind_eq_ok, ensure_bind_eq_ok] at hm
      exact .opened hr hm.2.2.2
  split
  · exact .refused _
  rename_i hkind
  split
  · exact .counted _
  · rename_i p hp
    split
    · rename_i hk
      split
      · rename_i hpush
        exact .overlap hr hk hp hpush
      · rename_i hpush
        exact .data hr hk hp hpush
    · rename_i hdata
      split
      · rename_i hk
        split
        · exact .refused _
        · rename_i hpush
          exact .iso hr hk hp hpush
      · rename_i hiso
        have hk : r.kind = recordEnd := by tauto
        exact pushEnd_ends hr hk hp

theorem push_ends (self : Reassembler) (b : Bytes) : Ends self b (self.push b) := by
  unfold push
  split
  · exact .refused _
  · rename_i hr
    exact pushRecord_ends hr

/-- Every push keeps what opening an event, storing a fragment and appending a
descriptor keep. -/
theorem push_keeps {P : Pending → Prop} (hopened : ∀ b m, decodeMeta b = .ok m → P (.opened m))
    (hdata : ∀ p start body, P p → P (p.pushData start body).1)
    (hiso : ∀ p p' offset body, P p → p.pushIso offset body = .ok p' → P p')
    {self : Reassembler} (h : ∀ (id : UInt64) p, self.pending[id]? = some p → P p) (b : Bytes)
    (id : UInt64) (p : Pending) (hp : (self.push b).1.pending[id]? = some p) : P p := by
  have hinsert : ∀ (k : UInt64) (q : Pending), P q →
      (self.pending.insert k q)[id]? = some p → P p := by
    intro k q hq hget
    rw [Std.ExtTreeMap.getElem?_insert] at hget
    split at hget
    · cases hget
      exact hq
    · exact h id p hget
  have herase : ∀ k : UInt64, (self.pending.erase k)[id]? = some p → P p := by
    intro k hget
    rw [Std.ExtTreeMap.getElem?_erase] at hget
    split at hget
    · cases hget
    · exact h id p hget
  have hends := push_ends self b
  generalize self.push b = out at hends hp
  cases hends with
  | refused _ => exact h id p hp
  | counted _ => exact h id p hp
  | opened hr hm => exact hinsert _ _ (hopened _ _ hm) hp
  | @data r q q' hr hk hq hpush =>
    have hkeep := hdata q r.offset.toNat r.body (h _ _ hq)
    rw [hpush] at hkeep
    exact hinsert _ _ hkeep hp
  | @overlap r q q' message hr hk hq hpush =>
    have hkeep := hdata q r.offset.toNat r.body (h _ _ hq)
    rw [hpush] at hkeep
    exact hinsert _ _ hkeep hp
  | iso hr hk hq hpush => exact hinsert _ _ (hiso _ _ _ _ (h _ _ hq) hpush) hp
  | unfit hr hk hend hq hc => exact herase _ hp
  | closed _ hr hk hq hc => exact herase _ hp

theorem push_stored {self : Reassembler} (h : self.AllStored) (b : Bytes) :
    (self.push b).1.AllStored ∧ ∀ e, (self.push b).2 = .ok (some e) → Readable e := by
  refine ⟨push_keeps (fun _ _ hm => stored_opened hm) (fun p start body hp =>
    pushData_stored hp start body) (fun p p' offset body hp hpush => pushIso_stored hp hpush) h b, ?_⟩
  intro e he
  have hends := push_ends self b
  generalize self.push b = out at hends he
  cases hends with
  | refused _ => cases he
  | counted _ => cases he
  | opened hr hm => cases he
  | data hr hk hq hpush => cases he
  | overlap hr hk hq hpush => cases he
  | iso hr hk hq hpush => cases he
  | unfit hr hk hend hq hc => cases he
  | @closed r p complete _ hr hk hq hc =>
    cases complete with
    | false => cases he
    | true =>
      cases he
      exact ((isComplete_eq_ok.mp hc).2.mp rfl).readable (h _ _ hq)

/-- Every event that a push returns is readable, whatever was pushed before. -/
theorem pushAll_readable {self : Reassembler} (h : self.AllStored) {records : List Bytes} {e : Event}
    (he : .ok (some e) ∈ (self.pushAll records).2) : Readable e := by
  induction records generalizing self with
  | nil => cases he
  | cons b rest ih =>
    obtain ⟨hnext, hread⟩ := push_stored h b
    rcases List.mem_cons.mp he with heq | hmem
    · exact hread e heq.symm
    · exact ih hnext hmem

theorem fresh_stored : fresh.AllStored := by
  intro id p hp
  rw [show fresh.pending = ∅ from rfl, Std.ExtTreeMap.getElem?_empty] at hp
  cases hp

end Reassembler
end UsbScope.Capture
