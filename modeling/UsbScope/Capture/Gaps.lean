import UsbScope.Lib.Intervals
import UsbScope.Capture.Completeness

/-! # The gaps between ISO frames

The `END` check compares the bytes copied with the sum of the frame lengths and
asks for coverage of every frame. When no two frames overlap this leaves no room
for other data. When they do, a `DATA` record can bring bytes that belong to no
frame, and the gap they land in is not zero. -/
namespace UsbScope.Capture
open UsbScope.Lib UsbScope.Common

/-- A position inside some ISO frame. -/
def InFrame (iso : List IsoDescriptor) (q : Nat) : Prop :=
  ∃ d ∈ iso, d.offset.toNat ≤ q ∧ q < d.stop

instance (iso : List IsoDescriptor) (q : Nat) : Decidable (InFrame iso q) :=
  inferInstanceAs (Decidable (∃ d ∈ iso, _))

/-- The payload between the frames is zero. -/
def GapsZero (e : Event) : Prop :=
  ∀ q < e.metadata.payloadLen.toNat, ¬ InFrame e.iso q → e.payload[q]? = some 0

instance (e : Event) : Decidable (GapsZero e) :=
  inferInstanceAs (Decidable (∀ q < _, _))

/-- The records of an id behind its last `BEGIN`. -/
def sinceBegin (records : List Bytes) (id : UInt64) : List Bytes :=
  ((records.filter fun x => recordId x = id).reverse.takeWhile
    fun x => recordKind x ≠ recordBegin).reverse

/-- What `DATA` records carry outside the frames of the `ISO` records is zero. -/
def StraysZero (own : List Bytes) : Prop :=
  ∀ f ∈ fragmentsOf own, ∀ q x, f.Carries q x →
    ¬ InFrame ((descriptorsOf own).map Prod.snd) q → x = 0

/-- No two frames share a byte. -/
def FramesApart (iso : List IsoDescriptor) : Prop :=
  (iso.map fun d => (d.offset.toNat, d.length.toNat)).Pairwise Intervals.Apart

theorem sinceBegin_eq {front between : List Bytes} {start : Bytes} {id : UInt64}
    (hid : recordId start = id) (hkind : recordKind start = recordBegin)
    (hno : ∀ x ∈ between, recordId x = id → recordKind x ≠ recordBegin) :
    sinceBegin (front ++ start :: between) id = between.filter fun x => recordId x = id := by
  have hall : ∀ x ∈ (between.filter fun x => recordId x = id).reverse,
      decide (recordKind x ≠ recordBegin) = true := by
    intro x hx
    rw [List.mem_reverse, List.mem_filter] at hx
    exact decide_eq_true (hno x hx.1 (of_decide_eq_true hx.2))
  rw [sinceBegin, List.filter_append, List.filter_cons_of_pos (by simpa using hid),
    List.reverse_append, List.reverse_cons, List.append_assoc, List.takeWhile_append_of_pos hall,
    List.singleton_append, List.takeWhile_cons_of_neg (by simp [hkind]), List.append_nil,
    List.reverse_reverse]

section
variable {m : EventMeta} {own : List Bytes} {p : Pending} {body : Bytes}

/-- The gaps hold what the `DATA` records brought there, and zeros. -/
theorem gapsZero_iff (hc : Checked p body) (hg : Gathered m own p) (hflag : m.hasData.toNat ≤ 1) :
    GapsZero p.event ↔ StraysZero own := by
  have hwhole := hc.whole hg hflag
  constructor
  · intro hzero f hf q x hx hout
    rw [hg.descriptors] at hout
    have hlt := Nat.lt_of_lt_of_le hx.has.2 (hg.fits f hf).2.2
    rw [← hg.metadata] at hlt
    have hat := hzero q hlt hout
    rw [hwhole.bytes f hf q x hx] at hat
    exact Option.some.inj hat
  · intro hstray q hq hout
    by_cases hcov : p.ranges.Covered q
    · obtain ⟨f, hf, x, hx, hat⟩ := hg.assembled.stored hcov
      rw [hat, hstray f hf q x hx (by rw [hg.descriptors]; exact hout)]
    · have hlt : q < p.event.payload.length := by rwa [hwhole.length]
      rw [List.getElem?_eq_getElem hlt,
        hg.assembled.gaps q _ (List.getElem?_eq_getElem hlt) hcov]

/-- With frames apart the byte count leaves no room for stray data. -/
theorem straysZero_of_apart (hc : Checked p body) (hg : Gathered m own p)
    (ht : p.event.metadata.transferType = 0) (hapart : FramesApart p.event.iso) :
    StraysZero own := by
  intro f hf q x hx hout
  refine absurd ?_ hout
  have hlt := Nat.lt_of_lt_of_le hx.has.2 (hg.fits f hf).2.2
  have hdata : p.event.metadata.hasData ≠ 0 := hc.presence.mpr (by rw [hg.metadata]; omega)
  have hsum : p.copied = (p.event.iso.map fun d => d.length.toNat).sum := by
    have hcomplete := hc.data
    unfold Pending.dataComplete at hcomplete
    simp only [if_neg hdata, if_pos ht, Bool.and_eq_true, decide_eq_true_eq] at hcomplete
    exact hcomplete.1
  have hcover : Intervals.positions (p.event.iso.map fun d => (d.offset.toNat, d.length.toNat)) ⊆
      Intervals.positions ((fragmentsOf own).map fun f => (f.1, f.2.length)) := by
    intro q hq
    rw [Intervals.mem_positions] at hq ⊢
    obtain ⟨i, hi, hle, hlt⟩ := hq
    obtain ⟨d, hd, rfl⟩ := List.mem_map.mp hi
    obtain ⟨f, hf, hhas⟩ := (hc.covered hg hdata).2 ht d hd q hle hlt
    exact ⟨_, List.mem_map_of_mem hf, hhas⟩
  have hexact := Intervals.cover_exact hapart hcover (by
    rw [Intervals.total, Intervals.total, List.map_map, List.map_map]
    exact le_of_eq (hg.assembled.copied.symm.trans hsum))
  have hq : q ∈ Intervals.positions ((fragmentsOf own).map fun f => (f.1, f.2.length)) :=
    Intervals.mem_positions.mpr ⟨_, List.mem_map_of_mem hf, hx.has⟩
  rw [hexact, Intervals.mem_positions] at hq
  obtain ⟨i, hi, hle, hlt⟩ := hq
  rw [← hg.descriptors] at hi
  obtain ⟨d, hd, rfl⟩ := List.mem_map.mp hi
  exact ⟨d, hd, hle, hlt⟩

end

namespace Reassembler

/-- **ISO gaps.** In a delivered ISO event the payload between the frames is
zero exactly when its `DATA` records carry nothing but zeros there. When no two
frames overlap, it always is. -/
theorem iso_gaps_zero_iff {records : List Bytes} {b : Bytes} {mid next : Reassembler}
    {evs : List (Option Event)} {e : Event} (hrun : fresh.run records = .ok (mid, evs))
    (hstep : mid.step b = .ok (next, some e)) (hiso : e.metadata.transferType = 0) :
    (GapsZero e ↔ StraysZero (sinceBegin records (recordId b))) ∧
      (FramesApart e.iso → GapsZero e) := by
  obtain ⟨front, start, between, m, p, body, rfl, hid, hst, hm, hno, hg, _, rfl, _, hc⟩ :=
    step_delivered hrun hstep
  obtain ⟨_, _, _, hdec⟩ := metaOf_eq_ok hm
  have hiff := gapsZero_iff hc hg (decodeMeta_eq_ok hdec).2.2.2.2.1.1
  rw [sinceBegin_eq hid hst fun x hx hxid => (hno x hx hxid).1]
  exact ⟨hiff, fun hapart => hiff.mpr (straysZero_of_apart hc hg hiso hapart)⟩

/-- An ISO IN completion over eight bytes of buffer. -/
def isoIn (frames : UInt32) : EventMeta :=
  { EventMeta.zero with
    eventType := completeType
    endpoint := 0x81
    requestedLen := 8
    payloadLen := 8
    hasData := 1
    isoCount := frames }

def frame (index : UInt64) (offset length : UInt32) : Bytes :=
  record recordIso 9 index (IsoDescriptor.wire ⟨0, offset, length, 0⟩)

/-- Two frames and their bytes. -/
def apartRecords : List Bytes :=
  [record recordBegin 9 0 (isoIn 2).wire, frame 0 0 2, frame 1 6 2,
    record recordData 9 0 [1, 1], record recordData 9 6 [2, 2]]

def apartEnd : Bytes := record recordEnd 9 0 (EventEnd.wire ⟨4, 2, complete⟩)

theorem iso_gaps_zero_iff_apart : ∃ mid evs next e, fresh.run apartRecords = .ok (mid, evs) ∧
    mid.step apartEnd = .ok (next, some e) ∧ e.payload = [1, 1, 0, 0, 0, 0, 2, 2] ∧ GapsZero e ∧
    StraysZero (sinceBegin apartRecords (recordId apartEnd)) := by
  refine ⟨_, _, _, _, rfl, rfl, by decide, ?_⟩
  obtain ⟨hiff, hapart⟩ := @iso_gaps_zero_iff apartRecords apartEnd _ _ _ _ rfl rfl (by decide)
  have hzero := hapart (List.pairwise_pair.mpr (.inl (by decide)))
  exact ⟨hzero, hiff.mp hzero⟩

/-- The first frame is listed twice; the bytes that are missing for it are sent
into the gap. -/
def strayRecords : List Bytes :=
  [record recordBegin 9 0 (isoIn 3).wire, frame 0 0 2, frame 1 0 2, frame 2 6 2,
    record recordData 9 0 [1, 1], record recordData 9 2 [9, 9], record recordData 9 6 [2, 2]]

def strayEnd : Bytes := record recordEnd 9 0 (EventEnd.wire ⟨6, 3, complete⟩)

theorem iso_gap_filled : ∃ mid evs next e, fresh.run strayRecords = .ok (mid, evs) ∧
    mid.step strayEnd = .ok (next, some e) ∧ e.metadata.transferType = 0 ∧
    e.payload = [1, 1, 9, 9, 0, 0, 2, 2] ∧ ¬ GapsZero e := by
  refine ⟨_, _, _, _, rfl, rfl, by decide, by decide, ?_⟩
  decide

end Reassembler
end UsbScope.Capture
