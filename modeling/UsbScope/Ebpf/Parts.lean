import UsbScope.Ebpf.Copy
import UsbScope.Capture.Streams

/-! # The consumer's view of a published event

The records between `BEGIN` and `END` are fragments and descriptors (`Part`).
`Body` collects what the reassembler needs to accept them and `Full` what it
needs to find the event complete; with them the slot machine of the event id
can be run. -/
namespace UsbScope.Ebpf
open UsbScope.Lib UsbScope.Common UsbScope.Capture

inductive Part where
  | data (f : Fragment)
  | iso (index : Nat) (d : IsoDescriptor)

def Part.record (id : UInt64) : Part → Bytes
  | .data f => dataRecord id f
  | .iso index d => Common.record recordIso id (UInt64.ofNat index) d.wire

def Part.fragment : Part → Option Fragment
  | .data f => some f
  | .iso _ _ => none

def Part.descriptor : Part → Option (Nat × IsoDescriptor)
  | .data _ => none
  | .iso index d => some (index, d)

def fragments (parts : List Part) : List Fragment := parts.filterMap Part.fragment

def descriptors (parts : List Part) : List (Nat × IsoDescriptor) := parts.filterMap Part.descriptor

@[simp] theorem fragments_append (p q : List Part) :
    fragments (p ++ q) = fragments p ++ fragments q := List.filterMap_append

@[simp] theorem descriptors_append (p q : List Part) :
    descriptors (p ++ q) = descriptors p ++ descriptors q := List.filterMap_append

@[simp] theorem fragments_data (frags : List Fragment) : fragments (frags.map .data) = frags := by
  simp [fragments, List.filterMap_map, Function.comp_def, Part.fragment]

@[simp] theorem descriptors_data (frags : List Fragment) :
    descriptors (frags.map .data) = [] := by
  simp [descriptors, List.filterMap_map, Function.comp_def, Part.descriptor]

@[simp] theorem fragments_iso (index : Nat) (d : IsoDescriptor) : fragments [.iso index d] = [] :=
  rfl

/-- Parts that the reassembler accepts under the metadata `m`. -/
structure Body (m : EventMeta) (parts : List Part) : Prop where
  fits : ∀ f ∈ fragments parts, f.2 ≠ [] ∧ f.2.length ≤ chunkSize ∧ f.stop ≤ m.payloadLen.toNat
  compatible : (fragments parts).Pairwise (Fragment.Compatible m)
  indices : (descriptors parts).map Prod.fst = List.range (descriptors parts).length
  room : (descriptors parts).length ≤ m.isoCount.toNat
  padding : ∀ d ∈ descriptors parts, d.2.padding = 0
  inside : ∀ d ∈ descriptors parts, d.2.stop ≤ m.requestedLen.toNat

/-- Parts that make up the complete event. -/
structure Full (m : EventMeta) (parts : List Part) : Prop where
  count : (descriptors parts).length = m.isoCount.toNat
  declared : m.payloadLen.toNat = declaredPayload m ((descriptors parts).map Prod.snd)
  empty : m.hasData = 0 → fragments parts = []
  iso : m.hasData ≠ 0 → m.transferType = 0 →
    ((fragments parts).map fun f => f.2.length).sum =
      ((descriptors parts).map fun d => d.2.length.toNat).sum ∧
    ∀ d ∈ descriptors parts, ∀ q, d.2.offset.toNat ≤ q → q < d.2.stop →
      ∃ f ∈ fragments parts, f.Has q
  contiguous : m.hasData ≠ 0 → m.transferType ≠ 0 →
    ∀ q < m.payloadLen.toNat, ∃ f ∈ fragments parts, f.Has q

/-! ## Parsing the parts -/

theorem Part.recordId (id : UInt64) (part : Part) : recordId (part.record id) = id := by
  cases part <;> exact recordId_record _ _ _ _

theorem Part.isPart (id : UInt64) (part : Part) : IsPart (part.record id) := by
  cases part with
  | data f => exact .inl (recordKind_record _ _ _ _)
  | iso index d => exact .inr (recordKind_record _ _ _ _)

theorem fragmentOf_data {id : UInt64} {f : Fragment} (h1 : f.1 < 2 ^ 64)
    (h2 : f.2.length ≤ chunkSize) : fragmentOf (dataRecord id f) = some f := by
  rw [fragmentOf, dataRecord, parse_published h2]
  simp [UInt64.toNat_ofNat_of_lt' h1]

theorem descriptorOf_iso {id : UInt64} {index : Nat} {d : IsoDescriptor} (h1 : index < 2 ^ 64)
    (h2 : d.padding = 0) :
    descriptorOf (Part.record id (.iso index d)) = some (index, d) := by
  rw [descriptorOf, Part.record, parse_published (by simp [chunkSize])]
  simp [UInt64.toNat_ofNat_of_lt' h1, isoDescriptor_wire h2]

theorem fragmentOf_iso (id : UInt64) (index : Nat) (d : IsoDescriptor) :
    fragmentOf (Part.record id (.iso index d)) = none := by
  rw [fragmentOf, Part.record, parse_published (by simp [chunkSize])]
  simp [recordIso, recordData]

theorem descriptorOf_data {id : UInt64} {f : Fragment} : descriptorOf (dataRecord id f) = none :=
  descriptorOf_of_kind (by rw [dataRecord, recordKind_record]; decide)

namespace Body
variable {m : EventMeta} {parts : List Part} (h : Body m parts) (id : UInt64)
include h

theorem fragmentsOf_records : fragmentsOf (parts.map (Part.record id)) = fragments parts := by
  rw [fragmentsOf, fragments, List.filterMap_map]
  refine List.filterMap_congr fun part hpart => ?_
  cases part with
  | data f =>
    obtain ⟨_, hlen, hstop⟩ := h.fits f (List.mem_filterMap.mpr ⟨_, hpart, rfl⟩)
    have hlt := m.payloadLen.toNat_lt
    unfold Fragment.stop at hstop
    exact fragmentOf_data (by omega) hlen
  | iso index d => exact fragmentOf_iso id index d

theorem descriptorsOf_records : descriptorsOf (parts.map (Part.record id)) = descriptors parts := by
  rw [descriptorsOf, descriptors, List.filterMap_map]
  refine List.filterMap_congr fun part hpart => ?_
  cases part with
  | data f => exact descriptorOf_data
  | iso index d =>
    have hmem : (index, d) ∈ descriptors parts := List.mem_filterMap.mpr ⟨_, hpart, rfl⟩
    have hidx : index ∈ (descriptors parts).map Prod.fst := List.mem_map.mpr ⟨_, hmem, rfl⟩
    rw [h.indices, List.mem_range] at hidx
    have hroom := h.room
    have hlt := m.isoCount.toNat_lt
    exact descriptorOf_iso (by omega) (h.padding _ hmem)

theorem acceptable : Acceptable m (parts.map (Part.record id)) := by
  refine ⟨?_, ?_, ?_, ?_, ?_⟩
  · intro b hb
    obtain ⟨part, hpart, rfl⟩ := List.mem_map.mp hb
    cases part with
    | data f =>
      obtain ⟨_, hlen, _⟩ := h.fits f (List.mem_filterMap.mpr ⟨_, hpart, rfl⟩)
      have hkind : recordData ≠ recordIso := by decide
      exact ⟨_, parse_published hlen, fun hk => absurd hk hkind⟩
    | iso index d => exact ⟨_, parse_published (by simp [chunkSize]), fun _ => by simp⟩
  · intro f hf
    rw [h.fragmentsOf_records] at hf
    obtain ⟨hne, _, hstop⟩ := h.fits f hf
    have hlt := m.payloadLen.toNat_lt
    exact ⟨hne, by unfold u64Max; omega, hstop⟩
  · rw [h.fragmentsOf_records]
    exact h.compatible
  · rw [h.descriptorsOf_records]
    exact h.indices
  · rw [h.descriptorsOf_records]
    exact h.room

end Body

/-! ## The slot of a published event -/

/-- The `BEGIN` record of an event. -/
def beginRecord (id : UInt64) (m : EventMeta) : Bytes := record recordBegin id 0 m.wire

/-- The `END` record of an event. -/
def endRecord (id : UInt64) (e : EventEnd) : Bytes := record recordEnd id 0 e.wire

theorem metaOf_begin (id : UInt64) {m : EventMeta} (h : ValidMeta m) :
    metaOf (beginRecord id m) = .ok m := by
  unfold metaOf
  refine Result.bind_eq_ok.mpr ⟨_, parse_published (by simp [chunkSize]), ?_⟩
  rw [beginMeta, ensure_bind_eq_ok]
  exact ⟨rfl, decodeMeta_wire h⟩

/-- Up to its `END` the event stays open. -/
theorem run_open (id : UInt64) {m : EventMeta} {parts : List Part} (hm : ValidMeta m)
    (hb : Body m parts) :
    ∃ p, Machine.run slotBytes none (beginRecord id m :: parts.map (Part.record id)) =
        .ok (some p, .opened :: (parts.map (Part.record id)).map fun _ => .stored) ∧
      Gathered m (parts.map (Part.record id)) p := by
  have hparts : ∀ b ∈ parts.map (Part.record id), IsPart b := by
    intro b hb
    obtain ⟨part, _, rfl⟩ := List.mem_map.mp hb
    exact part.isPart id
  obtain ⟨p, hrun, hg⟩ := run_of_acceptable hparts (hb.acceptable id)
  refine ⟨p, Machine.run_cons.mpr ⟨_, _, _, ?_, hrun, rfl⟩, hg⟩
  have hmeta := metaOf_begin id hm
  unfold metaOf at hmeta
  obtain ⟨r, hr, hbm⟩ := Result.bind_eq_ok.mp hmeta
  exact slotBytes_ok_iff.mpr (.opened hr ((parse_ok hr).2.trans (recordKind_record _ _ _ _)) hbm)

/-- The check of the `END` of published parts. -/
theorem checked_iff {id : UInt64} {m : EventMeta} {parts : List Part} {p : Pending} {e : EventEnd}
    (hb : Body m parts) (hg : Gathered m (parts.map (Part.record id)) p)
    (hflag : m.hasData ≠ 0 ↔ m.payloadLen.toNat ≠ 0)
    (hcopied : e.copiedBytes.toNat = ((fragments parts).map fun f => f.2.length).sum)
    (hcount : e.descriptors.toNat = (descriptors parts).length) (hf : e.reason = 0 → Full m parts) :
    Checked p e.wire ↔ e.reason = 0 := by
  obtain ⟨h0, h8, h12⟩ := end_fields e
  have hm := hg.metadata
  have hpc : p.copied = ((fragments parts).map fun f => f.2.length).sum := by
    rw [hg.assembled.copied, hb.fragmentsOf_records]
  have hiso : p.event.iso = (descriptors parts).map Prod.snd := by
    rw [← hg.descriptors, hb.descriptorsOf_records]
  constructor
  · intro hc
    rw [← h12]
    exact hc.reason
  · intro hr
    have hfull := hf hr
    refine ⟨h12.trans hr, by rw [h0, hcopied, hpc], ?_, ?_, ?_, ?_, ?_⟩
    · rw [h8, hm, ← UInt32.toNat_inj, hcount, hfull.count]
    · rw [hiso, List.length_map, hm, hfull.count]
    · rw [hm, hiso]
      exact hfull.declared
    · rw [hm]
      exact hflag
    · unfold Pending.dataComplete
      simp only [hm]
      split
      · rename_i h0
        rw [decide_eq_true_iff, hpc, hfull.empty h0]
        rfl
      · rename_i hne
        split
        · rename_i ht
          obtain ⟨hsum, hcov⟩ := hfull.iso hne ht
          rw [Bool.and_eq_true, decide_eq_true_iff, List.all_eq_true]
          refine ⟨?_, fun d hd => ?_⟩
          · rw [hpc, hsum, hiso, List.map_map]
            rfl
          · have ho := d.offset.toNat_lt
            have hl := d.length.toNat_lt
            rw [covers_iff hg.assembled (by unfold u64Max; omega), hb.fragmentsOf_records]
            rw [hiso] at hd
            obtain ⟨x, hx, rfl⟩ := List.mem_map.mp hd
            exact hcov x hx
        · rename_i ht
          have hl := m.payloadLen.toNat_lt
          rw [covers_iff hg.assembled (by unfold u64Max; omega), hb.fragmentsOf_records]
          intro q _ hq
          exact hfull.contiguous hne ht q (by omega)

/-- The whole stream: delivered without a reason, dropped with one. -/
theorem run_closed (id : UInt64) {m : EventMeta} {parts : List Part} {e : EventEnd}
    (hm : ValidMeta m) (hb : Body m parts) (hflag : m.hasData ≠ 0 ↔ m.payloadLen.toNat ≠ 0)
    (hcopied : e.copiedBytes.toNat = ((fragments parts).map fun f => f.2.length).sum)
    (hcount : e.descriptors.toNat = (descriptors parts).length) (hf : e.reason = 0 → Full m parts) :
    ∃ p, Gathered m (parts.map (Part.record id)) p ∧
      Machine.run slotBytes none
          (beginRecord id m :: (parts.map (Part.record id) ++ [endRecord id e])) =
        .ok (none, .opened :: ((parts.map (Part.record id)).map (fun _ => .stored) ++
          [if e.reason = 0 then .delivered p.event else .dropped])) ∧
      (e.reason = 0 → Checked p e.wire) := by
  obtain ⟨p, hrun, hg⟩ := run_open id hm hb
  have hc := checked_iff hb hg hflag hcopied hcount hf
  refine ⟨p, hg, ?_, hc.mpr⟩
  have hinside : p.DescriptorsInside := by
    intro _ d hd
    rw [← hg.descriptors, hb.descriptorsOf_records] at hd
    obtain ⟨x, hx, rfl⟩ := List.mem_map.mp hd
    rw [hg.metadata]
    exact hb.inside x hx
  have hend : slotBytes (some p) (endRecord id e) =
      .ok (none, if e.reason = 0 then .delivered p.event else .dropped) := by
    have hcomplete : p.isComplete e.wire = .ok (decide (e.reason = 0)) :=
      isComplete_eq_ok.mpr ⟨hinside, by rw [decide_eq_true_iff, hc]⟩
    have hmove := Moves.ended (b := endRecord id e) (parse_published (by simp [chunkSize])) rfl
      ⟨by simp, rfl⟩ hcomplete
    simpa using slotBytes_ok_iff.mpr hmove
  rw [← List.cons_append, Machine.run_append]
  exact ⟨_, _, _, hrun, Machine.run_singleton.mpr ⟨_, hend, rfl⟩, rfl⟩

end UsbScope.Ebpf
