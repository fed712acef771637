import UsbScope.Pcapng.Steps
import UsbScope.Capture.Completeness

/-! # Where written events come from

The writer gets its events from a reassembler or from a reader. Both deliver
only well-formed ones, which is what reading them back rests on. -/
namespace UsbScope.Pcapng
open UsbScope.Lib UsbScope.Common UsbScope.Capture

/-- The events that a reassembler delivered, in order. -/
def Reassembled (events : List Event) : Prop :=
  ∃ records next evs, Reassembler.fresh.run records = .ok (next, evs) ∧ events = evs.filterMap id

/-- The events that a reader delivered, in order, up to any block of its input. -/
def Received (events : List Event) : Prop :=
  ∃ count input blocks r rest, readBlocks count Reader.new input = .ok (blocks, r, rest) ∧
    events = delivered blocks

/-- The events of the first blocks of an input, unless one of them is an error. -/
def deliveredOf (count : Nat) (input : Bytes) : Option (List Event) :=
  match readBlocks count Reader.new input with
  | .ok (blocks, _, _) => some (delivered blocks)
  | .error _ => none

theorem received_of_deliveredOf {count : Nat} {input : Bytes} {events : List Event}
    (h : deliveredOf count input = some events) : Received events := by
  unfold deliveredOf at h
  split at h
  · rename_i blocks r rest hread
    exact ⟨count, input, blocks, r, rest, hread, (Option.some.inj h).symm⟩
  · cases h

/-! ## Reassembled events -/

/-- No payload is missing from an event whose declared length is right. -/
theorem lostData_declared {e : Event}
    (hlen : e.metadata.payloadLen.toNat = declaredPayload e.metadata e.iso)
    (hdata : e.metadata.hasData ≠ 0 ↔ e.metadata.payloadLen.toNat ≠ 0) :
    lostData e.metadata e.iso (wireLen e.metadata) = false := by
  have hwire : (wireLen e.metadata).toNat = if e.metadata.eventType = submitType
      then e.metadata.requestedLen.toNat else e.metadata.actualLen.toNat := by
    unfold wireLen
    split <;> rfl
  rw [declaredPayload_eq, ← hwire] at hlen
  unfold lostData
  rw [Bool.or_eq_false_iff]
  constructor
  · by_contra hlost
    rw [Bool.not_eq_false, Bool.and_eq_true, beq_iff_eq] at hlost
    obtain ⟨hexpected, hnone⟩ := hlost
    have hzero : e.metadata.payloadLen.toNat = 0 := by
      by_contra hne
      exact hdata.mpr hne hnone
    unfold expectedData at hexpected
    rw [Bool.and_eq_true] at hexpected
    obtain ⟨hphase, hexpected⟩ := hexpected
    rw [hphase, if_neg (by simp), hzero] at hlen
    split at hexpected
    · rename_i ht
      rw [if_pos ht] at hlen
      obtain ⟨d, hd, hl⟩ := List.any_eq_true.mp hexpected
      have hle := le_isoEnd hd (by simpa using hl)
      have hpos : d.length.toNat ≠ 0 := fun h0 => by
        have : d.length = 0 := UInt32.toNat_inj.mp h0
        simp [this] at hl
      unfold IsoDescriptor.stop at hle
      omega
    · rename_i ht
      rw [if_neg ht] at hlen
      exact (by simpa using hexpected : wireLen e.metadata ≠ 0) (UInt32.toNat_inj.mp hlen.symm)
  · by_contra hlost
    rw [Bool.not_eq_false] at hlost
    simp only [Bool.and_eq_true, bne_iff_ne, ne_eq] at hlost
    obtain ⟨⟨ht, hpresent⟩, hne⟩ := hlost
    have hpos := hdata.mp hpresent
    have hphase : e.metadata.dataPhase ≠ false := by
      intro hno
      rw [if_pos hno] at hlen
      exact hpos hlen
    rw [if_neg hphase, if_neg ht] at hlen
    exact hne (UInt32.toNat_inj.mp hlen)

structure FromKernel (e : Event) : Prop extends Wellformed e where
  sourceId : e.sourceId = 0
  always : e.requestedKnown = true

theorem fromKernel_of_checked {m : EventMeta} {own : List Bytes} {p : Pending} {body start : Bytes}
    (hm : metaOf start = .ok m) (hg : Gathered m own p) (hin : p.DescriptorsInside)
    (hc : Checked p body) : FromKernel p.event := by
  obtain ⟨_, _, _, hdec⟩ := metaOf_eq_ok hm
  obtain ⟨_, _, htype, hranges, hflags, hdata, hiso, _⟩ := decodeMeta_eq_ok hdec
  have hmeta := hg.metadata
  rw [← hmeta] at htype hranges hflags hdata hiso
  have hknown : p.event.requestedKnown = true := by
    rw [hg.event]
    rfl
  have hwhole := hc.whole hg (hmeta ▸ hflags.1)
  have hstop : ∀ d ∈ p.event.iso, p.event.metadata.transferType = 0 := by
    intro d hd
    refine hiso.resolve_right fun h0 => ?_
    have hcount := hc.count
    rw [h0] at hcount
    rw [List.length_eq_zero_iff.mp hcount] at hd
    simp at hd
  exact
    { eventType := htype
      ranges := hranges
      flags := hflags
      data := hdata
      iso := hiso
      count := hc.count
      padding := by
        intro d hd
        rw [← hg.descriptors] at hd
        obtain ⟨q, hq, rfl⟩ := List.mem_map.mp hd
        obtain ⟨b, _, hb⟩ := List.mem_filterMap.mp hq
        unfold Capture.descriptorOf at hb
        split at hb
        · cases hb
        · split at hb
          · cases hb
            rfl
          · cases hb
      stop := by
        intro d hd
        have := hin (hstop d hd) d hd
        have := p.event.metadata.requestedLen.toNat_lt
        omega
      inside := by
        intro hpresent d hd hl
        have hlen := hc.length
        have hpos := hc.presence.mp hpresent
        rw [declaredPayload_eq, if_pos (hstop d hd)] at hlen
        have hle := le_isoEnd hd hl
        split at hlen
        · exact absurd hlen hpos
        · omega
      length := hwhole.length
      known := fun _ => hknown
      buffer := fun _ ht => hin ht
      kept := lostData_declared hc.length hc.presence
      sourceId := by
        rw [hg.event]
        rfl
      always := hknown }

theorem Reassembled.fromKernel {events : List Event} (h : Reassembled events) :
    ∀ e ∈ events, FromKernel e := by
  obtain ⟨records, next, evs, hrun, rfl⟩ := h
  intro e he
  obtain ⟨ev, hev, rfl⟩ := List.mem_filterMap.mp he
  obtain ⟨j, hj, hget⟩ := List.getElem_of_mem hev
  have hlt : j < records.length := by rwa [← Machine.length_run hrun]
  obtain ⟨mid, mid', ev, hmid, hstep, hout⟩ :=
    Machine.run_at hrun (List.getElem?_eq_getElem hlt)
  rw [List.getElem?_eq_getElem hj, hget] at hout
  cases hout
  obtain ⟨_, _, _, m, p, body, _, _, _, hm, _, hg, _, rfl, hin, hc⟩ :=
    Reassembler.step_delivered hmid hstep
  exact fromKernel_of_checked hm hg hin hc

/-! ## Received events -/

/-- Every event that a reader delivers was made of a packet, with all its data. -/
theorem Received.parsed {events : List Event} (h : Received events) :
    ∀ e ∈ events, ∃ r p, Parsed r p e ∧ lostData e.metadata e.iso (wireLen e.metadata) = false := by
  obtain ⟨count, input, blocks, r, rest, hread, rfl⟩ := h
  intro e he
  obtain ⟨b, hb, hevent⟩ := List.mem_filterMap.mp he
  cases b with
  | packet p event =>
    cases hevent
    obtain ⟨r, hp⟩ := delivered_parsed hread p e hb
    exact ⟨r, p, hp⟩
  | _ => cases hevent

theorem Received.wellformed {events : List Event} (h : Received events) :
    ∀ e ∈ events, Wellformed e := by
  intro e he
  obtain ⟨_, _, hp, hkept⟩ := h.parsed e he
  exact hp.wellformed hkept

end UsbScope.Pcapng
