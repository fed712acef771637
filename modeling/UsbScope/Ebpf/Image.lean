import UsbScope.Ebpf.Agreement
import UsbScope.Capture.Gaps

/-! # The event of a call

What a call of `emit` is meant to deliver, read directly off the URB: its
metadata, the ISO frames, and the bytes of its buffer or scatter-gather list. A
call that loses nothing delivers exactly that. -/
namespace UsbScope.Ebpf
open UsbScope.Lib UsbScope.Common UsbScope.Capture

/-- The first `n` bytes of a buffer of ISO frames, zero between the frames. -/
def isoImage (k : Kernel) (buffer : UInt64) (iso : List IsoDescriptor) (n : Nat) : Bytes :=
  (List.range n).map fun q => if InFrame iso q then k.memory (buffer + UInt64.ofNat q) else 0

namespace Call

def payload (call : Call) (m : EventMeta) (buffer : UInt64) (sg : UInt32) (iso : List IsoDescriptor) :
    Bytes :=
  if m.transferType = 0 then isoImage call.kernel buffer iso m.payloadLen.toNat
  else if sg ≠ 0 then
    (call.kernel.listBytes call.config.memory sg.toNat call.urb.sg).take m.payloadLen.toNat
  else call.kernel.read buffer m.payloadLen.toNat

/-- The event of the URB, if there is one. -/
def image (call : Call) : Option Event :=
  match coreReadUrb call.urb call.base with
  | none => none
  | some (m, buffer, sg) =>
    let iso := frames call.urb (call.eventType = submitType) m.isoCount.toNat
    let m := declare { m with status := call.status } (UInt32.ofNat (isoEnd iso))
    some { sourceId := 0
           metadata := m
           iso := iso
           payload := call.payload m buffer sg iso
           identityKnown := true
           requestedKnown := true }

/-- The measuring pass declares the end of the frames. -/
theorem declare_span {m : EventMeta} {urb : Urb} {buffer : UInt64} {iso : IsoContext}
    (hready : Ready urb (declare m iso.span) buffer iso) :
    declare m iso.span =
      declare m (UInt32.ofNat (isoEnd (frames urb iso.submission m.isoCount.toNat))) := by
  by_cases ht : m.transferType = 0
  · by_cases hdp : m.dataPhase = true
    · have hlen := (hready.iso ht).2.1
      have hphase : (declare m iso.span).dataPhase = m.dataPhase := rfl
      rw [hphase, if_pos hdp] at hlen
      have hspan : (declare m iso.span).payloadLen = iso.span := by simp [declare, hdp, ht]
      rw [hspan] at hlen
      have hcount : (declare m iso.span).isoCount = m.isoCount := rfl
      rw [hcount] at hlen
      rw [← hlen, UInt32.ofNat_toNat]
    · simp [declare, hdp]
  · simp [declare, ht]

end Call

section

variable {call : Call} {m : EventMeta} {buffer : UInt64} {sg : UInt32} {iso : IsoContext}
  {parts : List Part} {id : UInt64} {p : Pending} {body : Bytes}

/-- The stored bytes are those of the buffer or the list. -/
theorem payload_of_checked (hready : Ready call.urb m buffer iso) (hflag : m.hasData.toNat ≤ 1)
    (hb : Body m parts) (hfull : Full m parts)
    (hframes : (descriptors parts).map Prod.snd =
      frames call.urb iso.submission (descriptors parts).length)
    (hsourced : Sourced call.kernel call.config.memory call.urb m sg iso.copy.source iso.submission
      parts)
    (hg : Gathered m (parts.map (Part.record id)) p) (hc : Checked p body) :
    p.event.payload = call.payload m buffer sg (frames call.urb iso.submission m.isoCount.toNat) := by
  have hw := hc.whole hg hflag
  have hmeta := hg.metadata
  have hown := hb.fragmentsOf_records id
  have hiso : p.event.iso = frames call.urb iso.submission m.isoCount.toNat := by
    rw [← hg.descriptors, hb.descriptorsOf_records, hframes, hfull.count]
  have hphase : ∀ q < m.payloadLen.toNat, m.dataPhase = true := by
    intro q hq
    by_contra hdp
    have hzero := hw.declared
    rw [hmeta, if_pos (by simpa using hdp)] at hzero
    omega
  have hcarried : ∀ {content : Nat → UInt8} {q : Nat},
      (∀ f ∈ fragments parts, ∀ b, f.Carries q b → b = content q) →
      (∃ f ∈ fragments parts, f.Has q) → p.event.payload[q]? = some (content q) := by
    intro content q hcontent hhas
    obtain ⟨f, hf, hq⟩ := hhas
    obtain ⟨b, hb'⟩ := hq.carries
    rw [hw.bytes f (hown ▸ hf) q b hb', hcontent f hf b hb']
  refine List.ext_getElem? fun q => ?_
  rcases Nat.lt_or_ge q m.payloadLen.toNat with hq | hq
  · have hdp := hphase q hq
    unfold Call.payload
    split
    · rename_i ht
      rw [isoImage, List.getElem?_map, List.getElem?_range hq, Option.map_some]
      split
      · rename_i hin
        refine @hcarried (fun q => call.kernel.memory (buffer + UInt64.ofNat q)) q ?_ ?_
        · intro f hf b hfb
          rw [hsourced.mirrors (.inr ht) f hf q b hfb, Nat.sub_zero, hready.source]
        · obtain ⟨d, hd, hlo, hhi⟩ := hin
          rw [← hown]
          refine hw.carriedIso (hmeta.symm ▸ hdp) (hmeta.symm ▸ ht) d (hiso.symm ▸ hd) q hlo hhi
      · rename_i hout
        have hlt : q < p.event.payload.length := by rwa [hw.length, hmeta]
        rw [List.getElem?_eq_getElem hlt]
        by_cases hcov : p.ranges.Covered q
        · -- fragments lie inside the frames
          obtain ⟨f, hf, b, hfb, -⟩ := hg.assembled.stored hcov
          rw [hown] at hf
          obtain ⟨d, hd, hlo, hstop⟩ := hsourced.framed ht f hf
          have hhas := hfb.has
          exact absurd ⟨d, hd, hlo.trans hhas.1, hhas.2.trans_le hstop⟩ hout
        · rw [hg.assembled.gaps q _ (List.getElem?_eq_getElem hlt) hcov]
    · rename_i ht
      have hhas : ∃ f ∈ fragments parts, f.Has q := by
        rw [← hown]
        exact hw.carried (hmeta.symm ▸ hdp) (hmeta.symm ▸ ht) q (hmeta.symm ▸ hq)
      split
      · rename_i hsg
        obtain ⟨f, hf, hfq⟩ := hhas
        obtain ⟨b, hfb⟩ := hfq.carries
        rw [hw.bytes f (hown ▸ hf) q b hfb]
        exact (hsourced.follows hsg ht f hf q b hfb).symm
      · rename_i hsg
        rw [Kernel.read, List.getElem?_map, List.getElem?_range hq, Option.map_some]
        refine @hcarried (fun q => call.kernel.memory (buffer + UInt64.ofNat q)) q ?_ hhas
        intro f hf b hfb
        rw [hsourced.mirrors (.inl (not_not.mp hsg)) f hf q b hfb, Nat.sub_zero, hready.source]
  · rw [List.getElem?_eq_none (by rw [hw.length, hmeta]; exact hq), List.getElem?_eq_none]
    unfold Call.payload
    split
    · simpa [isoImage] using hq
    · split
      · exact (List.length_take_le _ _).trans hq
      · simpa using hq

theorem image_of_checked (hread : coreReadUrb call.urb call.base = some (m, buffer, sg))
    (hready : Ready call.urb (Call.declare { m with status := call.status } iso.span) buffer iso)
    (hsub : iso.submission = decide (call.eventType = submitType))
    (hm : ValidMeta (Call.declare { m with status := call.status } iso.span))
    (hb : Body (Call.declare { m with status := call.status } iso.span) parts)
    (hfull : Full (Call.declare { m with status := call.status } iso.span) parts)
    (hframes : (descriptors parts).map Prod.snd =
      frames call.urb iso.submission (descriptors parts).length)
    (hsourced : Sourced call.kernel call.config.memory call.urb
      (Call.declare { m with status := call.status } iso.span) sg iso.copy.source iso.submission parts)
    (hg : Gathered (Call.declare { m with status := call.status } iso.span)
      (parts.map (Part.record id)) p) (hc : Checked p body) : call.image = some p.event := by
  have hspan := Call.declare_span hready
  have hpayload := payload_of_checked hready hm.flags.1 hb hfull hframes hsourced hg hc
  have hiso : p.event.iso = frames call.urb iso.submission m.isoCount.toNat := by
    rw [← hg.descriptors, hb.descriptorsOf_records, hframes, hfull.count]
    rfl
  rw [Call.image, hread, hg.event, hiso, hpayload, hspan, hsub]
  rfl

end

end UsbScope.Ebpf
