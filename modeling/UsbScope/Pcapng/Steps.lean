import UsbScope.Lib.Parser
import UsbScope.Pcapng.ReadBack

/-! # What one block does to the reader

`nextBlock_moves` says once what a block can change, for any input. Everything
about whole files follows from it. -/
namespace UsbScope.Pcapng
open UsbScope.Lib UsbScope.Common UsbScope.Capture

/-- The capture cut the packet: its header is not whole, or bytes are missing. -/
def Packet.truncated (p : Packet) : Prop :=
  p.captured.length < 64 ∨ p.captured.length < p.original.toNat

instance (p : Packet) : Decidable p.truncated := inferInstanceAs (Decidable (_ ∨ _))

/-! ## Input -/

theorem readExact_eq_ok {n : Nat} {message : String} {input : Bytes} {res : Bytes × Bytes} :
    readExact n message input = .ok res ↔
      n ≤ input.length ∧ res = (input.take n, input.drop n) := by
  unfold readExact
  split
  · rename_i h
    simp [h, eq_comm]
  · rename_i h
    simp [h]

theorem skip_eq_ok {n : Nat} {input rest : Bytes} :
    skip n input = .ok rest ↔ n ≤ input.length ∧ rest = input.drop n := by
  rw [skip, Result.bind_eq_ok]
  constructor
  · rintro ⟨res, hres, h⟩
    obtain ⟨hlen, rfl⟩ := readExact_eq_ok.mp hres
    cases h
    exact ⟨hlen, rfl⟩
  · rintro ⟨hlen, rfl⟩
    exact ⟨_, readExact_eq_ok.mpr ⟨hlen, rfl⟩, rfl⟩

theorem readExact_took {n : Nat} {message : String} {input taken rest : Bytes}
    (h : readExact n message input = .ok (taken, rest)) :
    Took (readExact n message) (fun g => (taken, g)) n input rest := by
  obtain ⟨hlen, heq⟩ := readExact_eq_ok.mp h
  obtain ⟨rfl, rfl⟩ := Prod.mk.inj heq
  refine ⟨hlen, rfl, fun g => ?_⟩
  exact readExact_append (by rw [List.length_take, min_eq_left hlen])

theorem skip_took {n : Nat} {input rest : Bytes} (h : skip n input = .ok rest) :
    Took (skip n) id n input rest := by
  obtain ⟨hlen, rfl⟩ := skip_eq_ok.mp h
  refine ⟨hlen, rfl, fun g => ?_⟩
  exact skip_append (by rw [List.length_take, min_eq_left hlen])

theorem footer_took {o : ByteOrder} {size : UInt32} {input rest : Bytes}
    (h : footer o size input = .ok rest) : Took (footer o size) id 4 input rest := by
  unfold footer at h
  obtain ⟨⟨word, left⟩, hword, h⟩ := Result.bind_eq_ok.mp h
  dsimp only at h
  obtain ⟨hsize, h⟩ := ensure_bind_eq_ok.mp h
  cases h
  unfold footer
  refine (readExact_took hword).bind (m := 0) ?_
  simp only [ensure_of _ hsize, Result.ok_bind]
  exact .done id _

/-- The rest of a block that is not looked at. -/
theorem skip_footer_took {α : Type} {o : ByteOrder} {size : UInt32} {n : Nat} {input mid rest : Bytes}
    (out : Bytes → α) (hskip : skip n input = .ok mid) (hfooter : footer o size mid = .ok rest) :
    Took (fun i => skip n i >>= fun g => footer o size g >>= fun g => .ok (out g)) out (n + 4)
      input rest := by
  refine (skip_took hskip).bind (m := 4) ?_
  refine (footer_took hfooter).bind (m := 0) ?_
  exact .done _ _

/-! ## Packets -/

/-- The fields that are settled with the pseudoheader. -/
structure SameHeader (m m' : EventMeta) : Prop where
  urbId : m'.urbId = m.urbId
  device : m'.device = m.device
  transferType : m'.transferType = m.transferType
  eventType : m'.eventType = m.eventType
  setupPresent : m'.setupPresent = m.setupPresent
  hasData : m'.hasData = m.hasData
  isoCount : m'.isoCount = m.isoCount

theorem SameHeader.trans {m m' m'' : EventMeta} (h : SameHeader m m') (h' : SameHeader m' m'') :
    SameHeader m m'' where
  urbId := h'.urbId.trans h.urbId
  device := h'.device.trans h.device
  transferType := h'.transferType.trans h.transferType
  eventType := h'.eventType.trans h.eventType
  setupPresent := h'.setupPresent.trans h.setupPresent
  hasData := h'.hasData.trans h.hasData
  isoCount := h'.isoCount.trans h.isoCount

/-- What the checks of the pseudoheader establish. -/
structure CheckedMeta (m : EventMeta) (captured : Nat) : Prop where
  eventType : m.eventType = submitType ∨ m.eventType = completeType ∨ m.eventType = errorType
  ranges : m.transferType.toNat ≤ 3 ∧ m.device.toNat ≤ 127
  data : m.hasData ≠ 0 ∨ m.payloadLen = 0
  iso : m.transferType = 0 ∨ m.isoCount = 0
  length : captured - 64 = m.isoCount.toNat * 16 + m.payloadLen.toNat

theorem CheckedMeta.of_same {m m' : EventMeta} {captured : Nat} (h : CheckedMeta m captured)
    (hsame : SameHeader m m') (hlen : m'.payloadLen = m.payloadLen) : CheckedMeta m' captured := by
  refine ⟨?_, ?_, ?_, ?_, ?_⟩
  · rw [hsame.eventType]
    exact h.eventType
  · rw [hsame.transferType, hsame.device]
    exact h.ranges
  · rw [hsame.hasData, hlen]
    exact h.data
  · rw [hsame.transferType, hsame.isoCount]
    exact h.iso
  · rw [hsame.isoCount, hlen]
    exact h.length

theorem checkMeta_eq_ok {m m' : EventMeta} {dataLen captured : UInt32}
    (h : checkMeta m dataLen captured = .ok m') : SameHeader m m' ∧ CheckedMeta m' captured.toNat := by
  unfold checkMeta at h
  rw [ensure_bind_eq_ok, ensure_bind_eq_ok, ensure_bind_eq_ok, ensure_bind_eq_ok] at h
  obtain ⟨⟨htype, hranges⟩, hlen, _, ⟨hle, hiso⟩, h⟩ := h
  obtain ⟨hdata, h⟩ := ensure_bind_eq_ok.mp h
  cases h
  have hlt := dataLen.toNat_lt
  refine ⟨⟨rfl, rfl, rfl, rfl, rfl, rfl, rfl⟩, htype, hranges, hdata, hiso, ?_⟩
  rw [UInt32.toNat_ofNat_of_lt' (by simp only [UInt32.size]; omega)]
  dsimp only
  omega

/-- What is known of the descriptors of a packet. -/
structure CheckedIso (m : EventMeta) (known : Bool) (d : IsoDescriptor) : Prop where
  padding : d.padding = 0
  stop : d.stop < 2 ^ 32
  buffer : known = true → d.stop ≤ m.requestedLen.toNat
  inside : m.hasData ≠ 0 → d.length ≠ 0 → d.stop ≤ m.payloadLen.toNat

theorem readDescriptors_eq_ok {o : ByteOrder} {m : EventMeta} {known : Bool} {count : Nat}
    {input rest : Bytes} {iso : List IsoDescriptor}
    (h : readDescriptors o m known count input = .ok (iso, rest)) :
    iso.length = count ∧ ∀ d ∈ iso, CheckedIso m known d := by
  induction count generalizing input iso with
  | zero =>
    cases h
    simp
  | succ count ih =>
    rw [readDescriptors] at h
    obtain ⟨res, hres, h⟩ := Result.bind_eq_ok.mp h
    obtain ⟨hlen, rfl⟩ := readExact_eq_ok.mp hres
    dsimp only at h
    rw [ensure_bind_eq_ok, ensure_bind_eq_ok] at h
    obtain ⟨⟨hstop, hknown⟩, hinside, h⟩ := h
    obtain ⟨⟨tail, left⟩, htail, h⟩ := Result.bind_eq_ok.mp h
    cases h
    obtain ⟨hcount, hall⟩ := ih htail
    refine ⟨by rw [List.length_cons, hcount], fun d hd => ?_⟩
    rcases List.mem_cons.mp hd with rfl | hd
    · refine ⟨rfl, hstop, fun hk => ?_, fun hdata hl => ?_⟩
      · simpa [hk] using hknown
      · exact (hinside.resolve_left hdata).resolve_left hl
    · exact hall d hd

/-- The setup area leaves header and lengths alone; the descriptors are the
declared ones. -/
theorem readSetup_eq_ok {o : ByteOrder} {m m' : EventMeta} {known : Bool} {usb input rest : Bytes}
    {iso : List IsoDescriptor} (hiso : m.transferType = 0 ∨ m.isoCount = 0)
    (h : readSetup o m known usb input = .ok (m', iso, rest)) :
    SameHeader m m' ∧ m'.payloadLen = m.payloadLen ∧ m'.requestedLen = m.requestedLen ∧
      m'.actualLen = m.actualLen ∧ iso.length = m'.isoCount.toNat ∧
      ∀ d ∈ iso, CheckedIso m' known d := by
  unfold readSetup at h
  split at h
  · dsimp only at h
    rw [ensure_bind_eq_ok] at h
    obtain ⟨_, h⟩ := h
    obtain ⟨⟨ds, left⟩, hds, h⟩ := Result.bind_eq_ok.mp h
    cases h
    obtain ⟨hcount, hall⟩ := readDescriptors_eq_ok hds
    exact ⟨⟨rfl, rfl, rfl, rfl, rfl, rfl, rfl⟩, rfl, rfl, rfl, hcount, hall⟩
  · rename_i ht
    have hzero : m.isoCount.toNat = 0 := by
      rw [hiso.resolve_left ht]
      rfl
    split at h
    · cases h
      exact ⟨⟨rfl, rfl, rfl, rfl, rfl, rfl, rfl⟩, rfl, rfl, rfl, hzero.symm, by simp⟩
    · cases h
      exact ⟨⟨rfl, rfl, rfl, rfl, rfl, rfl, rfl⟩, rfl, rfl, rfl, hzero.symm, by simp⟩

theorem readDescriptors_took {o : ByteOrder} {m : EventMeta} {known : Bool} {count : Nat}
    {input rest : Bytes} {iso : List IsoDescriptor}
    (h : readDescriptors o m known count input = .ok (iso, rest)) :
    Took (readDescriptors o m known count) (fun g => (iso, g)) (16 * count) input rest := by
  induction count generalizing input iso with
  | zero =>
    cases h
    exact .done _ _
  | succ count ih =>
    rw [readDescriptors] at h
    obtain ⟨⟨body, input₁⟩, hbody, h⟩ := Result.bind_eq_ok.mp h
    dsimp only at h
    rw [ensure_bind_eq_ok, ensure_bind_eq_ok] at h
    obtain ⟨hstop, hinside, h⟩ := h
    obtain ⟨⟨tail, input₂⟩, htail, h⟩ := Result.bind_eq_ok.mp h
    cases h
    simp only [readDescriptors]
    refine ((readExact_took hbody).bind (m := 16 * count) ?_).cast (by omega)
    simp only [ensure_of _ hstop, ensure_of _ hinside, Result.ok_bind]
    refine (ih htail).bind (m := 0) ?_
    exact .done _ _

theorem readSetup_took {o : ByteOrder} {m m' : EventMeta} {known : Bool} {usb input rest : Bytes}
    {iso : List IsoDescriptor} (hiso : m.transferType = 0 ∨ m.isoCount = 0)
    (h : readSetup o m known usb input = .ok (m', iso, rest)) :
    Took (readSetup o m known usb) (fun g => (m', iso, g)) (16 * m.isoCount.toNat) input rest := by
  unfold readSetup at h
  by_cases ht : m.transferType = 0
  · rw [if_pos ht] at h
    dsimp only at h
    obtain ⟨hcount, h⟩ := ensure_bind_eq_ok.mp h
    obtain ⟨⟨ds, left⟩, hds, h⟩ := Result.bind_eq_ok.mp h
    cases h
    unfold readSetup
    simp only [if_pos ht, ensure_of _ hcount, Result.ok_bind]
    refine (readDescriptors_took hds).bind (m := 0) ?_
    exact .done _ _
  · have hzero : 16 * m.isoCount.toNat = 0 := by
      rw [hiso.resolve_left ht]
      rfl
    rw [if_neg ht] at h
    unfold readSetup
    simp only [if_neg ht, hzero]
    split at h
    · rename_i hs
      cases h
      simp only [if_pos hs]
      exact .done _ _
    · rename_i hs
      cases h
      simp only [if_neg hs]
      exact .done _ _

/-- What the reader makes of a packet that was captured in full, whether or not
it then delivers the event. -/
structure Parsed (r : Reader) (p : Packet) (e : Event) : Prop where
  whole : ¬ p.truncated
  captured : p.captured.length = p.original.toNat
  fits : padded p.captured.length + 32 < 2 ^ 32
  endian : p.endian = r.endian
  interface : ∃ i, r.interfaces[p.interface]? = some i ∧ i.sourceId = e.sourceId
  urbId : e.metadata.urbId = u64 r.endian 0 p.captured
  eventType : e.metadata.eventType = byte 8 p.captured
  wireLen : wireLen e.metadata = u32 r.endian 32 p.captured
  request : requestOf r.requested e.sourceId e =
    if e.requestedKnown then some e.metadata.requestedLen else none
  body : p.captured.length = 64 + (16 * e.iso.length + e.metadata.payloadLen.toNat)
  payload : e.payload = p.captured.drop (64 + 16 * e.iso.length)
  wellformed : lostData e.metadata e.iso (Pcapng.wireLen e.metadata) = false → Wellformed e

/-- What a block can do to the reader. -/
inductive Moves (r : Reader) : Block → Reader → Prop where
  | sectionHeader (endian : ByteOrder) : Moves r .sectionHeader
      { r with endian := endian, inSection := true, interfaces := [], requested := ∅ }
  | interface (i : Interface) (hsource : i.sourceId = r.nextSourceId)
      (hnext : r.nextSourceId.toNat + 1 < 2 ^ 64) : Moves r .interface
      { r with nextSourceId := r.nextSourceId + 1, interfaces := r.interfaces ++ [i] }
  | unknown : Moves r .unknown r
  | truncated (p : Packet) (hcut : p.truncated) (hi : p.interface < r.interfaces.length) :
      Moves r (.packet p none) { r with incomplete := r.incomplete + 1 }
  | lost (p : Packet) (e : Event) (hp : Parsed r p e) : Moves r (.packet p none)
      { r with
        requested := tableAfter r.requested e.sourceId e
        incomplete := r.incomplete + 1 }
  | delivered (p : Packet) (e : Event) (hp : Parsed r p e)
      (hkept : lostData e.metadata e.iso (wireLen e.metadata) = false) :
      Moves r (.packet p (some e)) { r with requested := tableAfter r.requested e.sourceId e }

/-- Pairing settles the lengths of the transfer. -/
theorem pairRequest_eq_ok {requested table : AList fun _ : RequestKey => UInt32} {source : UInt64}
    {m m' : EventMeta} {len : UInt32} {known : Bool}
    (h : pairRequest requested source m len = .ok (m', known, table)) :
    SameHeader m m' ∧ m'.payloadLen = m.payloadLen ∧ wireLen m' = len ∧
      (m'.eventType = submitType → known = true) ∧
      ∀ e : Event, e.metadata.eventType = m'.eventType → e.metadata.urbId = m'.urbId →
        e.metadata.requestedLen = m'.requestedLen →
        requestOf requested source e = (if known then some e.metadata.requestedLen else none) ∧
          tableAfter requested source e = table := by
  unfold pairRequest at h
  split at h
  · rename_i ht
    obtain ⟨_, h⟩ := ensure_bind_eq_ok.mp h
    cases h
    refine ⟨⟨rfl, rfl, rfl, rfl, rfl, rfl, rfl⟩, rfl, if_pos ht, fun _ => rfl,
      fun e he hid hlen => ?_⟩
    rw [requestOf, tableAfter, if_pos (he.trans ht), if_pos (he.trans ht), hlen, hid]
    exact ⟨rfl, rfl⟩
  · rename_i ht
    cases h
    refine ⟨⟨rfl, rfl, rfl, rfl, rfl, rfl, rfl⟩, rfl, if_neg ht, fun hs => absurd hs ht,
      fun e he hid hlen => ?_⟩
    have hsub : e.metadata.eventType ≠ submitType := by
      rw [he]
      exact ht
    rw [requestOf, tableAfter, if_neg hsub, if_neg hsub, hlen, hid]
    refine ⟨?_, rfl⟩
    dsimp only
    cases requested.lookup (source, m.urbId) <;> rfl

theorem readUsb_moves {r r' : Reader} {size captured : UInt32} {interface : Interface}
    {timestamp : UInt64} {index : Nat} {input rest : Bytes} {b : Block}
    (hi : r.interfaces[index]? = some interface) (hlen : 64 ≤ captured.toNat)
    (hblock : padded captured.toNat + 32 < 2 ^ 32)
    (h : readUsb r size captured interface timestamp
      ⟨r.endian, index, input.take captured.toNat, captured⟩ input = .ok (b, r', rest)) :
    Moves r b r' := by
  unfold readUsb at h
  obtain ⟨res, hres, h⟩ := Result.bind_eq_ok.mp h
  obtain ⟨h64, rfl⟩ := readExact_eq_ok.mp hres
  obtain ⟨m, hm, h⟩ := Result.bind_eq_ok.mp h
  obtain ⟨⟨m₁, known, table⟩, hpair, h⟩ := Result.bind_eq_ok.mp h
  obtain ⟨⟨m₂, iso, input₂⟩, hsetup, h⟩ := Result.bind_eq_ok.mp h
  obtain ⟨res, hres, h⟩ := Result.bind_eq_ok.mp h
  obtain ⟨hpayload, rfl⟩ := readExact_eq_ok.mp hres
  obtain ⟨input₃, _, h⟩ := Result.bind_eq_ok.mp h
  obtain ⟨input₄, _, h⟩ := Result.bind_eq_ok.mp h
  obtain ⟨hsame, hchecked⟩ := checkMeta_eq_ok hm
  obtain ⟨hsame₁, hlen₁, hwire, hknown, htable⟩ := pairRequest_eq_ok hpair
  have hchecked₁ := hchecked.of_same hsame₁ hlen₁
  obtain ⟨hsame₂, hlen₂, hreq₂, hact₂, hcount, hdescriptors⟩ :=
    readSetup_eq_ok hchecked₁.iso hsetup
  obtain ⟨hfits, hleft, _⟩ := readSetup_took hchecked₁.iso hsetup
  have hchecked₂ := hchecked₁.of_same hsame₂ hlen₂
  have hheader := (hsame.trans hsame₁).trans hsame₂
  have hbody := hchecked₂.length
  rw [← hsame₂.isoCount, ← hcount] at hleft hfits
  rw [← hcount] at hbody
  have hcaptured : captured.toNat ≤ input.length := by
    rw [hleft, List.length_drop] at hpayload
    rw [List.length_drop] at hfits hpayload
    omega
  have hwireLen : wireLen m₂ = u32 r.endian 32 (input.take 64) := by
    rw [← hwire, wireLen, wireLen, hsame₂.eventType, hreq₂, hact₂]
  have hflag : ∀ x : UInt8, (if x = 0 then (1 : UInt8) else 0).toNat ≤ 1 := by
    intro x
    split <;> decide
  have hparsed : Parsed r ⟨r.endian, index, input.take captured.toNat, captured⟩
      ⟨interface.sourceId, m₂, iso, input₂.take m₂.payloadLen.toNat, false, known⟩ := by
    refine
      { whole := ?_
        captured := by rw [List.length_take, min_eq_left hcaptured]
        fits := by
          rw [List.length_take, min_eq_left hcaptured]
          exact hblock
        endian := rfl
        interface := ⟨interface, hi, rfl⟩
        urbId := ?_
        eventType := ?_
        wireLen := ?_
        request := (htable _ hsame₂.eventType hsame₂.urbId hreq₂).1
        body := by
          rw [List.length_take, min_eq_left hcaptured]
          dsimp only
          omega
        payload := ?_
        wellformed := fun hkept => ?_ }
    · unfold Packet.truncated
      rw [List.length_take, min_eq_left hcaptured]
      dsimp only
      omega
    · rw [hheader.urbId]
      dsimp only [usbMeta]
      rw [u64_take _ (by omega), u64_take _ (by omega)]
    · rw [hheader.eventType]
      dsimp only [usbMeta]
      rw [byte_take _ (by omega), byte_take _ (by omega)]
    · rw [hwireLen, u32_take _ (by omega), u32_take _ (by omega)]
    · dsimp only
      rw [hleft, List.drop_take, List.drop_drop]
      congr 1
      omega
    · exact
        { eventType := hchecked₂.eventType
          ranges := hchecked₂.ranges
          flags := by
            rw [hheader.hasData, hheader.setupPresent]
            exact ⟨hflag _, hflag _⟩
          data := hchecked₂.data
          iso := hchecked₂.iso
          count := hcount
          padding := fun d hd => (hdescriptors d hd).padding
          stop := fun d hd => (hdescriptors d hd).stop
          inside := fun hdata d hd => (hdescriptors d hd).inside hdata
          length := by rw [List.length_take, min_eq_left hpayload]
          known := fun hs => hknown (hsame₂.eventType ▸ hs)
          buffer := fun hk _ d hd => (hdescriptors d hd).buffer hk
          kept := hkept }
  obtain rfl := (htable ⟨interface.sourceId, m₂, iso, input₂.take m₂.payloadLen.toNat, false, known⟩
    hsame₂.eventType hsame₂.urbId hreq₂).2
  rw [← hwireLen] at h
  split at h
  · cases h
    exact .lost _ _ hparsed
  · rename_i hkept
    cases h
    exact .delivered _ _ hparsed (by simpa using hkept)

theorem readPacket_moves {r r' : Reader} {size : UInt32} {input rest : Bytes} {b : Block}
    (h : readPacket r size input = .ok (b, r', rest)) : Moves r b r' := by
  unfold readPacket at h
  dsimp only at h
  rw [ensure_bind_eq_ok] at h
  obtain ⟨hsize, h⟩ := h
  obtain ⟨res, hres, h⟩ := Result.bind_eq_ok.mp h
  obtain ⟨_, rfl⟩ := readExact_eq_ok.mp hres
  obtain ⟨interface, hi, h⟩ := Result.bind_eq_ok.mp h
  rw [context_eq_ok] at hi
  obtain ⟨_, h⟩ := ensure_bind_eq_ok.mp h
  obtain ⟨timestamp, _, h⟩ := Result.bind_eq_ok.mp h
  obtain ⟨hpadded, h⟩ := ensure_bind_eq_ok.mp h
  split at h
  · rename_i hcut
    obtain ⟨input₁, hskip, h⟩ := Result.bind_eq_ok.mp h
    have hlen := (skip_eq_ok.mp hskip).1
    obtain ⟨input₂, _, h⟩ := Result.bind_eq_ok.mp h
    cases h
    refine .truncated _ ?_ (List.getElem?_eq_some_iff.mp hi).1
    unfold padded at hpadded
    unfold Packet.truncated
    dsimp only at hpadded hlen hcut ⊢
    rw [List.length_take, min_eq_left (by omega)]
    exact hcut
  · rename_i hcut
    obtain ⟨heq, h⟩ := ensure_bind_eq_ok.mp h
    rw [← heq] at h
    have hlt := size.toNat_lt
    exact readUsb_moves hi (by omega) (by omega) h

/-! ## Other blocks -/

theorem applyOption_sourceId {o : ByteOrder} {i i' : Interface} {code : UInt16} {value : Bytes}
    {last : Bool} (h : applyOption o i code value = .ok (i', last)) : i'.sourceId = i.sourceId := by
  unfold applyOption at h
  split at h
  · obtain ⟨_, h⟩ := ensure_bind_eq_ok.mp h
    obtain ⟨units, _, h⟩ := Result.bind_eq_ok.mp h
    cases h
    rfl
  · split at h
    · obtain ⟨_, h⟩ := ensure_bind_eq_ok.mp h
      cases h
      rfl
    · split at h
      · obtain ⟨_, h⟩ := ensure_bind_eq_ok.mp h
        cases h
        rfl
      · cases h
        rfl

/-- The options do not touch the number of a source. -/
theorem readOptions_sourceId {o : ByteOrder} {fuel remaining remaining' : Nat} {i i' : Interface}
    {input rest : Bytes} (h : readOptions o fuel remaining i input = .ok (i', remaining', rest)) :
    i'.sourceId = i.sourceId := by
  induction fuel generalizing remaining i input with
  | zero =>
    cases h
    rfl
  | succ fuel ih =>
    rw [readOptions] at h
    split at h
    · cases h
      rfl
    · obtain ⟨res, _, h⟩ := Result.bind_eq_ok.mp h
      dsimp only at h
      rw [ensure_bind_eq_ok] at h
      obtain ⟨_, h⟩ := h
      obtain ⟨⟨value, input₁⟩, _, h⟩ := Result.bind_eq_ok.mp h
      obtain ⟨input₂, _, h⟩ := Result.bind_eq_ok.mp h
      obtain ⟨⟨i₁, last⟩, happly, h⟩ := Result.bind_eq_ok.mp h
      dsimp only at h
      split at h
      · cases h
        exact applyOption_sourceId happly
      · exact (ih h).trans (applyOption_sourceId happly)

theorem readInterface_moves {r r' : Reader} {size : UInt32} {input rest : Bytes} {b : Block}
    (h : readInterface r size input = .ok (b, r', rest)) : Moves r b r' := by
  unfold readInterface at h
  obtain ⟨_, h⟩ := ensure_bind_eq_ok.mp h
  obtain ⟨⟨body, input₁⟩, _, h⟩ := Result.bind_eq_ok.mp h
  obtain ⟨⟨i, remaining, input₂⟩, hoptions, h⟩ := Result.bind_eq_ok.mp h
  obtain ⟨input₃, _, h⟩ := Result.bind_eq_ok.mp h
  obtain ⟨hnext, h⟩ := ensure_bind_eq_ok.mp h
  obtain ⟨input₄, _, h⟩ := Result.bind_eq_ok.mp h
  cases h
  exact .interface i (readOptions_sourceId hoptions) hnext

theorem readSection_moves {r r' : Reader} {header input rest : Bytes} {b : Block}
    (h : readSection r header input = .ok (b, r', rest)) : Moves r b r' := by
  unfold readSection at h
  obtain ⟨⟨magic, input₁⟩, _, h⟩ := Result.bind_eq_ok.mp h
  obtain ⟨endian, _, h⟩ := Result.bind_eq_ok.mp h
  obtain ⟨_, h⟩ := ensure_bind_eq_ok.mp h
  obtain ⟨⟨version, input₂⟩, _, h⟩ := Result.bind_eq_ok.mp h
  obtain ⟨_, h⟩ := ensure_bind_eq_ok.mp h
  obtain ⟨input₃, _, h⟩ := Result.bind_eq_ok.mp h
  obtain ⟨input₄, _, h⟩ := Result.bind_eq_ok.mp h
  cases h
  exact .sectionHeader endian

/-- Every block that the reader takes moves it in one of these ways. -/
theorem nextBlock_moves {r r' : Reader} {input rest : Bytes} {b : Block}
    (h : nextBlock r input = .ok (b, r', rest)) : Moves r b r' := by
  unfold nextBlock at h
  obtain ⟨⟨header, input₁⟩, _, h⟩ := Result.bind_eq_ok.mp h
  dsimp only at h
  split at h
  · exact readSection_moves h
  · obtain ⟨_, h⟩ := ensure_bind_eq_ok.mp h
    rw [ensure_bind_eq_ok] at h
    obtain ⟨_, h⟩ := h
    split at h
    · exact readInterface_moves h
    · split at h
      · exact readPacket_moves h
      · split at h
        · cases h
        · obtain ⟨input₂, _, h⟩ := Result.bind_eq_ok.mp h
          obtain ⟨input₃, _, h⟩ := Result.bind_eq_ok.mp h
          cases h
          exact .unknown

/-! ## Runs -/

/-- What holds of the blocks so far and the reader's state, and is kept by every
move, holds after any number of blocks. -/
theorem readBlocks_rule {P : List Block → Reader → Prop}
    (hstep : ∀ blocks r b r', P blocks r → Moves r b r' → P (blocks ++ [b]) r') {count : Nat}
    {before blocks : List Block} {r₀ r : Reader} {input rest : Bytes} (h0 : P before r₀)
    (h : readBlocks count r₀ input = .ok (blocks, r, rest)) : P (before ++ blocks) r := by
  induction count generalizing before r₀ input blocks with
  | zero =>
    cases h
    rwa [List.append_nil]
  | succ count ih =>
    rw [readBlocks] at h
    split at h
    · cases h
      rwa [List.append_nil]
    · obtain ⟨⟨b, r₁, input₁⟩, hb, h⟩ := Result.bind_eq_ok.mp h
      obtain ⟨⟨bs, r₂, input₂⟩, hbs, h⟩ := Result.bind_eq_ok.mp h
      cases h
      have hall := ih (hstep _ _ _ _ h0 (nextBlock_moves hb)) hbs
      rwa [List.append_assoc] at hall

/-- Every delivered event was made of its packet, and none of its data is lost. -/
theorem delivered_parsed {count : Nat} {blocks : List Block} {r₀ r : Reader} {input rest : Bytes}
    (h : readBlocks count r₀ input = .ok (blocks, r, rest)) :
    ∀ p e, Block.packet p (some e) ∈ blocks → ∃ r, Parsed r p e ∧
      lostData e.metadata e.iso (wireLen e.metadata) = false := by
  have hnone : ∀ p e, Block.packet p (some e) ∈ ([] : List Block) → ∃ r, Parsed r p e ∧
      lostData e.metadata e.iso (wireLen e.metadata) = false := by simp
  have hall := readBlocks_rule (P := fun blocks _ => ∀ p e, Block.packet p (some e) ∈ blocks →
    ∃ r, Parsed r p e ∧ lostData e.metadata e.iso (wireLen e.metadata) = false) ?_ hnone h
  · rwa [List.nil_append] at hall
  · intro blocks r b r' hblocks hmove p e hmem
    rcases List.mem_append.mp hmem with hmem | hmem
    · exact hblocks p e hmem
    · rw [List.mem_singleton] at hmem
      subst hmem
      cases hmove with
      | delivered _ _ hp hkept => exact ⟨r, hp, hkept⟩

end UsbScope.Pcapng
