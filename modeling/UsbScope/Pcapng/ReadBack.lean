import UsbScope.Pcapng.Writer
import UsbScope.Pcapng.Reader

/-! # Reading back a written packet

What the reader makes of one block of the writer: an event that both producers
can deliver is read back with every field that the format carries, or rejected
by the reader's table of submissions. -/
namespace UsbScope.Pcapng
open UsbScope.Lib UsbScope.Common UsbScope.Capture

/-! ## Input -/

theorem readExact_append {n : Nat} {message : String} {l r : Bytes} (h : l.length = n) :
    readExact n message (l ++ r) = .ok (l, r) := by
  subst h
  simp [readExact]

theorem skip_append {n : Nat} {l r : Bytes} (h : l.length = n) : skip n (l ++ r) = .ok r := by
  rw [skip, readExact_append h]
  rfl

@[simp] theorem length_le32 (x : UInt32) : (le32 x).length = 4 := by simp [le32]

@[simp] theorem u32_le32 (x : UInt32) (r : Bytes) : u32 .little 0 (le32 x ++ r) = x := by
  simp [le32]

@[simp] theorem u32_le32_end (x : UInt32) : u32 .little 0 (le32 x) = x := by simp [le32]

theorem footer_encode (o : ByteOrder) {size : UInt32} {n : Nat} (hn : n = size.toNat) (rest : Bytes) :
    footer o size (o.bytes 4 n ++ rest) = .ok rest := by
  subst hn
  rw [footer, readExact_append (by simp)]
  simp [ensure]

theorem footer_le32 (size : UInt32) (r : Bytes) : footer .little size (le32 size ++ r) = .ok r :=
  footer_encode .little rfl r

/-! ## Headers -/

@[simp] theorem length_setupArea (m : EventMeta) : (setupArea m).length = 8 := by
  unfold setupArea
  split
  · simp
  · split <;> simp

@[simp] theorem length_usbHeader (m : EventMeta) (data : UInt32) :
    (usbHeader m data).length = 64 := by
  simp [usbHeader]

@[simp] theorem length_descriptorBytes (d : IsoDescriptor) : (descriptorBytes d).length = 16 := by
  simp [descriptorBytes]

/-- The metadata that a pseudoheader carries, less the lengths. -/
def carriedMeta (m : EventMeta) (timestamp : UInt64) : EventMeta :=
  { EventMeta.zero with
    urbId := m.urbId
    timestampNs := timestamp
    bus := m.bus
    device := m.device
    endpoint := m.endpoint
    transferType := m.transferType
    eventType := m.eventType
    setupPresent := if m.setupPresent = 0 then 0 else 1
    hasData := if m.hasData = 0 then 0 else 1
    status := m.status
    interval := m.interval
    startFrame := m.startFrame
    transferFlags := m.transferFlags
    isoCount := m.isoCount }

theorem usbMeta_usbHeader (m : EventMeta) (data : UInt32) (timestamp : UInt64) :
    usbMeta .little timestamp (usbHeader m data) = carriedMeta m timestamp := by
  unfold usbMeta carriedMeta
  simp only [usbHeader, le32]
  simp [u16_skip, u32_skip, byte_skip, u16_cons, u32_cons, byte_cons]
  by_cases h : m.hasData = 0
  · by_cases h' : m.endpoint &&& 0x80 = 0 <;> simp [h, h']
  · simp [h]

theorem wireLen_usbHeader (m : EventMeta) (data : UInt32) :
    u32 .little 32 (usbHeader m data) = wireLen m := by
  simp [usbHeader, le32, u32_skip, u32_cons]

theorem dataLen_usbHeader (m : EventMeta) (data : UInt32) :
    u32 .little 36 (usbHeader m data) = data := by
  simp [usbHeader, le32, u32_skip, u32_cons]

/-- The second part of a pseudoheader starts with the setup area. -/
theorem drop_usbHeader (m : EventMeta) (data : UInt32) :
    ∃ rest, (usbHeader m data).drop 40 = setupArea m ++ rest := by
  refine ⟨le32 m.interval.toUInt32 ++ (le32 m.startFrame.toUInt32 ++ (le32 m.transferFlags ++
    le32 m.isoCount)), ?_⟩
  simp [usbHeader, List.drop_append, List.drop_eq_nil_of_le]

theorem isoFields_usbHeader {m : EventMeta} (data : UInt32) (h : m.transferType = 0) :
    u32 .little 40 (usbHeader m data) = m.errorCount.toUInt32 ∧
      u32 .little 44 (usbHeader m data) = m.isoCount := by
  obtain ⟨rest, hdrop⟩ := drop_usbHeader m data
  have harea : setupArea m = le32 m.errorCount.toUInt32 ++ le32 m.isoCount := if_pos h
  constructor
  · rw [← Nat.add_zero 40, ← u32_drop, hdrop, harea, List.append_assoc, u32_le32]
  · rw [show 44 = 40 + 4 from rfl, ← u32_drop, hdrop, harea, List.append_assoc,
      u32_skip (by simp)]
    simp

theorem setup_usbHeader {m : EventMeta} (data : UInt32) (h : m.transferType ≠ 0)
    (hs : m.setupPresent ≠ 0) :
    (Vector.ofFn fun i : Fin 8 => byte (40 + i) (usbHeader m data)) = m.setup := by
  obtain ⟨rest, hdrop⟩ := drop_usbHeader m data
  have harea : setupArea m = m.setup.toList := by
    rw [setupArea, if_neg h, if_pos hs]
  ext i hi
  have hat : (usbHeader m data)[40 + i]? = some m.setup[i] := by
    rw [← List.getElem?_drop, hdrop, harea, List.getElem?_append_left (by simpa using hi),
      List.getElem?_eq_getElem (by simpa using hi)]
    simp
  simp only [Vector.getElem_ofFn, byte, List.getD_eq_getElem?_getD, hat, Option.getD_some]

/-! ## Descriptors -/

theorem descriptorOf_bytes {d : IsoDescriptor} (h : d.padding = 0) :
    descriptorOf .little (descriptorBytes d) = d := by
  cases d
  simp_all [descriptorOf, descriptorBytes, u32_skip]

/-- Descriptors are read back unless one is outside the requested buffer. -/
theorem readDescriptors_bytes {m : EventMeta} {known : Bool} {iso : List IsoDescriptor} {rest : Bytes}
    {res : List IsoDescriptor × Bytes} (hpad : ∀ d ∈ iso, d.padding = 0)
    (hstop : ∀ d ∈ iso, d.stop < 2 ^ 32)
    (hin : m.hasData ≠ 0 → ∀ d ∈ iso, d.length ≠ 0 → d.stop ≤ m.payloadLen.toNat) :
    readDescriptors .little m known iso.length (iso.flatMap descriptorBytes ++ rest) = .ok res ↔
      (known = true → ∀ d ∈ iso, d.stop ≤ m.requestedLen.toNat) ∧ res = (iso, rest) := by
  induction iso generalizing res with
  | nil =>
    constructor
    · intro h
      cases h
      exact ⟨by simp, rfl⟩
    · rintro ⟨_, rfl⟩
      rfl
  | cons d iso ih =>
    have hstep : readDescriptors .little m known (d :: iso).length
        ((d :: iso).flatMap descriptorBytes ++ rest) = .ok res ↔
        ((d.stop < 2 ^ 32 ∧ (!known ∨ d.stop ≤ m.requestedLen.toNat)) ∧
          (m.hasData = 0 ∨ d.length = 0 ∨ d.stop ≤ m.payloadLen.toNat) ∧
          ∃ r, readDescriptors .little m known iso.length (iso.flatMap descriptorBytes ++ rest) =
            .ok r ∧ .ok (d :: r.1, r.2) = (.ok res : Result _)) := by
      rw [List.length_cons, readDescriptors, List.flatMap_cons, List.append_assoc,
        readExact_append (by simp), Result.ok_bind]
      dsimp only
      rw [descriptorOf_bytes (hpad d List.mem_cons_self), ensure_bind_eq_ok, ensure_bind_eq_ok,
        Result.bind_eq_ok]
    have hrest := fun r => @ih r (fun x hx => hpad x (List.mem_cons_of_mem _ hx))
      (fun x hx => hstop x (List.mem_cons_of_mem _ hx))
      fun h x hx => hin h x (List.mem_cons_of_mem _ hx)
    rw [hstep]
    constructor
    · rintro ⟨⟨_, hknown⟩, _, r, hr, hres⟩
      obtain ⟨htail, rfl⟩ := (hrest r).mp hr
      cases hres
      refine ⟨fun hk x hx => ?_, rfl⟩
      rcases List.mem_cons.mp hx with rfl | hx
      · simpa [hk] using hknown
      · exact htail hk x hx
    · rintro ⟨hknown, rfl⟩
      refine ⟨⟨hstop d List.mem_cons_self, ?_⟩, ?_, (iso, rest), ?_, rfl⟩
      · cases known with
        | false => simp
        | true => exact .inr (hknown rfl d List.mem_cons_self)
      · by_cases h0 : m.hasData = 0
        · exact .inl h0
        · by_cases hl : d.length = 0
          · exact .inr (.inl hl)
          · exact .inr (.inr (hin h0 d List.mem_cons_self hl))
      · exact (hrest _).mpr ⟨fun hk x hx => hknown hk x (List.mem_cons_of_mem _ hx), rfl⟩

/-! ## Events -/

/-- What both producers guarantee of a delivered event. -/
structure Wellformed (e : Event) : Prop where
  eventType : e.metadata.eventType = submitType ∨ e.metadata.eventType = completeType ∨
    e.metadata.eventType = errorType
  ranges : e.metadata.transferType.toNat ≤ 3 ∧ e.metadata.device.toNat ≤ 127
  flags : e.metadata.hasData.toNat ≤ 1 ∧ e.metadata.setupPresent.toNat ≤ 1
  data : e.metadata.hasData ≠ 0 ∨ e.metadata.payloadLen = 0
  iso : e.metadata.transferType = 0 ∨ e.metadata.isoCount = 0
  count : e.iso.length = e.metadata.isoCount.toNat
  padding : ∀ d ∈ e.iso, d.padding = 0
  stop : ∀ d ∈ e.iso, d.stop < 2 ^ 32
  inside : e.metadata.hasData ≠ 0 → ∀ d ∈ e.iso, d.length ≠ 0 →
    d.stop ≤ e.metadata.payloadLen.toNat
  length : e.payload.length = e.metadata.payloadLen.toNat
  known : e.metadata.eventType = submitType → e.requestedKnown = true
  buffer : e.requestedKnown = true → e.metadata.transferType = 0 →
    ∀ d ∈ e.iso, d.stop ≤ e.metadata.requestedLen.toNat
  kept : lostData e.metadata e.iso (wireLen e.metadata) = false

/-- The time of an event in whole microseconds, in nanoseconds. -/
def microseconds (ns : UInt64) : UInt64 := UInt64.ofNat (ns.toNat / 1000 * 1000)

/-- The event that is read back. `request` is the requested length, if known. -/
def readBack (source : UInt64) (e : Event) (request : Option UInt32) : Event :=
  let m := e.metadata
  { sourceId := source
    metadata :=
      { EventMeta.zero with
        urbId := m.urbId
        timestampNs := microseconds m.timestampNs
        bus := m.bus
        device := m.device
        endpoint := m.endpoint
        transferType := m.transferType
        eventType := m.eventType
        setupPresent := m.setupPresent
        hasData := m.hasData
        status := m.status
        requestedLen := request.getD 0
        actualLen := if m.eventType = submitType then 0 else m.actualLen
        payloadLen := m.payloadLen
        interval := m.interval
        startFrame := m.startFrame
        transferFlags := m.transferFlags
        isoCount := m.isoCount
        errorCount := if m.transferType = 0 then m.errorCount else 0
        setup := if m.transferType ≠ 0 ∧ m.setupPresent ≠ 0 then m.setup
          else Vector.replicate 8 0 }
    iso := e.iso
    payload := e.payload
    identityKnown := false
    requestedKnown := request.isSome }

/-- The requested length of an event, from itself or from the table. -/
def requestOf (requested : AList fun _ : RequestKey => UInt32) (source : UInt64) (e : Event) :
    Option UInt32 :=
  if e.metadata.eventType = submitType then some e.metadata.requestedLen
  else requested.lookup (source, e.metadata.urbId)

/-- The table after an event. -/
def tableAfter (requested : AList fun _ : RequestKey => UInt32) (source : UInt64) (e : Event) :
    AList fun _ : RequestKey => UInt32 :=
  if e.metadata.eventType = submitType then
    requested.insert (source, e.metadata.urbId) e.metadata.requestedLen
  else requested.erase (source, e.metadata.urbId)

/-- The reader takes the event: there is room for a submission, and ISO
descriptors are inside the requested buffer as far as that is known. -/
structure Accepts (requested : AList fun _ : RequestKey => UInt32) (source : UInt64) (e : Event) :
    Prop where
  room : e.metadata.eventType = submitType → requested.keys.length < maxRequested
  bounds : e.metadata.transferType = 0 → ∀ len, requestOf requested source e = some len →
    ∀ d ∈ e.iso, d.stop ≤ len.toNat

/-! ## Lengths -/

theorem lengths_eq_ok {n : Nat} {payloadLen : UInt32} {l : Lengths}
    (h : lengths n payloadLen = .ok l) :
    l.data.toNat = n * 16 + payloadLen.toNat ∧ l.captured.toNat = 64 + l.data.toNat ∧
      l.padding.toNat = (4 - l.captured.toNat % 4) % 4 ∧
      l.total.toNat = l.captured.toNat + l.padding.toNat + 32 := by
  unfold lengths at h
  simp only [ensure_bind_eq_ok] at h
  obtain ⟨_, _, h1, h2, h3, hl⟩ := h
  cases hl
  dsimp only
  rw [UInt32.toNat_ofNat_of_lt' h1, UInt32.toNat_ofNat_of_lt' h2, UInt32.toNat_ofNat_of_lt' h3,
    UInt32.toNat_ofNat_of_lt' (by simp only [UInt32.size]; omega)]
  omega

theorem flag_eq {x : UInt8} (h : x.toNat ≤ 1) : (if x = 0 then 0 else 1) = x := by
  split
  · rename_i h0
    exact h0.symm
  · rename_i h0
    have hne : x.toNat ≠ 0 := fun h' => h0 (UInt8.toNat_inj.mp h')
    apply UInt8.toNat_inj.mp
    change 1 = x.toNat
    omega

section
variable {e : Event} {l : Lengths}

/-- The checked metadata of a written packet. -/
def checkedMeta (e : Event) : EventMeta :=
  { carriedMeta e.metadata (microseconds e.metadata.timestampNs) with
    payloadLen := e.metadata.payloadLen }

theorem checkMeta_carried (he : Wellformed e)
    (hl : lengths e.iso.length e.metadata.payloadLen = .ok l) :
    checkMeta (carriedMeta e.metadata (microseconds e.metadata.timestampNs)) l.data l.captured =
      .ok (checkedMeta e) := by
  obtain ⟨hdata, hcaptured, _, _⟩ := lengths_eq_ok hl
  have hlt := l.data.toNat_lt
  rw [he.count] at hdata
  have hpayload : UInt32.ofNat (l.data.toNat - e.metadata.isoCount.toNat * 16) =
      e.metadata.payloadLen := by
    rw [hdata, Nat.add_sub_cancel_left, UInt32.ofNat_toNat]
  unfold checkMeta
  rw [ensure_bind_eq_ok, ensure_bind_eq_ok, ensure_bind_eq_ok, ensure_bind_eq_ok]
  refine ⟨⟨he.eventType, he.ranges⟩, by omega, ?_, ⟨?_, he.iso⟩, ensure_bind_eq_ok.mpr ⟨?_, ?_⟩⟩
  · change e.metadata.isoCount.toNat * 16 < 2 ^ 32
    omega
  · change e.metadata.isoCount.toNat * 16 ≤ l.data.toNat
    omega
  · dsimp only [carriedMeta]
    rw [hpayload, flag_eq he.flags.1]
    exact he.data
  · dsimp only [carriedMeta, checkedMeta]
    rw [hpayload]

/-- The setup area and the descriptors of a written packet. -/
theorem readSetup_packet {m : EventMeta} {known : Bool} {data : UInt32} {rest : Bytes}
    {res : EventMeta × List IsoDescriptor × Bytes} (he : Wellformed e)
    (htype : m.transferType = e.metadata.transferType) (hcount : m.isoCount = e.metadata.isoCount)
    (hpayload : m.payloadLen = e.metadata.payloadLen) (hdata : m.hasData = e.metadata.hasData)
    (hsetup : m.setupPresent = e.metadata.setupPresent)
    (hzero : m.errorCount = 0 ∧ m.setup = Vector.replicate 8 0) :
    readSetup .little m known (usbHeader e.metadata data) (e.iso.flatMap descriptorBytes ++ rest) =
        .ok res ↔
      (e.metadata.transferType = 0 → known = true → ∀ d ∈ e.iso, d.stop ≤ m.requestedLen.toNat) ∧
        res = ({ m with
          errorCount := if e.metadata.transferType = 0 then e.metadata.errorCount else 0
          setup := if e.metadata.transferType ≠ 0 ∧ e.metadata.setupPresent ≠ 0
            then e.metadata.setup else Vector.replicate 8 0 }, e.iso, rest) := by
  unfold readSetup
  by_cases h : e.metadata.transferType = 0
  · obtain ⟨herror, hiso⟩ := isoFields_usbHeader data h
    rw [if_pos (htype.trans h)]
    dsimp only
    have hlen : m.isoCount.toNat = e.iso.length := by rw [hcount, he.count]
    rw [herror, ensure_of _ (hiso.trans hcount.symm), Result.ok_bind, hlen, Result.bind_eq_ok]
    have hin : m.hasData ≠ 0 → ∀ d ∈ e.iso, d.length ≠ 0 → d.stop ≤ m.payloadLen.toNat := by
      rw [hdata, hpayload]
      exact he.inside
    have hout : ({ m with errorCount := e.metadata.errorCount.toUInt32.toInt32 } : EventMeta) =
        { m with
          errorCount := if e.metadata.transferType = 0 then e.metadata.errorCount else 0
          setup := if e.metadata.transferType ≠ 0 ∧ e.metadata.setupPresent ≠ 0
            then e.metadata.setup else Vector.replicate 8 0 } := by
      rw [if_pos h, if_neg fun hs => hs.1 h, ← hzero.2]
      simp
    have hread := fun r => @readDescriptors_bytes
      { m with errorCount := e.metadata.errorCount.toUInt32.toInt32 } known e.iso rest r he.padding
      he.stop hin
    constructor
    · rintro ⟨r, hr, hres⟩
      obtain ⟨hbound, rfl⟩ := (hread r).mp hr
      cases hres
      exact ⟨fun _ => hbound, by rw [hout]⟩
    · rintro ⟨hbound, rfl⟩
      exact ⟨_, (hread _).mpr ⟨hbound h, rfl⟩, by rw [hout]⟩
  · have hnil : e.iso = [] := by
      have hc := he.count
      rw [he.iso.resolve_left h] at hc
      exact List.length_eq_zero_iff.mp hc
    rw [if_neg (htype ▸ h), hnil, List.flatMap_nil, List.nil_append]
    by_cases hs : e.metadata.setupPresent = 0
    · rw [if_neg (by rw [hsetup, hs]; simp), if_neg h, if_neg fun hp => hp.2 hs, ← hzero.1,
        ← hzero.2]
      simp [h, eq_comm]
    · rw [if_pos (hsetup ▸ hs), setup_usbHeader data h hs, if_neg h, if_pos ⟨h, hs⟩, ← hzero.1]
      simp [h, eq_comm]

/-- The metadata of a written packet once its lengths are known. -/
def pairedMeta (e : Event) (request : Option UInt32) : EventMeta :=
  { checkedMeta e with
    requestedLen := request.getD 0
    actualLen := if e.metadata.eventType = submitType then 0 else e.metadata.actualLen }

/-- Pairing fails only for a submission that the table has no room for. -/
theorem pairRequest_packet {requested : AList fun _ : RequestKey => UInt32} {source : UInt64}
    {res : EventMeta × Bool × AList fun _ : RequestKey => UInt32} :
    pairRequest requested source (checkedMeta e) (wireLen e.metadata) = .ok res ↔
      (e.metadata.eventType = submitType → requested.keys.length < maxRequested) ∧
        res = (pairedMeta e (requestOf requested source e), (requestOf requested source e).isSome,
          tableAfter requested source e) := by
  by_cases h : e.metadata.eventType = submitType
  · have hm : (checkedMeta e).eventType = submitType := h
    rw [pairRequest, if_pos hm, ensure_bind_eq_ok, requestOf, if_pos h, tableAfter, if_pos h, wireLen,
      if_pos h, pairedMeta, if_pos h]
    constructor
    · rintro ⟨hroom, hres⟩
      cases hres
      exact ⟨fun _ => hroom, rfl⟩
    · rintro ⟨hroom, rfl⟩
      exact ⟨hroom h, rfl⟩
  · have hm : (checkedMeta e).eventType ≠ submitType := h
    rw [pairRequest, if_neg hm, requestOf, if_neg h, tableAfter, if_neg h, wireLen, if_neg h,
      pairedMeta, if_neg h]
    constructor
    · intro hres
      cases hres
      exact ⟨fun hs => absurd hs h, rfl⟩
    · rintro ⟨_, rfl⟩
      rfl

theorem pairedMeta_readBack (he : Wellformed e) (source : UInt64) (request : Option UInt32) :
    { pairedMeta e request with
      errorCount := if e.metadata.transferType = 0 then e.metadata.errorCount else 0
      setup := if e.metadata.transferType ≠ 0 ∧ e.metadata.setupPresent ≠ 0
        then e.metadata.setup else Vector.replicate 8 0 } = (readBack source e request).metadata := by
  dsimp only [pairedMeta, checkedMeta, carriedMeta, readBack]
  rw [flag_eq he.flags.1, flag_eq he.flags.2]

theorem readUsb_packet {r : Reader} {i : Interface} {seen : Packet} {rest : Bytes}
    {res : Block × Reader × Bytes} (hr : r.endian = .little) (he : Wellformed e)
    (hl : lengths e.iso.length e.metadata.payloadLen = .ok l) :
    readUsb r l.total l.captured i (microseconds e.metadata.timestampNs) seen
        (packetData e l.data ++ (List.replicate l.padding.toNat 0 ++ (le32 l.total ++ rest))) =
        .ok res ↔
      Accepts r.requested i.sourceId e ∧
        res = (.packet seen (some (readBack i.sourceId e (requestOf r.requested i.sourceId e))),
          { r with requested := tableAfter r.requested i.sourceId e }, rest) := by
  obtain ⟨o, inSection, interfaces, nextSourceId, requested, incomplete⟩ := r
  subst hr
  obtain ⟨_, _, _, htotal⟩ := lengths_eq_ok hl
  have htake : e.payload.take e.metadata.payloadLen.toNat = e.payload :=
    List.take_of_length_le he.length.le
  unfold readUsb packetData
  dsimp only
  rw [htake, List.append_assoc, List.append_assoc, readExact_append (by simp), Result.ok_bind]
  dsimp only
  rw [usbMeta_usbHeader, dataLen_usbHeader, wireLen_usbHeader, checkMeta_carried he hl,
    Result.ok_bind, Result.bind_eq_ok]
  generalize hrequest : requestOf requested i.sourceId e = request
  have hsetup := fun q => @readSetup_packet e (pairedMeta e request) request.isSome l.data
    (e.payload ++ (List.replicate l.padding.toNat 0 ++ (le32 l.total ++ rest))) q he rfl rfl rfl
    (flag_eq he.flags.1) (flag_eq he.flags.2) ⟨rfl, rfl⟩
  rw [pairedMeta_readBack he i.sourceId request] at hsetup
  have hpad : l.total.toNat - 32 - l.captured.toNat = (List.replicate l.padding.toNat (0 : UInt8)).length := by
    rw [List.length_replicate]
    omega
  have hlength : e.payload.length = (readBack i.sourceId e request).metadata.payloadLen.toNat :=
    he.length
  have hkept : lostData (readBack i.sourceId e request).metadata e.iso (wireLen e.metadata) = false :=
    he.kept
  have hbounds : Accepts requested i.sourceId e ↔
      (e.metadata.eventType = submitType → requested.keys.length < maxRequested) ∧
        (e.metadata.transferType = 0 → request.isSome = true →
          ∀ d ∈ e.iso, d.stop ≤ (request.getD 0).toNat) := by
    constructor
    · rintro ⟨hroom, hb⟩
      refine ⟨hroom, fun ht hk => ?_⟩
      obtain ⟨len, rfl⟩ := Option.isSome_iff_exists.mp hk
      exact hb ht len hrequest
    · rintro ⟨hroom, hb⟩
      refine ⟨hroom, fun ht len hlen => ?_⟩
      rw [hrequest] at hlen
      subst hlen
      exact hb ht rfl
  rw [hbounds]
  constructor
  · rintro ⟨p, hp, h⟩
    obtain ⟨hroom, rfl⟩ := pairRequest_packet.mp hp
    rw [hrequest] at h
    obtain ⟨q, hq, h⟩ := Result.bind_eq_ok.mp h
    obtain ⟨hb, rfl⟩ := (hsetup q).mp hq
    dsimp only at h
    rw [readExact_append hlength, Result.ok_bind] at h
    dsimp only at h
    rw [skip_append hpad.symm, Result.ok_bind, footer_le32, Result.ok_bind, hkept] at h
    cases h
    exact ⟨⟨hroom, hb⟩, rfl⟩
  · rintro ⟨⟨hroom, hb⟩, rfl⟩
    refine ⟨_, pairRequest_packet.mpr ⟨hroom, rfl⟩, ?_⟩
    rw [hrequest]
    refine Result.bind_eq_ok.mpr ⟨_, (hsetup _).mpr ⟨hb, rfl⟩, ?_⟩
    dsimp only
    rw [readExact_append hlength, Result.ok_bind]
    dsimp only
    rw [skip_append hpad.symm, Result.ok_bind, footer_le32, Result.ok_bind, hkept]
    rfl

/-- The interface that the reader makes of the writer's block. -/
def writtenInterface (index : Nat) : Interface :=
  { sourceId := UInt64.ofNat index
    linktype := 220
    units := 1000000
    offset := 0 }

/-- Timestamps are rounded down to a microsecond. -/
theorem timestamp_written (index : Nat) (ns : UInt64) :
    (writtenInterface index).timestamp
        ((UInt32.ofNat (ns.toNat / 1000 / 2 ^ 32)).toNat * 2 ^ 32 +
          (UInt32.ofNat (ns.toNat / 1000)).toNat) = .ok (microseconds ns) := by
  have hlt := ns.toNat_lt
  have hticks : (UInt32.ofNat (ns.toNat / 1000 / 2 ^ 32)).toNat * 2 ^ 32 +
      (UInt32.ofNat (ns.toNat / 1000)).toNat = ns.toNat / 1000 := by
    rw [UInt32.toNat_ofNat', UInt32.toNat_ofNat']
    omega
  have hns : ((ns.toNat / 1000 * 1000000000 / (writtenInterface index).units : Nat) : Int) +
      (writtenInterface index).offset * 1000000000 = ((ns.toNat / 1000 * 1000 : Nat) : Int) := by
    have hunits : ns.toNat / 1000 * 1000000000 / 1000000 = ns.toNat / 1000 * 1000 := by omega
    simp only [writtenInterface, Int.zero_mul, Int.add_zero]
    rw [hunits]
  unfold Interface.timestamp
  rw [hticks, hns]
  dsimp only
  rw [ensure_bind_eq_ok]
  refine ⟨by omega, ?_⟩
  rw [Int.toNat_natCast, microseconds]

/-- The fields of a packet block between its lengths and the packet. -/
def packetFields (index : Nat) (e : Event) (l : Lengths) : Bytes :=
  let ts := e.metadata.timestampNs.toNat / 1000
  le32 (UInt32.ofNat index) ++ (le32 (UInt32.ofNat (ts / 2 ^ 32)) ++ (le32 (UInt32.ofNat ts) ++
    (le32 l.captured ++ le32 l.captured)))

theorem readPacket_written {r : Reader} {index : Nat} {rest : Bytes} {res : Block × Reader × Bytes}
    (hr : r.endian = .little) (hindex : index < 2 ^ 32)
    (hi : r.interfaces[index]? = some (writtenInterface index)) (he : Wellformed e)
    (hl : lengths e.iso.length e.metadata.payloadLen = .ok l) :
    readPacket r l.total (packetFields index e l ++
        (packetData e l.data ++ (List.replicate l.padding.toNat 0 ++ (le32 l.total ++ rest)))) =
        .ok res ↔
      Accepts r.requested (UInt64.ofNat index) e ∧
        res = (.packet ⟨.little, index, packetData e l.data, l.captured⟩
            (some (readBack (UInt64.ofNat index) e (requestOf r.requested (UInt64.ofNat index) e))),
          { r with requested := tableAfter r.requested (UInt64.ofNat index) e }, rest) := by
  obtain ⟨o, inSection, interfaces, nextSourceId, requested, incomplete⟩ := r
  subst hr
  obtain ⟨hdata, hcaptured, hpadding, htotal⟩ := lengths_eq_ok hl
  have hlen : (packetData e l.data).length = l.captured.toNat := by
    have hmap : (e.iso.map fun d => (descriptorBytes d).length).sum = e.iso.length * 16 := by simp
    simp only [packetData, List.length_append, length_usbHeader, List.length_flatMap, hmap,
      List.length_take, he.length, min_self]
    omega
  have hword : (UInt32.ofNat index).toNat = index := UInt32.toNat_ofNat_of_lt' hindex
  have h0 : u32 .little 0 (packetFields index e l) = UInt32.ofNat index := by simp [packetFields]
  have h4 : u32 .little 4 (packetFields index e l) =
      UInt32.ofNat (e.metadata.timestampNs.toNat / 1000 / 2 ^ 32) := by simp [packetFields, u32_skip]
  have h8 : u32 .little 8 (packetFields index e l) =
      UInt32.ofNat (e.metadata.timestampNs.toNat / 1000) := by simp [packetFields, u32_skip]
  have h12 : u32 .little 12 (packetFields index e l) = l.captured := by simp [packetFields, u32_skip]
  have h16 : u32 .little 16 (packetFields index e l) = l.captured := by simp [packetFields, u32_skip]
  have htake : (packetData e l.data ++ (List.replicate l.padding.toNat 0 ++ (le32 l.total ++ rest))).take
      l.captured.toNat = packetData e l.data := List.take_left' hlen
  unfold readPacket
  dsimp only at hi ⊢
  rw [ensure_of _ (by omega), Result.ok_bind, readExact_append (by simp [packetFields]),
    Result.ok_bind]
  dsimp only
  rw [h0, h4, h8, h12, h16, hword, hi, htake]
  rw [context_some, Result.ok_bind,
    ensure_of _ (show (writtenInterface index).linktype = 220 from rfl), Result.ok_bind,
    timestamp_written, Result.ok_bind,
    ensure_of _ (show padded l.captured.toNat ≤ l.total.toNat - 32 by unfold padded; omega),
    Result.ok_bind, if_neg (by rw [not_or]; exact ⟨by omega, UInt32.lt_irrefl _⟩), ensure_of _ rfl,
    Result.ok_bind]
  exact readUsb_packet (i := writtenInterface index) rfl he hl

/-- What the reader makes of a written packet block. -/
theorem nextBlock_packet {r : Reader} {index : Nat} {rest : Bytes} {res : Block × Reader × Bytes}
    (hr : r.endian = .little) (hs : r.inSection = true) (hindex : index < 2 ^ 32)
    (hi : r.interfaces[index]? = some (writtenInterface index)) (he : Wellformed e)
    (hl : lengths e.iso.length e.metadata.payloadLen = .ok l) :
    nextBlock r (packetBlock (UInt32.ofNat index) e l ++ rest) = .ok res ↔
      Accepts r.requested (UInt64.ofNat index) e ∧
        res = (.packet ⟨.little, index, packetData e l.data, l.captured⟩
            (some (readBack (UInt64.ofNat index) e (requestOf r.requested (UInt64.ofNat index) e))),
          { r with requested := tableAfter r.requested (UInt64.ofNat index) e }, rest) := by
  obtain ⟨o, inSection, interfaces, nextSourceId, requested, incomplete⟩ := r
  subst hr hs
  obtain ⟨_, hcaptured, hpadding, htotal⟩ := lengths_eq_ok hl
  have hbytes : packetBlock (UInt32.ofNat index) e l ++ rest =
      (le32 6 ++ le32 l.total) ++ (packetFields index e l ++
        (packetData e l.data ++ (List.replicate l.padding.toNat 0 ++ (le32 l.total ++ rest)))) := by
    simp only [packetBlock, packetHeader, packetFields, List.append_assoc]
  have hkind : (le32 6 ++ le32 l.total).take 4 = [6, 0, 0, 0] := List.take_left' (by simp)
  have h4 : u32 .little 4 (le32 6 ++ le32 l.total) = l.total := by
    rw [u32_skip (by simp)]
    simp
  unfold nextBlock
  rw [hbytes, readExact_append (by simp), Result.ok_bind]
  dsimp only
  rw [if_neg (by rw [hkind]; decide), u32_le32, h4, ensure_of _ rfl, Result.ok_bind,
    ensure_of _ (show 12 ≤ l.total.toNat ∧ l.total.toNat % 4 = 0 by omega), Result.ok_bind,
    if_neg (by decide), if_pos rfl]
  exact readPacket_written rfl hindex hi he hl

end

/-- The section header block of the writer starts a section. -/
theorem nextBlock_section (r : Reader) (rest : Bytes) :
    nextBlock r (sectionBlock ++ rest) = .ok (.sectionHeader,
      { r with endian := .little, inSection := true, interfaces := [], requested := ∅ }, rest) := by
  have hbytes : sectionBlock ++ rest = [10, 13, 13, 10, 28, 0, 0, 0] ++ ([77, 60, 43, 26] ++
      ([1, 0, 0, 0] ++ ([255, 255, 255, 255, 255, 255, 255, 255] ++ (le32 28 ++ rest)))) := rfl
  have hmagic : byteOrderOf [77, 60, 43, 26] = some .little := rfl
  have hsize : u32 .little 4 [10, 13, 13, 10, 28, 0, 0, 0] = 28 := by decide
  have hversion : u16 .little 0 [1, 0, 0, 0] = 1 := by decide
  unfold nextBlock
  rw [hbytes, readExact_append (n := 8) rfl, Result.ok_bind]
  dsimp only
  rw [if_pos (by decide), readSection, readExact_append (n := 4) rfl, Result.ok_bind]
  dsimp only
  rw [hmagic, context_some, Result.ok_bind, hsize, ensure_of _ (by decide), Result.ok_bind,
    readExact_append (n := 4) rfl, Result.ok_bind]
  dsimp only
  rw [hversion, ensure_of _ rfl, Result.ok_bind, skip_append (n := (28 : UInt32).toNat - 20) rfl,
    Result.ok_bind, footer_le32, Result.ok_bind]

/-- An interface block of the writer declares the next source. -/
theorem nextBlock_interface {r : Reader} (hr : r.endian = .little) (hs : r.inSection = true)
    (hn : r.nextSourceId.toNat + 1 < 2 ^ 64) (rest : Bytes) :
    nextBlock r (interfaceBlock ++ rest) = .ok (.interface,
      { r with
        nextSourceId := r.nextSourceId + 1
        interfaces := r.interfaces ++ [⟨r.nextSourceId, 220, 1000000, 0⟩] }, rest) := by
  obtain ⟨o, inSection, interfaces, nextSourceId, requested, incomplete⟩ := r
  subst hr hs
  have hbytes : interfaceBlock ++ rest = [1, 0, 0, 0, 20, 0, 0, 0] ++
      ([220, 0, 0, 0, 0, 0, 0, 0] ++ ([] ++ (le32 20 ++ rest))) := rfl
  have hkind : u32 .little 0 [1, 0, 0, 0, 20, 0, 0, 0] = 1 := by decide
  have hsize : u32 .little 4 [1, 0, 0, 0, 20, 0, 0, 0] = 20 := by decide
  have hlink : u16 .little 0 [220, 0, 0, 0, 0, 0, 0, 0] = 220 := by decide
  unfold nextBlock
  rw [hbytes, readExact_append (n := 8) rfl, Result.ok_bind]
  dsimp only
  rw [if_neg (by decide), ensure_of _ rfl, Result.ok_bind, hkind, hsize, ensure_of _ (by decide),
    Result.ok_bind, if_pos rfl, readInterface, ensure_of _ (by decide), Result.ok_bind,
    readExact_append (n := 8) rfl, Result.ok_bind]
  dsimp only
  rw [hlink, show ((20 : UInt32).toNat - 20) / 4 = 0 from rfl, readOptions, Result.ok_bind]
  dsimp only
  rw [skip_append (n := (20 : UInt32).toNat - 20) rfl, Result.ok_bind, ensure_of _ hn, Result.ok_bind,
    footer_le32, Result.ok_bind]

end UsbScope.Pcapng
