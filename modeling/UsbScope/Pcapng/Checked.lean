import UsbScope.Lib.Checked
import UsbScope.Pcapng.Steps

/-! # The reader does not panic

The reader once more, with every subtraction and addition of its lengths, every
field of a buffer and the division of its timestamps checked as the machine
checks them. On every reader that a file can lead to, none of these checks
fails. -/
namespace UsbScope.Pcapng
open UsbScope.Lib UsbScope.Common UsbScope.Capture
namespace Checked
open UsbScope.Lib.Checked

/-! ## The reader with checks -/

def word16 (o : ByteOrder) : Nat → Bytes → Checked UInt16 := field 2 (u16 o)

def word32 (o : ByteOrder) : Nat → Bytes → Checked UInt32 := field 4 (u32 o)

def word64 (o : ByteOrder) : Nat → Bytes → Checked UInt64 := field 8 (u64 o)

def octet : Nat → Bytes → Checked UInt8 := field 1 byte

def footer (o : ByteOrder) (size : UInt32) (input : Bytes) : Checked Bytes := do
  let (word, input) ← of (readExact 4 "truncated pcapng block" input)
  let last ← word32 o 0 word
  of (ensure (last = size) "pcapng block lengths disagree")
  .ok input

def readSection (r : Reader) (header input : Bytes) : Checked (Block × Reader × Bytes) := do
  let (magic, input) ← of (readExact 4 ioError input)
  let endian ← of (context (byteOrderOf magic) "invalid pcapng byte order magic")
  let size ← word32 endian 4 header
  of (ensure (28 ≤ size.toNat ∧ size.toNat % 4 = 0) "invalid pcapng section length")
  let (version, input) ← of (readExact 4 ioError input)
  let major ← word16 endian 0 version
  of (ensure (major = 1) "unsupported pcapng version")
  let rest ← sub size.toNat 20
  let input ← of (skip rest input)
  let input ← footer endian size input
  .ok (.sectionHeader,
    { r with endian := endian, inSection := true, interfaces := [], requested := ∅ }, input)

def applyOption (o : ByteOrder) (interface : Interface) (code : UInt16) (value : Bytes) :
    Checked (Interface × Bool) :=
  if code = 9 then do
    of (ensure (value.length = 1) "invalid timestamp resolution option")
    let resolution ← octet 0 value
    let units ← of (context (unitsOf resolution) "timestamp resolution not representable")
    .ok ({ interface with units := units }, false)
  else if code = 14 then do
    of (ensure (value.length = 8) "invalid timestamp offset option")
    let offset ← word64 o 0 value
    .ok ({ interface with offset := offset.toInt64.toInt }, false)
  else if code = 0 then do
    of (ensure (value.length = 0) "invalid end-of-options")
    .ok (interface, true)
  else .ok (interface, false)

def readOptions (o : ByteOrder) : Nat → Nat → Interface → Bytes → Checked (Interface × Nat × Bytes)
  | 0, remaining, interface, input => .ok (interface, remaining, input)
  | fuel + 1, remaining, interface, input =>
    if remaining < 4 then .ok (interface, remaining, input)
    else do
      let (option, input) ← of (readExact 4 ioError input)
      let code ← word16 o 0 option
      let length ← word16 o 2 option
      let rounded ← add 32 length.toNat 3
      let padded := rounded / 4 * 4
      let remaining ← sub remaining 4
      of (ensure (padded ≤ remaining) "pcapng option outside block")
      let (value, input) ← of (readExact length.toNat ioError input)
      let padding ← sub padded length.toNat
      let input ← of (skip padding input)
      let remaining ← sub remaining padded
      let (interface, last) ← applyOption o interface code value
      if last then .ok (interface, remaining, input)
      else readOptions o fuel remaining interface input

def readInterface (r : Reader) (size : UInt32) (input : Bytes) : Checked (Block × Reader × Bytes) := do
  of (ensure (20 ≤ size.toNat) "short pcapng interface block")
  let (body, input) ← of (readExact 8 ioError input)
  let linktype ← word16 r.endian 0 body
  let interface : Interface :=
    { sourceId := r.nextSourceId
      linktype := linktype
      units := 1000000
      offset := 0 }
  let remaining ← sub size.toNat 20
  let (interface, remaining, input) ← readOptions r.endian (remaining / 4) remaining interface input
  let input ← of (skip remaining input)
  of (ensure (r.nextSourceId.toNat + 1 < 2 ^ 64) "too many pcapng capture sources")
  let r := { r with
    nextSourceId := r.nextSourceId + 1
    interfaces := r.interfaces ++ [interface] }
  let input ← footer r.endian size input
  .ok (.interface, r, input)

/-- The products and the sum are of 128 bits. -/
def timestamp (i : Interface) (ticks : Nat) : Checked UInt64 := do
  let scaled ← signed 128 (ticks * 1000000000)
  let units ← signed 128 i.units
  let elapsed ← div scaled units
  let offset ← signed 128 (i.offset * 1000000000)
  let ns ← signed 128 (elapsed + offset)
  of (ensure (0 ≤ ns ∧ ns < 2 ^ 64) "packet timestamp out of range")
  .ok (UInt64.ofNat ns.toNat)

def usbMeta (o : ByteOrder) (timestamp : UInt64) (usb : Bytes) : Checked EventMeta := do
  let urbId ← word64 o 0 usb
  let bus ← word16 o 12 usb
  let device ← octet 11 usb
  let endpoint ← octet 10 usb
  let transferType ← octet 9 usb
  let eventType ← octet 8 usb
  let setupFlag ← octet 14 usb
  let dataFlag ← octet 15 usb
  let status ← word32 o 28 usb
  let interval ← word32 o 48 usb
  let startFrame ← word32 o 52 usb
  let transferFlags ← word32 o 56 usb
  let isoCount ← word32 o 60 usb
  .ok { EventMeta.zero with
    urbId := urbId
    timestampNs := timestamp
    bus := bus
    device := device
    endpoint := endpoint
    transferType := transferType
    eventType := eventType
    setupPresent := if setupFlag = 0 then 1 else 0
    hasData := if dataFlag = 0 then 1 else 0
    status := status.toInt32
    interval := interval.toInt32
    startFrame := startFrame.toInt32
    transferFlags := transferFlags
    isoCount := isoCount }

def checkMeta (m : EventMeta) (dataLen captured : UInt32) : Checked EventMeta := do
  of (ensure ((m.eventType = submitType ∨ m.eventType = completeType ∨ m.eventType = errorType) ∧
    m.transferType.toNat ≤ 3 ∧ m.device.toNat ≤ 127) "invalid USB pseudoheader")
  let expected ← sub captured.toNat 64
  of (ensure (dataLen.toNat = expected) "USB data length disagrees with packet length")
  of (ensure (m.isoCount.toNat * 16 < 2 ^ 32) "ISO descriptor size overflow")
  of (ensure (m.isoCount.toNat * 16 ≤ dataLen.toNat ∧ (m.transferType = 0 ∨ m.isoCount = 0))
    "invalid ISO descriptor span")
  let payloadLen ← sub dataLen.toNat (m.isoCount.toNat * 16)
  let m := { m with payloadLen := UInt32.ofNat payloadLen }
  of (ensure (m.hasData ≠ 0 ∨ m.payloadLen = 0) "USB payload without presence flag")
  .ok m

def readDescriptors (o : ByteOrder) (m : EventMeta) (known : Bool) :
    Nat → Bytes → Checked (List IsoDescriptor × Bytes)
  | 0, input => .ok ([], input)
  | count + 1, input => do
    let (body, input) ← of (readExact 16 ioError input)
    let status ← word32 o 0 body
    let offset ← word32 o 4 body
    let length ← word32 o 8 body
    let d : IsoDescriptor :=
      { status := status.toInt32
        offset := offset
        length := length
        padding := 0 }
    let stop ← add 64 d.offset.toNat d.length.toNat
    of (ensure (stop < 2 ^ 32 ∧ (!known ∨ stop ≤ m.requestedLen.toNat)) "ISO descriptor outside URB buffer")
    of (ensure (m.hasData = 0 ∨ d.length = 0 ∨ stop ≤ m.payloadLen.toNat) "truncated ISO payload")
    let (rest, input) ← readDescriptors o m known count input
    .ok (d :: rest, input)

def readSetup (o : ByteOrder) (m : EventMeta) (known : Bool) (usb input : Bytes) :
    Checked (EventMeta × List IsoDescriptor × Bytes) :=
  if m.transferType = 0 then do
    let errorCount ← word32 o 40 usb
    let m := { m with errorCount := errorCount.toInt32 }
    let count ← word32 o 44 usb
    of (ensure (count = m.isoCount) "truncated ISO descriptor list")
    let (iso, input) ← readDescriptors o m known m.isoCount.toNat input
    .ok (m, iso, input)
  else if m.setupPresent ≠ 0 then do
    let setup ← field 8 (fun pos b => Vector.ofFn fun i => byte (pos + i) b) 40 usb
    .ok ({ m with setup := setup }, [], input)
  else .ok (m, [], input)

def readUsb (r : Reader) (size captured : UInt32) (interface : Interface) (timestamp : UInt64)
    (seen : Packet) (input : Bytes) : Checked (Block × Reader × Bytes) := do
  let o := r.endian
  let (usb, input) ← of (readExact 64 ioError input)
  let m ← usbMeta o timestamp usb
  let wireLen ← word32 o 32 usb
  let dataLen ← word32 o 36 usb
  let m ← checkMeta m dataLen captured
  let (m, known, requested) ← of (pairRequest r.requested interface.sourceId m wireLen)
  let (m, iso, input) ← readSetup o m known usb input
  let (payload, input) ← of (readExact m.payloadLen.toNat "truncated pcapng payload" input)
  let body ← sub size.toNat 32
  let padding ← sub body captured.toNat
  let input ← of (skip padding input)
  let input ← footer o size input
  if lostData m iso wireLen then
    .ok (.packet seen none, { r with requested := requested, incomplete := r.incomplete + 1 }, input)
  else
    .ok (.packet seen (some
      { sourceId := interface.sourceId
        metadata := m
        iso := iso
        payload := payload
        identityKnown := false
        requestedKnown := known }), { r with requested := requested }, input)

def readPacket (r : Reader) (size : UInt32) (input : Bytes) : Checked (Block × Reader × Bytes) := do
  let o := r.endian
  of (ensure (32 ≤ size.toNat) "short pcapng packet block")
  let (packet, input) ← of (readExact 20 ioError input)
  let index ← word32 o 0 packet
  let interface ← of (context r.interfaces[index.toNat]? "unknown pcapng interface")
  of (ensure (interface.linktype = 220) "only LINKTYPE_USB_LINUX_MMAPPED (220) is supported")
  let high ← word32 o 4 packet
  let low ← word32 o 8 packet
  let timestamp ← timestamp interface (high.toNat * 2 ^ 32 + low.toNat)
  let captured ← word32 o 12 packet
  let original ← word32 o 16 packet
  let rounded ← add 64 captured.toNat 3
  let body ← sub size.toNat 32
  of (ensure (rounded / 4 * 4 ≤ body) "packet length exceeds pcapng block")
  let seen : Packet := ⟨o, index.toNat, input.take captured.toNat, original⟩
  if captured.toNat < 64 ∨ captured < original then do
    let body ← sub size.toNat 32
    let input ← of (skip body input)
    let input ← footer o size input
    .ok (.packet seen none, { r with incomplete := r.incomplete + 1 }, input)
  else do
    of (ensure (captured = original) "captured length exceeds original length")
    readUsb r size captured interface timestamp seen input

def nextBlock (r : Reader) (input : Bytes) : Checked (Block × Reader × Bytes) := do
  let (header, input) ← of (readExact 8 "truncated pcapng block header" input)
  if header.take 4 = [10, 13, 13, 10] then readSection r header input
  else do
    of (ensure r.inSection "pcapng must start with a section header")
    let kind ← word32 r.endian 0 header
    let size ← word32 r.endian 4 header
    of (ensure (12 ≤ size.toNat ∧ size.toNat % 4 = 0) "invalid pcapng block length")
    if kind = 1 then readInterface r size input
    else if kind = 6 then readPacket r size input
    else if kind = 2 ∨ kind = 3 then
      .error (.error ("legacy/simple pcapng packet blocks are not supported; " ++
        "Enhanced Packet Blocks are required"))
    else do
      let rest ← sub size.toNat 12
      let input ← of (skip rest input)
      let input ← footer r.endian size input
      .ok (.unknown, r, input)

/-! ## No check fails -/

theorem length_readExact {n : Nat} {message : String} {input : Bytes} {res : Bytes × Bytes}
    (h : readExact n message input = .ok res) : res.1.length = n := by
  obtain ⟨hlen, rfl⟩ := readExact_eq_ok.mp h
  exact List.length_take_of_le hlen

theorem footer_eq (o : ByteOrder) (size : UInt32) (input : Bytes) :
    footer o size input = of (Pcapng.footer o size input) := by
  refine of_bind fun res hres => ?_
  have hlen := length_readExact hres
  obtain ⟨word, input⟩ := res
  dsimp only at hlen ⊢
  rw [word32, field_ok (by omega), ok_bind]
  exact of_bind fun _ _ => rfl

/-- Blocks end with a footer, and what follows it cannot fail. -/
theorem footer_bind {α : Type} (o : ByteOrder) (size : UInt32) (input : Bytes) (f : Bytes → α) :
    (footer o size input >>= fun input => .ok (f input)) =
      of (Pcapng.footer o size input >>= fun input => .ok (f input)) := by
  rw [footer_eq]
  exact of_bind fun _ _ => rfl

theorem readSection_eq (r : Reader) {header : Bytes} (hheader : header.length = 8) (input : Bytes) :
    readSection r header input = of (Pcapng.readSection r header input) := by
  refine of_bind fun res hres => ?_
  obtain ⟨magic, input⟩ := res
  refine of_bind fun endian hendian => ?_
  dsimp only
  rw [word32, field_ok (by omega), ok_bind]
  refine of_bind fun _ hsize => ?_
  have hlow := (ensure_eq_ok.mp hsize).1
  refine of_bind fun res hres => ?_
  have hlen := length_readExact hres
  obtain ⟨version, input⟩ := res
  dsimp only at hlen ⊢
  rw [word16, field_ok (by omega), ok_bind]
  refine of_bind fun _ _ => ?_
  rw [sub_ok (by omega), ok_bind]
  exact of_bind fun input _ => footer_bind _ _ _ _

theorem applyOption_eq (o : ByteOrder) (interface : Interface) (code : UInt16) (value : Bytes) :
    applyOption o interface code value = of (Pcapng.applyOption o interface code value) := by
  unfold applyOption Pcapng.applyOption
  split
  · refine of_bind fun _ hlen => ?_
    have hlen := ensure_eq_ok.mp hlen
    rw [octet, field_ok (by omega), ok_bind]
    exact of_bind fun _ _ => rfl
  · split
    · refine of_bind fun _ hlen => ?_
      have hlen := ensure_eq_ok.mp hlen
      rw [word64, field_ok (by omega), ok_bind]
      rfl
    · split
      · exact of_bind fun _ _ => rfl
      · rfl

theorem readOptions_eq (o : ByteOrder) (fuel remaining : Nat) (interface : Interface) (input : Bytes) :
    readOptions o fuel remaining interface input =
      of (Pcapng.readOptions o fuel remaining interface input) := by
  induction fuel generalizing remaining interface input with
  | zero => rfl
  | succ fuel ih =>
    rw [readOptions, Pcapng.readOptions]
    split
    · rfl
    · rename_i hremaining
      refine of_bind fun res hres => ?_
      have hlen := length_readExact hres
      obtain ⟨option, input⟩ := res
      dsimp only at hlen ⊢
      have hlength := (u16 o 2 option).toNat_lt
      rw [word16, field_ok (by omega), ok_bind, field_ok (by omega), ok_bind, add,
        guard_of (by omega), ok_bind, sub_ok (by omega), ok_bind]
      refine of_bind fun _ hfits => ?_
      have hfits := ensure_eq_ok.mp hfits
      refine of_bind fun res _ => ?_
      obtain ⟨value, input⟩ := res
      dsimp only
      rw [sub_ok (by omega), ok_bind]
      refine of_bind fun input _ => ?_
      rw [sub_ok hfits, ok_bind, applyOption_eq]
      refine of_bind fun res _ => ?_
      obtain ⟨interface, last⟩ := res
      dsimp only
      split
      · rfl
      · exact ih _ _ _

theorem readInterface_eq (r : Reader) (size : UInt32) (input : Bytes) :
    readInterface r size input = of (Pcapng.readInterface r size input) := by
  refine of_bind fun _ hsize => ?_
  have hsize := ensure_eq_ok.mp hsize
  refine of_bind fun res hres => ?_
  have hlen := length_readExact hres
  obtain ⟨body, input⟩ := res
  dsimp only at hlen ⊢
  rw [word16, field_ok (by omega), ok_bind, sub_ok hsize, ok_bind, readOptions_eq]
  refine of_bind fun res _ => ?_
  obtain ⟨interface, remaining, input⟩ := res
  refine of_bind fun input _ => ?_
  refine of_bind fun _ _ => ?_
  exact footer_bind _ _ _ _

/-- An interface whose timestamps can be computed. -/
structure Sane (i : Interface) : Prop where
  units : 0 < i.units
  unitsFit : i.units < 2 ^ 64
  low : -2 ^ 63 ≤ i.offset
  high : i.offset < 2 ^ 63

theorem timestamp_eq {i : Interface} (h : Sane i) {ticks : Nat} (hticks : ticks < 2 ^ 64) :
    timestamp i ticks = of (i.timestamp ticks) := by
  have hunits := h.units
  have hfit := h.unitsFit
  have hlow := h.low
  have hhigh := h.high
  have hdiv : ((ticks : Int) * 1000000000).tdiv i.units = ((ticks * 1000000000 / i.units : Nat) : Int) := by
    rw [Int.tdiv_eq_ediv_of_nonneg (by positivity)]
    push_cast
    rfl
  have hquot : ticks * 1000000000 / i.units ≤ ticks * 1000000000 := Nat.div_le_self _ _
  have hnonzero : (i.units : Int) ≠ 0 := by omega
  have hsum : -2 ^ (128 - 1) ≤ ((ticks * 1000000000 / i.units : Nat) : Int) + i.offset * 1000000000 ∧
      ((ticks * 1000000000 / i.units : Nat) : Int) + i.offset * 1000000000 < 2 ^ (128 - 1) := by
    generalize ticks * 1000000000 / i.units = quotient at hquot
    omega
  rw [timestamp, signed, guard_of (by omega), ok_bind, signed, guard_of (by omega), ok_bind, div,
    guard_of hnonzero, ok_bind, signed, guard_of (by omega), ok_bind, hdiv, signed,
    guard_of hsum, ok_bind]
  exact of_bind fun _ _ => rfl

theorem usbMeta_eq (o : ByteOrder) (timestamp : UInt64) {usb : Bytes} (h : usb.length = 64) :
    usbMeta o timestamp usb = .ok (Pcapng.usbMeta o timestamp usb) := by
  simp (disch := omega) only [usbMeta, word64, word32, word16, octet, field_ok, ok_bind]
  rfl

theorem checkMeta_eq (m : EventMeta) (dataLen : UInt32) {captured : UInt32} (h : 64 ≤ captured.toNat) :
    checkMeta m dataLen captured = of (Pcapng.checkMeta m dataLen captured) := by
  refine of_bind fun _ _ => ?_
  rw [sub_ok h, ok_bind]
  refine of_bind fun _ _ => ?_
  refine of_bind fun _ _ => ?_
  refine of_bind fun _ hspan => ?_
  rw [sub_ok (ensure_eq_ok.mp hspan).1, ok_bind]
  exact of_bind fun _ _ => rfl

theorem readDescriptors_eq (o : ByteOrder) (m : EventMeta) (known : Bool) (count : Nat) (input : Bytes) :
    readDescriptors o m known count input = of (Pcapng.readDescriptors o m known count input) := by
  induction count generalizing input with
  | zero => rfl
  | succ count ih =>
    refine of_bind fun res hres => ?_
    have hlen := length_readExact hres
    obtain ⟨body, input⟩ := res
    dsimp only at hlen ⊢
    have hoffset := (u32 o 4 body).toNat_lt
    have hlength := (u32 o 8 body).toNat_lt
    rw [word32, field_ok (by omega), ok_bind, field_ok (by omega), ok_bind, field_ok (by omega), ok_bind,
      add, guard_of (by omega), ok_bind]
    refine of_bind fun _ _ => ?_
    refine of_bind fun _ _ => ?_
    rw [ih]
    exact of_bind fun _ _ => rfl

theorem readSetup_eq (o : ByteOrder) (m : EventMeta) (known : Bool) {usb : Bytes} (h : usb.length = 64)
    (input : Bytes) : readSetup o m known usb input = of (Pcapng.readSetup o m known usb input) := by
  unfold readSetup Pcapng.readSetup
  split
  · rw [word32, field_ok (by omega), ok_bind, field_ok (by omega), ok_bind]
    refine of_bind fun _ _ => ?_
    rw [readDescriptors_eq]
    exact of_bind fun _ _ => rfl
  · split
    · rw [field_ok (by omega), ok_bind]
      rfl
    · rfl

theorem readUsb_eq (r : Reader) {size captured : UInt32} (hcaptured : 64 ≤ captured.toNat)
    (hsize : 32 ≤ size.toNat) (hfits : captured.toNat ≤ size.toNat - 32) (interface : Interface)
    (timestamp : UInt64) (seen : Packet) (input : Bytes) :
    readUsb r size captured interface timestamp seen input =
      of (Pcapng.readUsb r size captured interface timestamp seen input) := by
  refine of_bind fun res hres => ?_
  have hlen := length_readExact hres
  obtain ⟨usb, input⟩ := res
  dsimp only at hlen ⊢
  rw [usbMeta_eq _ _ hlen, ok_bind, word32, field_ok (by omega), ok_bind, field_ok (by omega), ok_bind,
    checkMeta_eq _ _ hcaptured]
  refine of_bind fun m _ => ?_
  refine of_bind fun res _ => ?_
  obtain ⟨m, known, requested⟩ := res
  dsimp only
  rw [readSetup_eq _ _ _ hlen]
  refine of_bind fun res _ => ?_
  obtain ⟨m, iso, input⟩ := res
  refine of_bind fun res _ => ?_
  obtain ⟨payload, input⟩ := res
  dsimp only
  rw [sub_ok hsize, ok_bind, sub_ok hfits, ok_bind]
  refine of_bind fun input _ => ?_
  rw [footer_eq]
  refine of_bind fun input _ => ?_
  split
  · rfl
  · rfl

theorem readPacket_eq {r : Reader} (hr : ∀ i ∈ r.interfaces, Sane i) (size : UInt32) (input : Bytes) :
    readPacket r size input = of (Pcapng.readPacket r size input) := by
  refine of_bind fun _ hsize => ?_
  have hsize := ensure_eq_ok.mp hsize
  refine of_bind fun res hres => ?_
  have hlen := length_readExact hres
  obtain ⟨packet, input⟩ := res
  dsimp only at hlen ⊢
  rw [word32, field_ok (by omega), ok_bind]
  refine of_bind fun interface hinterface => ?_
  have hsane := hr interface (List.mem_of_getElem? (context_eq_ok.mp hinterface))
  refine of_bind fun _ _ => ?_
  have hhigh := (u32 r.endian 4 packet).toNat_lt
  have hlow := (u32 r.endian 8 packet).toNat_lt
  have hcaptured := (u32 r.endian 12 packet).toNat_lt
  rw [field_ok (by omega), ok_bind, field_ok (by omega), ok_bind, timestamp_eq hsane (by omega)]
  refine of_bind fun timestamp _ => ?_
  rw [field_ok (by omega), ok_bind, field_ok (by omega), ok_bind, add, guard_of (by omega), ok_bind,
    sub_ok hsize, ok_bind]
  refine of_bind fun _ hfits => ?_
  have hfits := ensure_eq_ok.mp hfits
  split
  · refine of_bind fun input _ => ?_
    exact footer_bind _ _ _ _
  · rename_i hfull
    refine of_bind fun _ _ => ?_
    exact readUsb_eq r (by omega) hsize (by omega) _ _ _ _

/-- A reader whose interfaces can all be used does not panic on its next block. -/
theorem nextBlock_eq {r : Reader} (hr : ∀ i ∈ r.interfaces, Sane i) (input : Bytes) :
    nextBlock r input = of (Pcapng.nextBlock r input) := by
  refine of_bind fun res hres => ?_
  have hlen := length_readExact hres
  obtain ⟨header, input⟩ := res
  dsimp only at hlen ⊢
  split
  · exact readSection_eq r hlen input
  · refine of_bind fun _ _ => ?_
    rw [word32, field_ok (by omega), ok_bind, field_ok (by omega), ok_bind]
    refine of_bind fun _ hsize => ?_
    have hsize := (ensure_eq_ok.mp hsize).1
    split
    · exact readInterface_eq r _ input
    · split
      · exact readPacket_eq hr _ input
      · split
        · rfl
        · rw [sub_ok hsize, ok_bind]
          refine of_bind fun input _ => ?_
          exact footer_bind _ _ _ _

end Checked
end UsbScope.Pcapng
