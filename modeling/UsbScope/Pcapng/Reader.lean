import UsbScope.Capture.Reassembler

/-! # Reading pcapng

A streaming reader of complete `LINKTYPE_USB_LINUX_MMAPPED` records. `nextBlock`
is one turn of the loop of `next_event`; the blocks that a run passes are kept,
each packet block with its captured bytes and the event it delivered. After an
error nobody reads on, so an error carries no state. -/
namespace UsbScope.Pcapng
open UsbScope.Lib UsbScope.Common UsbScope.Capture

structure Interface where
  sourceId : UInt64
  linktype : UInt16
  units : Nat
  offset : Int
deriving DecidableEq

/-- The key of a submission: its source and URB id. -/
abbrev RequestKey := UInt64 × UInt64

structure Reader where
  endian : ByteOrder
  inSection : Bool
  interfaces : List Interface
  nextSourceId : UInt64
  requested : AList fun _ : RequestKey => UInt32
  incomplete : Nat
deriving DecidableEq

def Reader.new : Reader :=
  { endian := .little
    inSection := false
    interfaces := []
    nextSourceId := 0
    requested := ∅
    incomplete := 0 }

/-- A packet block as the file has it. -/
structure Packet where
  endian : ByteOrder
  interface : Nat
  captured : Bytes
  original : UInt32
deriving DecidableEq

inductive Block where
  | sectionHeader
  | interface
  | unknown
  /-- A packet, with the event unless it counts as incomplete. -/
  | packet (p : Packet) (event : Option Event)
deriving DecidableEq

def Block.event : Block → Option Event
  | .packet _ event => event
  | _ => none

/-! ## Input -/

def readExact (n : Nat) (message : String) (input : Bytes) : Result (Bytes × Bytes) :=
  if n ≤ input.length then .ok (input.take n, input.drop n) else .error message

def ioError : String := "failed to fill whole buffer"

def skip (n : Nat) (input : Bytes) : Result Bytes := do
  let (_, input) ← readExact n "truncated pcapng block" input
  .ok input

def footer (o : ByteOrder) (size : UInt32) (input : Bytes) : Result Bytes := do
  let (word, input) ← readExact 4 "truncated pcapng block" input
  ensure (u32 o 0 word = size) "pcapng block lengths disagree"
  .ok input

/-- The length of a field padded to a multiple of four. -/
def padded (n : Nat) : Nat := (n + 3) / 4 * 4

/-! ## Section headers and interfaces -/

def byteOrderOf (magic : Bytes) : Option ByteOrder :=
  if magic = [77, 60, 43, 26] then some .little
  else if magic = [26, 43, 60, 77] then some .big
  else none

/-- The rest of a section header block. -/
def readSection (r : Reader) (header input : Bytes) : Result (Block × Reader × Bytes) := do
  let (magic, input) ← readExact 4 ioError input
  let endian ← context (byteOrderOf magic) "invalid pcapng byte order magic"
  let size := u32 endian 4 header
  ensure (28 ≤ size.toNat ∧ size.toNat % 4 = 0) "invalid pcapng section length"
  let (version, input) ← readExact 4 ioError input
  ensure (u16 endian 0 version = 1) "unsupported pcapng version"
  let input ← skip (size.toNat - 20) input
  let input ← footer endian size input
  .ok (.sectionHeader,
    { r with endian := endian, inSection := true, interfaces := [], requested := ∅ }, input)

/-- The timestamp resolution of option 9. -/
def unitsOf (value : UInt8) : Option Nat :=
  let units := if value &&& 128 ≠ 0 then 2 ^ (value &&& 127).toNat else 10 ^ value.toNat
  if units < 2 ^ 64 then some units else none

/-- One option: what it says of the interface, and whether it ends the list. -/
def applyOption (o : ByteOrder) (interface : Interface) (code : UInt16) (value : Bytes) :
    Result (Interface × Bool) :=
  if code = 9 then do
    ensure (value.length = 1) "invalid timestamp resolution option"
    let units ← context (unitsOf (byte 0 value)) "timestamp resolution not representable"
    .ok ({ interface with units := units }, false)
  else if code = 14 then do
    ensure (value.length = 8) "invalid timestamp offset option"
    .ok ({ interface with offset := (u64 o 0 value).toInt64.toInt }, false)
  else if code = 0 then do
    ensure (value.length = 0) "invalid end-of-options"
    .ok (interface, true)
  else .ok (interface, false)

/-- The options of an interface, with the bytes of the block left behind them.
Each takes at least four bytes. -/
def readOptions (o : ByteOrder) : Nat → Nat → Interface → Bytes → Result (Interface × Nat × Bytes)
  | 0, remaining, interface, input => .ok (interface, remaining, input)
  | fuel + 1, remaining, interface, input =>
    if remaining < 4 then .ok (interface, remaining, input)
    else do
      let (option, input) ← readExact 4 ioError input
      let length := (u16 o 2 option).toNat
      let remaining := remaining - 4
      ensure (padded length ≤ remaining) "pcapng option outside block"
      let (value, input) ← readExact length ioError input
      let input ← skip (padded length - length) input
      let remaining := remaining - padded length
      let (interface, last) ← applyOption o interface (u16 o 0 option) value
      if last then .ok (interface, remaining, input)
      else readOptions o fuel remaining interface input

def readInterface (r : Reader) (size : UInt32) (input : Bytes) :
    Result (Block × Reader × Bytes) := do
  ensure (20 ≤ size.toNat) "short pcapng interface block"
  let (body, input) ← readExact 8 ioError input
  let interface : Interface :=
    { sourceId := r.nextSourceId
      linktype := u16 r.endian 0 body
      units := 1000000
      offset := 0 }
  let remaining := size.toNat - 20
  let (interface, remaining, input) ← readOptions r.endian (remaining / 4) remaining interface input
  let input ← skip remaining input
  ensure (r.nextSourceId.toNat + 1 < 2 ^ 64) "too many pcapng capture sources"
  let r := { r with
    nextSourceId := r.nextSourceId + 1
    interfaces := r.interfaces ++ [interface] }
  let input ← footer r.endian size input
  .ok (.interface, r, input)

/-! ## Packets -/

/-- The time of a packet, in nanoseconds. -/
def Interface.timestamp (i : Interface) (ticks : Nat) : Result UInt64 := do
  let ns : Int := ((ticks * 1000000000 / i.units : Nat) : Int) + i.offset * 1000000000
  ensure (0 ≤ ns ∧ ns < 2 ^ 64) "packet timestamp out of range"
  .ok (UInt64.ofNat ns.toNat)

/-- The metadata of a pseudoheader, before its lengths are known. -/
def usbMeta (o : ByteOrder) (timestamp : UInt64) (usb : Bytes) : EventMeta :=
  { EventMeta.zero with
    urbId := u64 o 0 usb
    timestampNs := timestamp
    bus := u16 o 12 usb
    device := byte 11 usb
    endpoint := byte 10 usb
    transferType := byte 9 usb
    eventType := byte 8 usb
    setupPresent := if byte 14 usb = 0 then 1 else 0
    hasData := if byte 15 usb = 0 then 1 else 0
    status := (u32 o 28 usb).toInt32
    interval := (u32 o 48 usb).toInt32
    startFrame := (u32 o 52 usb).toInt32
    transferFlags := u32 o 56 usb
    isoCount := u32 o 60 usb }

/-- The checks of the pseudoheader; the declared payload follows from them. -/
def checkMeta (m : EventMeta) (dataLen captured : UInt32) : Result EventMeta := do
  ensure ((m.eventType = submitType ∨ m.eventType = completeType ∨ m.eventType = errorType) ∧
    m.transferType.toNat ≤ 3 ∧ m.device.toNat ≤ 127) "invalid USB pseudoheader"
  ensure (dataLen.toNat = captured.toNat - 64) "USB data length disagrees with packet length"
  ensure (m.isoCount.toNat * 16 < 2 ^ 32) "ISO descriptor size overflow"
  ensure (m.isoCount.toNat * 16 ≤ dataLen.toNat ∧ (m.transferType = 0 ∨ m.isoCount = 0))
    "invalid ISO descriptor span"
  let m := { m with payloadLen := UInt32.ofNat (dataLen.toNat - m.isoCount.toNat * 16) }
  ensure (m.hasData ≠ 0 ∨ m.payloadLen = 0) "USB payload without presence flag"
  .ok m

def maxRequested : Nat := 65536

/-- Record a submission, or find and forget the one of a completion: the
metadata with its lengths, whether the requested length is known, and the table
of submissions. -/
def pairRequest (requested : AList fun _ : RequestKey => UInt32) (source : UInt64) (m : EventMeta)
    (wireLen : UInt32) : Result (EventMeta × Bool × AList fun _ : RequestKey => UInt32) :=
  if m.eventType = submitType then do
    ensure (requested.keys.length < maxRequested) "too many unmatched pcapng submissions"
    .ok ({ m with requestedLen := wireLen }, true, requested.insert (source, m.urbId) wireLen)
  else
    let request := requested.lookup (source, m.urbId)
    .ok ({ m with actualLen := wireLen, requestedLen := request.getD 0 }, request.isSome,
      requested.erase (source, m.urbId))

def descriptorOf (o : ByteOrder) (body : Bytes) : IsoDescriptor :=
  { status := (u32 o 0 body).toInt32
    offset := u32 o 4 body
    length := u32 o 8 body
    padding := 0 }

/-- The ISO descriptors of a packet, checked against its buffer and payload. -/
def readDescriptors (o : ByteOrder) (m : EventMeta) (known : Bool) :
    Nat → Bytes → Result (List IsoDescriptor × Bytes)
  | 0, input => .ok ([], input)
  | count + 1, input => do
    let (body, input) ← readExact 16 ioError input
    let d := descriptorOf o body
    ensure (d.stop < 2 ^ 32 ∧ (!known ∨ d.stop ≤ m.requestedLen.toNat))
      "ISO descriptor outside URB buffer"
    ensure (m.hasData = 0 ∨ d.length = 0 ∨ d.stop ≤ m.payloadLen.toNat) "truncated ISO payload"
    let (rest, input) ← readDescriptors o m known count input
    .ok (d :: rest, input)

/-- The ISO fields and descriptors, or the setup packet. -/
def readSetup (o : ByteOrder) (m : EventMeta) (known : Bool) (usb input : Bytes) :
    Result (EventMeta × List IsoDescriptor × Bytes) :=
  if m.transferType = 0 then do
    let m := { m with errorCount := (u32 o 40 usb).toInt32 }
    ensure (u32 o 44 usb = m.isoCount) "truncated ISO descriptor list"
    let (iso, input) ← readDescriptors o m known m.isoCount.toNat input
    .ok (m, iso, input)
  else if m.setupPresent ≠ 0 then
    .ok ({ m with setup := Vector.ofFn fun i => byte (40 + i) usb }, [], input)
  else .ok (m, [], input)

/-- Whether the phase was meant to carry data. -/
def expectedData (m : EventMeta) (iso : List IsoDescriptor) (wireLen : UInt32) : Bool :=
  m.dataPhase && if m.transferType = 0 then iso.any fun d => d.length ≠ 0 else wireLen ≠ 0

/-- A packet whose data usbmon left out, or cut. -/
def lostData (m : EventMeta) (iso : List IsoDescriptor) (wireLen : UInt32) : Bool :=
  (expectedData m iso wireLen && m.hasData == 0) ||
    (m.transferType != 0 && m.hasData != 0 && m.payloadLen != wireLen)

/-- A packet block whose packet was captured in full. -/
def readUsb (r : Reader) (size captured : UInt32) (interface : Interface) (timestamp : UInt64)
    (seen : Packet) (input : Bytes) : Result (Block × Reader × Bytes) := do
  let o := r.endian
  let (usb, input) ← readExact 64 ioError input
  let m ← checkMeta (usbMeta o timestamp usb) (u32 o 36 usb) captured
  let wireLen := u32 o 32 usb
  let (m, known, requested) ← pairRequest r.requested interface.sourceId m wireLen
  let (m, iso, input) ← readSetup o m known usb input
  let (payload, input) ← readExact m.payloadLen.toNat "truncated pcapng payload" input
  let input ← skip (size.toNat - 32 - captured.toNat) input
  let input ← footer o size input
  if lostData m iso wireLen then
    .ok (.packet seen none, { r with requested := requested, incomplete := r.incomplete + 1 }, input)
  else
    .ok (.packet seen (some
      { sourceId := interface.sourceId
        metadata := m
        iso := iso
        payload := payload
        identityKnown := false
        requestedKnown := known }), { r with requested := requested }, input)

def readPacket (r : Reader) (size : UInt32) (input : Bytes) : Result (Block × Reader × Bytes) := do
  let o := r.endian
  ensure (32 ≤ size.toNat) "short pcapng packet block"
  let (packet, input) ← readExact 20 ioError input
  let index := (u32 o 0 packet).toNat
  let interface ← context r.interfaces[index]? "unknown pcapng interface"
  ensure (interface.linktype = 220) "only LINKTYPE_USB_LINUX_MMAPPED (220) is supported"
  let timestamp ← interface.timestamp ((u32 o 4 packet).toNat * 2 ^ 32 + (u32 o 8 packet).toNat)
  let captured := u32 o 12 packet
  let original := u32 o 16 packet
  ensure (padded captured.toNat ≤ size.toNat - 32) "packet length exceeds pcapng block"
  let seen : Packet := ⟨o, index, input.take captured.toNat, original⟩
  if captured.toNat < 64 ∨ captured < original then do
    let input ← skip (size.toNat - 32) input
    let input ← footer o size input
    .ok (.packet seen none, { r with incomplete := r.incomplete + 1 }, input)
  else do
    ensure (captured = original) "captured length exceeds original length"
    readUsb r size captured interface timestamp seen input

/-! ## Blocks -/

/-- One block. -/
def nextBlock (r : Reader) (input : Bytes) : Result (Block × Reader × Bytes) := do
  let (header, input) ← readExact 8 "truncated pcapng block header" input
  if header.take 4 = [10, 13, 13, 10] then readSection r header input
  else do
    ensure r.inSection "pcapng must start with a section header"
    let kind := u32 r.endian 0 header
    let size := u32 r.endian 4 header
    ensure (12 ≤ size.toNat ∧ size.toNat % 4 = 0) "invalid pcapng block length"
    if kind = 1 then readInterface r size input
    else if kind = 6 then readPacket r size input
    else if kind = 2 ∨ kind = 3 then
      .error ("legacy/simple pcapng packet blocks are not supported; " ++
        "Enhanced Packet Blocks are required")
    else do
      let input ← skip (size.toNat - 12) input
      let input ← footer r.endian size input
      .ok (.unknown, r, input)

/-- The next blocks, at most `count` and up to the end of file. -/
def readBlocks : Nat → Reader → Bytes → Result (List Block × Reader × Bytes)
  | 0, r, input => .ok ([], r, input)
  | count + 1, r, input =>
    if input = [] then .ok ([], r, input)
    else do
      let (block, r, input) ← nextBlock r input
      let (blocks, r, input) ← readBlocks count r input
      .ok (block :: blocks, r, input)

/-- The reader reads the input to the end of file, without an error. -/
def Reads (input : Bytes) (blocks : List Block) (r : Reader) : Prop :=
  ∃ count, readBlocks count Reader.new input = .ok (blocks, r, [])

/-- The events that a run of the reader delivered. -/
def delivered (blocks : List Block) : List Event := blocks.filterMap Block.event

end UsbScope.Pcapng
