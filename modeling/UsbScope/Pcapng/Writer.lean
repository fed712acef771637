import UsbScope.Capture.Reassembler

/-! # Writing pcapng

One section with interfaces of link type `LINKTYPE_USB_LINUX_MMAPPED` and an
Enhanced Packet Block for each event. Sources get their own interface, declared
before its first packet. The output itself does not fail; what a failing call
has already sent is not modelled, since its caller gives up. -/
namespace UsbScope.Pcapng
open UsbScope.Lib UsbScope.Common UsbScope.Capture

/-- `write_u32`. -/
def le32 (value : UInt32) : Bytes := ByteOrder.little.bytes 4 value.toNat

def block (kind : UInt32) (data : Bytes) : Bytes :=
  let len := UInt32.ofNat (data.length + 12)
  le32 kind ++ (le32 len ++ (data ++ le32 len))

def sectionBlock : Bytes :=
  block 0x0a0d0d0a [0x4d, 0x3c, 0x2b, 0x1a, 1, 0, 0, 0, 255, 255, 255, 255, 255, 255, 255, 255]

/-- `LINKTYPE_USB_LINUX_MMAPPED`, no snap limit, microsecond timestamps. -/
def interfaceBlock : Bytes := block 1 [220, 0, 0, 0, 0, 0, 0, 0]

structure Writer where
  output : Bytes
  bytes : Nat
  /-- The sources seen so far; each has its position as interface. -/
  interfaces : List UInt64
deriving DecidableEq

def Writer.new : Writer :=
  { output := sectionBlock ++ interfaceBlock
    bytes := 48
    interfaces := [] }

/-! ## A packet -/

/-- The interface of a source, the block that declares a new one, and the
interfaces after it. The first is declared with the section. -/
def interfaceFor (interfaces : List UInt64) (source : UInt64) :
    Result (UInt32 × Bytes × List UInt64) :=
  match interfaces.idxOf? source with
  | some index => .ok (UInt32.ofNat index, [], interfaces)
  | none => do
    let index := interfaces.length
    ensure (index < 2 ^ 32) "too many output interfaces"
    .ok (UInt32.ofNat index, if index ≠ 0 then interfaceBlock else [], interfaces ++ [source])

/-- Captured length, padding and total length of a packet block. -/
structure Lengths where
  data : UInt32
  captured : UInt32
  padding : UInt32
  total : UInt32

def lengths (descriptors : Nat) (payloadLen : UInt32) : Result Lengths := do
  ensure (descriptors < 2 ^ 32) "too many ISO descriptors"
  ensure (descriptors * 16 < 2 ^ 32) "ISO descriptor length overflow"
  let data := descriptors * 16 + payloadLen.toNat
  ensure (data < 2 ^ 32) "USB record exceeds format length"
  let captured := 64 + data
  ensure (captured < 2 ^ 32) "USB record exceeds format length"
  let padding := (4 - captured % 4) % 4
  let total := captured + (padding + 32)
  ensure (total < 2 ^ 32) "pcapng block exceeds format length"
  .ok
    { data := UInt32.ofNat data
      captured := UInt32.ofNat captured
      padding := UInt32.ofNat padding
      total := UInt32.ofNat total }

/-- The length that the phase reports. -/
def wireLen (m : EventMeta) : UInt32 :=
  if m.eventType = submitType then m.requestedLen else m.actualLen

/-- The ISO fields, the setup packet or nothing. -/
def setupArea (m : EventMeta) : Bytes :=
  if m.transferType = 0 then le32 m.errorCount.toUInt32 ++ le32 m.isoCount
  else if m.setupPresent ≠ 0 then m.setup.toList
  else List.replicate 8 0

/-- The pseudoheader of 64 bytes. The flags are zero or the letters of usbmon:
`-` without setup, `<` or `>` without data. -/
def usbHeader (m : EventMeta) (data : UInt32) : Bytes :=
  let ts := m.timestampNs.toNat / 1000
  ByteOrder.little.bytes 8 m.urbId.toNat ++
    (m.eventType :: m.transferType :: m.endpoint :: m.device ::
    (ByteOrder.little.bytes 2 m.bus.toNat ++
    ((if m.setupPresent ≠ 0 then 0 else 45) ::
    (if m.hasData ≠ 0 then 0 else if m.endpoint &&& 0x80 ≠ 0 then 60 else 62) ::
    (ByteOrder.little.bytes 8 (ts / 1000000) ++
    (ByteOrder.little.bytes 4 (ts % 1000000) ++
    (le32 m.status.toUInt32 ++
    (le32 (wireLen m) ++
    (le32 data ++
    (setupArea m ++
    (le32 m.interval.toUInt32 ++
    (le32 m.startFrame.toUInt32 ++
    (le32 m.transferFlags ++
    le32 m.isoCount))))))))))))

def descriptorBytes (d : IsoDescriptor) : Bytes :=
  le32 d.status.toUInt32 ++ (le32 d.offset ++ (le32 d.length ++ le32 0))

/-- The fields of an Enhanced Packet Block before the packet. -/
def packetHeader (interface : UInt32) (ts : Nat) (l : Lengths) : Bytes :=
  le32 6 ++ (le32 l.total ++ (le32 interface ++ (le32 (UInt32.ofNat (ts / 2 ^ 32)) ++
    (le32 (UInt32.ofNat ts) ++ (le32 l.captured ++ le32 l.captured)))))

def packetData (e : Event) (data : UInt32) : Bytes :=
  usbHeader e.metadata data ++ (e.iso.flatMap descriptorBytes ++
    e.payload.take e.metadata.payloadLen.toNat)

def packetBlock (interface : UInt32) (e : Event) (l : Lengths) : Bytes :=
  packetHeader interface (e.metadata.timestampNs.toNat / 1000) l ++ (packetData e l.data ++
    (List.replicate l.padding.toNat 0 ++ le32 l.total))

namespace Writer

def writeEvent (w : Writer) (e : Event) : Result Writer := do
  let (interface, declaration, interfaces) ← interfaceFor w.interfaces e.sourceId
  let l ← lengths e.iso.length e.metadata.payloadLen
  ensure (e.metadata.payloadLen.toNat ≤ e.payload.length) "payload shorter than declared span"
  .ok
    { output := w.output ++ (declaration ++ packetBlock interface e l)
      bytes := w.bytes + (if declaration = [] then 0 else 20) + l.total.toNat
      interfaces := interfaces }

def writeAll (w : Writer) (events : List Event) : Result Writer := events.foldlM writeEvent w

end Writer
end UsbScope.Pcapng
