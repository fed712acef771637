import UsbScope.Common.Abi

/-! # Bytes of the ring records

The probes build records in host byte order, swap each multibyte scalar with
`to_le` and publish the `repr(C)` layout. `wire` is the little-endian layout
that results on either host (`RecordHeader.toLe_layout` and its siblings). -/
namespace UsbScope.Common
open UsbScope.Lib

/-- `to_le` on the low `w` bytes of a scalar. -/
def toLe (host : ByteOrder) (w n : Nat) : Nat :=
  match host with
  | .little => n
  | .big => leNat (leBytes w n).reverse

theorem toLe_lt {host : ByteOrder} {w n : Nat} (h : n < 256 ^ w) : toLe host w n < 256 ^ w := by
  cases host with
  | little => exact h
  | big =>
    have := leNat_lt (leBytes w n).reverse
    simpa [toLe] using this

/-- Storing a scalar in host order after `to_le` gives its little-endian bytes. -/
theorem bytes_toLe (host : ByteOrder) (w n : Nat) :
    host.bytes w (toLe host w n) = ByteOrder.little.bytes w n := by
  cases host with
  | little => rfl
  | big =>
    have := leBytes_leNat (leBytes w n).reverse
    rw [List.length_reverse, length_leBytes] at this
    simp [ByteOrder.bytes, toLe, this]

def toLe16 (host : ByteOrder) (x : UInt16) : UInt16 := UInt16.ofNat (toLe host 2 x.toNat)
def toLe32 (host : ByteOrder) (x : UInt32) : UInt32 := UInt32.ofNat (toLe host 4 x.toNat)
def toLe64 (host : ByteOrder) (x : UInt64) : UInt64 := UInt64.ofNat (toLe host 8 x.toNat)
def toLeI32 (host : ByteOrder) (x : Int32) : Int32 := (toLe32 host x.toUInt32).toInt32

theorem bytes_toLe16 (host : ByteOrder) (x : UInt16) :
    host.bytes 2 (toLe16 host x).toNat = ByteOrder.little.bytes 2 x.toNat := by
  rw [toLe16, UInt16.toNat_ofNat_of_lt' (toLe_lt x.toNat_lt), bytes_toLe]

theorem bytes_toLe32 (host : ByteOrder) (x : UInt32) :
    host.bytes 4 (toLe32 host x).toNat = ByteOrder.little.bytes 4 x.toNat := by
  rw [toLe32, UInt32.toNat_ofNat_of_lt' (toLe_lt x.toNat_lt), bytes_toLe]

theorem bytes_toLe64 (host : ByteOrder) (x : UInt64) :
    host.bytes 8 (toLe64 host x).toNat = ByteOrder.little.bytes 8 x.toNat := by
  rw [toLe64, UInt64.toNat_ofNat_of_lt' (toLe_lt x.toNat_lt), bytes_toLe]

theorem bytes_toLeI32 (host : ByteOrder) (x : Int32) :
    host.bytes 4 (toLeI32 host x).toUInt32.toNat = ByteOrder.little.bytes 4 x.toUInt32.toNat := by
  rw [toLeI32, UInt32.toUInt32_toInt32, bytes_toLe32]

/-! ## Record headers -/

def RecordHeader.toLe (host : ByteOrder) (h : RecordHeader) : RecordHeader :=
  { version := toLe16 host h.version, kind := toLe16 host h.kind, size := toLe32 host h.size,
    eventId := toLe64 host h.eventId, offset := toLe64 host h.offset }

/-- The `repr(C)` bytes of a header in byte order `o`. -/
def RecordHeader.layout (o : ByteOrder) (h : RecordHeader) : Bytes :=
  o.bytes 2 h.version.toNat ++ (o.bytes 2 h.kind.toNat ++ (o.bytes 4 h.size.toNat ++
    (o.bytes 8 h.eventId.toNat ++ o.bytes 8 h.offset.toNat)))

def RecordHeader.wire (h : RecordHeader) : Bytes := h.layout .little

theorem RecordHeader.toLe_layout (host : ByteOrder) (h : RecordHeader) :
    (h.toLe host).layout host = h.wire := by
  simp only [RecordHeader.layout, RecordHeader.toLe, RecordHeader.wire, bytes_toLe16, bytes_toLe32,
    bytes_toLe64]

@[simp] theorem RecordHeader.length_wire (h : RecordHeader) : h.wire.length = 24 := by
  simp [RecordHeader.wire, RecordHeader.layout]

/-! ## Metadata -/

/-- `encode_le`: the single-byte fields and the setup bytes stay as they are. -/
def EventMeta.encodeLe (host : ByteOrder) (m : EventMeta) : EventMeta :=
  { m with
    urbId := toLe64 host m.urbId
    timestampNs := toLe64 host m.timestampNs
    bus := toLe16 host m.bus
    status := toLeI32 host m.status
    requestedLen := toLe32 host m.requestedLen
    actualLen := toLe32 host m.actualLen
    payloadLen := toLe32 host m.payloadLen
    interval := toLeI32 host m.interval
    startFrame := toLeI32 host m.startFrame
    transferFlags := toLe32 host m.transferFlags
    isoCount := toLe32 host m.isoCount
    errorCount := toLeI32 host m.errorCount
    vid := toLe16 host m.vid
    pid := toLe16 host m.pid }

def EventMeta.layout (o : ByteOrder) (m : EventMeta) : Bytes :=
  o.bytes 8 m.urbId.toNat ++ (o.bytes 8 m.timestampNs.toNat ++ (o.bytes 2 m.bus.toNat ++
    ([m.device, m.endpoint, m.transferType, m.eventType, m.setupPresent, m.hasData] ++
    (o.bytes 4 m.status.toUInt32.toNat ++ (o.bytes 4 m.requestedLen.toNat ++
    (o.bytes 4 m.actualLen.toNat ++ (o.bytes 4 m.payloadLen.toNat ++
    (o.bytes 4 m.interval.toUInt32.toNat ++ (o.bytes 4 m.startFrame.toUInt32.toNat ++
    (o.bytes 4 m.transferFlags.toNat ++ (o.bytes 4 m.isoCount.toNat ++
    (o.bytes 4 m.errorCount.toUInt32.toNat ++ (o.bytes 2 m.vid.toNat ++
    (o.bytes 2 m.pid.toNat ++ m.setup.toList))))))))))))))

def EventMeta.wire (m : EventMeta) : Bytes := m.layout .little

theorem EventMeta.encodeLe_layout (host : ByteOrder) (m : EventMeta) :
    (m.encodeLe host).layout host = m.wire := by
  simp only [EventMeta.layout, EventMeta.encodeLe, EventMeta.wire, bytes_toLe16, bytes_toLe32,
    bytes_toLe64, bytes_toLeI32]

@[simp] theorem EventMeta.length_wire (m : EventMeta) : m.wire.length = 72 := by
  simp [EventMeta.wire, EventMeta.layout]

/-! ## ISO descriptors and event ends -/

def IsoDescriptor.toLe (host : ByteOrder) (d : IsoDescriptor) : IsoDescriptor :=
  { status := toLeI32 host d.status, offset := toLe32 host d.offset,
    length := toLe32 host d.length, padding := toLe32 host d.padding }

def IsoDescriptor.layout (o : ByteOrder) (d : IsoDescriptor) : Bytes :=
  o.bytes 4 d.status.toUInt32.toNat ++ (o.bytes 4 d.offset.toNat ++
    (o.bytes 4 d.length.toNat ++ o.bytes 4 d.padding.toNat))

def IsoDescriptor.wire (d : IsoDescriptor) : Bytes := d.layout .little

theorem IsoDescriptor.toLe_layout (host : ByteOrder) (d : IsoDescriptor) :
    (d.toLe host).layout host = d.wire := by
  simp only [IsoDescriptor.layout, IsoDescriptor.toLe, IsoDescriptor.wire, bytes_toLe32,
    bytes_toLeI32]

@[simp] theorem IsoDescriptor.length_wire (d : IsoDescriptor) : d.wire.length = 16 := by
  simp [IsoDescriptor.wire, IsoDescriptor.layout]

def EventEnd.toLe (host : ByteOrder) (e : EventEnd) : EventEnd :=
  { copiedBytes := toLe64 host e.copiedBytes, descriptors := toLe32 host e.descriptors,
    reason := toLe32 host e.reason }

def EventEnd.layout (o : ByteOrder) (e : EventEnd) : Bytes :=
  o.bytes 8 e.copiedBytes.toNat ++ (o.bytes 4 e.descriptors.toNat ++ o.bytes 4 e.reason.toNat)

def EventEnd.wire (e : EventEnd) : Bytes := e.layout .little

theorem EventEnd.toLe_layout (host : ByteOrder) (e : EventEnd) :
    (e.toLe host).layout host = e.wire := by
  simp only [EventEnd.layout, EventEnd.toLe, EventEnd.wire, bytes_toLe64, bytes_toLe32]

@[simp] theorem EventEnd.length_wire (e : EventEnd) : e.wire.length = 16 := by
  simp [EventEnd.wire, EventEnd.layout]

/-! ## Whole records -/

/-- A record as it is published: header and body, in wire order. -/
def record (kind : UInt16) (id offset : UInt64) (body : Bytes) : Bytes :=
  RecordHeader.wire
    { version := abiVersion, kind := kind, size := UInt32.ofNat (24 + body.length),
      eventId := id, offset := offset } ++ body

end UsbScope.Common
