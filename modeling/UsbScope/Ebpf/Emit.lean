import UsbScope.Ebpf.Probe

/-! # Publishing an event

`emit` and its callbacks: an event goes to the ring as a `BEGIN` record, the
descriptors and payload chunks of its data phase, and an `END` record with the
reason of an early stop. Every failure is counted where it happens. -/
namespace UsbScope.Ebpf
open UsbScope.Lib UsbScope.Common

structure CopyContext where
  source : UInt64
  destination : Nat
  eventId : UInt64
  total : UInt32
  reason : UInt32
  copied : Nat

/-- `header`: converted to the wire byte order, laid out by the host. -/
def header (k : Kernel) (kind : UInt16) (eventId : UInt64) (size : Nat) (offset : Nat) : Bytes :=
  ((RecordHeader.mk abiVersion kind (UInt32.ofNat size) eventId (UInt64.ofNat offset)).toLe
    k.host).layout k.host

/-! ## Payload chunks -/

/-- `copy_chunk::<N>`: one reservation of `n` data bytes, of which `length` are
filled. -/
def copyChunk (k : Kernel) (n : Nat) (c : CopyContext) (offset length : Nat) (st : Probe) :
    UInt32 × Probe :=
  if length = 0 ∨ n < length then (lossRead, st)
  else
    match st.fails with
    | (true, st) => (lossRing, st.count 3)
    | (false, st) =>
      match st.fails with
      | (true, st) => (lossRead, st.count 4)
      | (false, st) =>
        (0, st.submit (header k recordData c.eventId (24 + length) (c.destination + offset) ++
          (k.read (c.source + UInt64.ofNat offset) length ++ k.leftover (n - length))))

/-- The reservation that `copy_callback` picks for a chunk. -/
def reservation (length : Nat) : Nat :=
  if length ≤ 256 then 256
  else if length ≤ 1024 then 1024
  else if length ≤ 4096 then 4096
  else chunkSize

def copyCallback (k : Kernel) (index : Nat) : CopyContext × Probe → Bool × (CopyContext × Probe)
  | (c, st) =>
    let offset := index * chunkSize
    if c.total.toNat ≤ offset then (true, (c, st))
    else
      let length := min (c.total.toNat - offset) chunkSize
      match copyChunk k (reservation length) c offset length st with
      | (reason, st) =>
        if reason ≠ 0 then (true, ({ c with reason := reason }, st))
        else (false, ({ c with copied := c.copied + length }, st))

def chunkCount (total : UInt32) : Nat := (total.toNat + chunkSize - 1) / chunkSize

/-! ## Scatter-gather lists -/

structure SgContext where
  next : UInt64
  copy : CopyContext
  remaining : UInt32
  segmentLeft : UInt32
  segmentsLeft : UInt32

def saturatingSub (a b : UInt32) : UInt32 := if b ≤ a then a - b else 0

/-- The segment `sg_copy_segment` works on: the current one, or the next of the
list; nothing when the list cannot be read any further. -/
def sgAdvance (k : Kernel) (memory : SgMemory) (c : SgContext) (st : Probe) :
    Option SgContext × Probe :=
  if c.segmentLeft ≠ 0 then (some c, st)
  else if c.next = 0 ∨ c.segmentsLeft = 0 then (none, st)
  else
    match coreSgSegment k memory c.next st with
    | (none, st) => (none, st)
    | (some segment, st) =>
      (some { c with
        next := segment.next
        segmentsLeft := c.segmentsLeft - 1
        segmentLeft := min segment.length c.remaining
        copy := { c.copy with source := segment.source } }, st)

def sgCopySegment (k : Kernel) (memory : SgMemory) (_index : Nat) :
    SgContext × Probe → Bool × (SgContext × Probe)
  | (c, st) =>
    if c.remaining = 0 then (true, (c, st))
    else
      match sgAdvance k memory c st with
      | (none, st) => (true, ({ c with copy := { c.copy with reason := lossRead } }, st.count 4))
      | (some c, st) =>
        let length := min c.segmentLeft (UInt32.ofNat chunkSize)
        if length = 0 then (false, (c, st))
        else
          let copy := { c.copy with destination := c.copy.copied }
          match copyChunk k chunkSize copy 0 length.toNat st with
          | (reason, st) =>
            if reason ≠ 0 then (true, ({ c with copy := { copy with reason := reason } }, st))
            else
              (false, ({ c with
                copy := { copy with
                  reason := reason
                  copied := copy.copied + length.toNat
                  source := copy.source + length.toUInt64 }
                segmentLeft := c.segmentLeft - length
                remaining := saturatingSub c.remaining length }, st))

def copySg (k : Kernel) (config : CaptureConfig) (urb : Urb) (segments : UInt32)
    (copy : CopyContext) (st : Probe) : CopyContext × Probe :=
  let st := st.count 7
  if config.memory.pageShift = 0 then
    ({ copy with reason := lossUnsupportedBuffer }, st.count 5)
  else
    -- `core_sg_start`
    match st.fails with
    | (true, st) => ({ copy with reason := lossRead }, st.count 4)
    | (false, st) =>
      let iterations := segments.toNat + chunkCount copy.total
      if 2 ^ 32 - 1 < iterations then ({ copy with reason := lossRead }, st.count 4)
      else
        let context : SgContext :=
          { next := urb.sg
            copy := copy
            remaining := copy.total
            segmentLeft := 0
            segmentsLeft := segments }
        match bpfLoop iterations (sgCopySegment k config.memory) context st with
        | (failed, (context, st)) =>
          if failed ∨ (context.remaining ≠ 0 ∧ context.copy.reason = 0) then
            ({ context.copy with reason := lossRead }, st.count 4)
          else (context.copy, st)

/-! ## ISO descriptors -/

structure IsoContext where
  /-- The URB behind the address scalar, if that could be read. -/
  urb : Option Urb
  copy : CopyContext
  requested : UInt32
  submission : Bool
  dataPhase : Bool
  span : UInt32
  descriptors : Nat

def isoMeasure (index : Nat) : IsoContext × Probe → Bool × (IsoContext × Probe)
  | (c, st) =>
    match coreReadIso c.urb c.submission index st with
    | (none, st) => (true, ({ c with copy := { c.copy with reason := lossRead } }, st))
    | (some d, st) =>
      if c.requested.toNat < d.stop then
        (true, ({ c with copy := { c.copy with reason := lossRead } }, st))
      else
        (false, ({ c with
          span := if d.length ≠ 0 then max c.span (UInt32.ofNat d.stop) else c.span }, st))

def isoCopy (k : Kernel) (c : IsoContext) (d : IsoDescriptor) (st : Probe) :
    Bool × (IsoContext × Probe) :=
  let copy : CopyContext :=
    { source := c.copy.source + d.offset.toUInt64
      destination := d.offset.toNat
      eventId := c.copy.eventId
      total := d.length
      reason := 0
      copied := 0 }
  match bpfLoop (chunkCount copy.total) (copyCallback k) copy st with
  | (failed, (copy, st)) =>
    let c := { c with copy := { c.copy with
      copied := c.copy.copied + copy.copied
      reason := if failed then lossRead else copy.reason } }
    let st := if failed then st.count 4 else st
    (c.copy.reason ≠ 0, (c, st))

def isoEmit (k : Kernel) (index : Nat) : IsoContext × Probe → Bool × (IsoContext × Probe)
  | (c, st) =>
    match coreReadIso c.urb c.submission index st with
    | (none, st) => (true, ({ c with copy := { c.copy with reason := lossRead } }, st.count 4))
    | (some d, st) =>
      match st.fails with
      | (true, st) => (true, ({ c with copy := { c.copy with reason := lossRing } }, st.count 3))
      | (false, st) =>
        let st := st.submit
          (header k recordIso c.copy.eventId 40 index ++ (d.toLe k.host).layout k.host)
        let c := { c with descriptors := c.descriptors + 1 }
        if c.dataPhase ∧ d.length ≠ 0 then isoCopy k c d st else (false, (c, st))

/-! ## `emit` -/

/-- One call of `emit`: the URB snapshot, the id of its submission, the event
type and status, and the clock. -/
structure Call where
  kernel : Kernel
  config : CaptureConfig
  now : UInt64
  urb : Urb
  urbId : Nat
  eventType : UInt8
  status : Int32

namespace Call

/-- The metadata before `core_read_urb` fills it. -/
def base (call : Call) : EventMeta :=
  { EventMeta.zero with
    urbId := UInt64.ofNat call.urbId
    eventType := call.eventType
    timestampNs := call.now + call.config.epochOffsetNs }

/-- The declared payload: the span of the ISO frames, or the URB's length. -/
def declare (m : EventMeta) (span : UInt32) : EventMeta :=
  let payloadLen :=
    if !m.dataPhase then m.payloadLen
    else if m.transferType = 0 then span
    else if m.eventType = submitType then m.requestedLen
    else m.actualLen
  { m with
    payloadLen := payloadLen
    hasData := if payloadLen ≠ 0 then 1 else 0 }

/-- The first pass over the ISO descriptors; nothing when it fails. -/
def measure (m : EventMeta) (iso : IsoContext) (st : Probe) : Option IsoContext × Probe :=
  if m.transferType = 0 then
    match bpfLoop m.isoCount.toNat isoMeasure iso st with
    | (failed, (iso, st)) =>
      if failed ∨ iso.copy.reason ≠ 0 then (none, st) else (some iso, st)
  else (some iso, st)

/-- The records between `BEGIN` and `END`, with what `END` reports: the bytes
copied and the reason, and the number of descriptors. -/
def copyPayload (call : Call) (m : EventMeta) (buffer : UInt64) (sg : UInt32) (iso : IsoContext)
    (st : Probe) : (CopyContext × Nat) × Probe :=
  let copy : CopyContext :=
    { source := buffer
      destination := 0
      eventId := iso.copy.eventId
      total := m.payloadLen
      reason := 0
      copied := 0 }
  if m.transferType = 0 then
    if m.payloadLen ≠ 0 ∧ (sg ≠ 0 ∨ buffer = 0) then
      (({ copy with reason := lossUnsupportedBuffer, copied := iso.copy.copied }, iso.descriptors),
        st.count 5)
    else
      match bpfLoop m.isoCount.toNat (isoEmit call.kernel) iso st with
      | (failed, (iso, st)) =>
        (({ copy with
            reason := if failed then lossRead else iso.copy.reason
            copied := iso.copy.copied }, iso.descriptors), if failed then st.count 4 else st)
  else if m.payloadLen ≠ 0 then
    if sg ≠ 0 then
      match copySg call.kernel call.config call.urb sg copy st with
      | (copy, st) => ((copy, 0), st)
    else if buffer = 0 then (({ copy with reason := lossUnsupportedBuffer }, 0), st.count 5)
    else
      match bpfLoop (chunkCount m.payloadLen) (copyCallback call.kernel) copy st with
      | (failed, (copy, st)) =>
        (({ copy with reason := if failed then lossRead else copy.reason }, 0),
          if failed then st.count 4 else st)
  else ((copy, 0), st)

def publish (call : Call) (m : EventMeta) (buffer : UInt64) (sg : UInt32) (iso : IsoContext)
    (st : Probe) : Probe :=
  let k := call.kernel
  let id := iso.copy.eventId
  match st.fails with
  | (true, st) => st.count 3
  | (false, st) =>
    let st := st.submit (header k recordBegin id 96 0 ++ (m.encodeLe k.host).layout k.host)
    match call.copyPayload m buffer sg iso st with
    | ((copy, descriptors), st) =>
      match st.fails with
      | (true, st) => st.count 3
      | (false, st) =>
        st.submit (header k recordEnd id 40 0 ++
          ((EventEnd.mk (UInt64.ofNat copy.copied) (UInt32.ofNat descriptors) copy.reason).toLe
            k.host).layout k.host)

/-- The context of both passes over the ISO descriptors. -/
def isoContext (call : Call) (m : EventMeta) (buffer : UInt64) (eventId : Nat) (unreadable : Bool) :
    IsoContext :=
  { urb := if unreadable then none else some call.urb
    copy :=
      { source := buffer
        destination := 0
        eventId := UInt64.ofNat eventId
        total := 0
        reason := 0
        copied := 0 }
    requested := m.requestedLen
    submission := call.eventType = submitType
    dataPhase := m.dataPhase
    span := 0
    descriptors := 0 }

/-- `emit` once the metadata is read: measure, declare and publish. -/
def emitMeta (call : Call) (m : EventMeta) (buffer : UInt64) (sg : UInt32) (iso : IsoContext)
    (st : Probe) : Probe :=
  match measure m iso st with
  | (none, st) => st.count 4
  | (some iso, st) =>
    let m := declare m iso.span
    if m.requestedLen < m.payloadLen ∨ 2 ^ 31 - 1 < m.requestedLen.toNat then st.count 4
    else call.publish m buffer sg iso st

def emit (call : Call) (st : Probe) : Probe :=
  match st.fails with
  | (true, st) => st.count 4
  | (false, st) =>
    match coreReadUrb call.urb call.base with
    | none => st.count 4
    | some (m, buffer, sg) =>
      let m := { m with status := call.status }
      match st.nextId with
      | (eventId, st) =>
        -- the no-fault read of the address itself
        match st.fails with
        | (unreadable, st) =>
          call.emitMeta m buffer sg (call.isoContext m buffer eventId unreadable) st

end Call
end UsbScope.Ebpf
