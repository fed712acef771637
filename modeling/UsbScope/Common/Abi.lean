import UsbScope.Lib.Bytes

/-! # The records shared by the probes and the capture tool

Constants, metadata and predicates of the ring ABI. Multibyte scalars of ring
records are little endian on every host; see `Common.Wire` for their bytes. -/
namespace UsbScope.Common
open UsbScope.Lib

def abiVersion : UInt16 := 1
/-- `USBSCP\0\x01`. -/
def rawMagic : Bytes := [85, 83, 66, 83, 67, 80, 0, 1]
def chunkSize : Nat := 16 * 1024
def recordBegin : UInt16 := 1
def recordData : UInt16 := 2
def recordIso : UInt16 := 3
def recordEnd : UInt16 := 4
/-- Userspace appends final independent kernel counters to a raw archive. -/
def recordStats : UInt16 := 5
def complete : UInt32 := 0
def lossRing : UInt32 := 1
def lossRead : UInt32 := 2
def lossUnsupportedBuffer : UInt32 := 3
def maxKernelPredicates : Nat := 64

/-- The event types, as the ASCII letters `S`, `C` and `E`. -/
def submitType : UInt8 := 83
def completeType : UInt8 := 67
def errorType : UInt8 := 69

structure RecordHeader where
  version : UInt16
  kind : UInt16
  size : UInt32
  eventId : UInt64
  offset : UInt64
deriving DecidableEq

structure EventMeta where
  urbId : UInt64
  timestampNs : UInt64
  bus : UInt16
  device : UInt8
  endpoint : UInt8
  /-- usbmon encoding: ISO=0, interrupt=1, control=2, bulk=3. -/
  transferType : UInt8
  eventType : UInt8
  setupPresent : UInt8
  hasData : UInt8
  status : Int32
  requestedLen : UInt32
  actualLen : UInt32
  /-- Address span including padding between ISO packets. -/
  payloadLen : UInt32
  interval : Int32
  startFrame : Int32
  transferFlags : UInt32
  isoCount : UInt32
  errorCount : Int32
  vid : UInt16
  pid : UInt16
  setup : Vector UInt8 8
deriving DecidableEq

/-- `EventMeta::default()`. -/
def EventMeta.zero : EventMeta :=
  { urbId := 0, timestampNs := 0, bus := 0, device := 0, endpoint := 0, transferType := 0,
    eventType := 0, setupPresent := 0, hasData := 0, status := 0, requestedLen := 0,
    actualLen := 0, payloadLen := 0, interval := 0, startFrame := 0, transferFlags := 0,
    isoCount := 0, errorCount := 0, vid := 0, pid := 0, setup := Vector.replicate 8 0 }

/-- `S` on an OUT endpoint or `C` on an IN endpoint: the event that carries
the transfer's bytes. -/
def EventMeta.dataPhase (m : EventMeta) : Bool :=
  (m.eventType == submitType && m.endpoint &&& 0x80 == 0) ||
    (m.eventType == completeType && m.endpoint &&& 0x80 != 0)

structure IsoDescriptor where
  status : Int32
  offset : UInt32
  length : UInt32
  padding : UInt32
deriving DecidableEq

/-- The end of a descriptor's range, in 64 bits as the source computes it. -/
def IsoDescriptor.stop (d : IsoDescriptor) : Nat := d.offset.toNat + d.length.toNat

structure EventEnd where
  copiedBytes : UInt64
  descriptors : UInt32
  reason : UInt32
deriving DecidableEq

structure CaptureStats where
  submitted : Nat
  completed : Nat
  submitErrors : Nat
  ringLosses : Nat
  readErrors : Nat
  unsupportedBuffers : Nat
  stateErrors : Nat
  sgEvents : Nat
deriving DecidableEq

structure KernelPredicate where
  value : UInt64
  mask : UInt64
  field : UInt32
  comparison : UInt32
deriving DecidableEq

namespace KernelPredicate

/-- The metadata field a predicate selects; unknown fields select none. -/
def fieldOf (field : UInt32) (m : EventMeta) : Option UInt64 :=
  match field.toNat with
  | 1 => some m.bus.toUInt64
  | 2 => some m.device.toUInt64
  | 3 => some m.vid.toUInt64
  | 4 => some m.pid.toUInt64
  | 5 => some m.endpoint.toUInt64
  | 6 => some (m.endpoint &&& 15).toUInt64
  | 7 => some (m.endpoint >>> 7).toUInt64
  | 8 => some m.transferType.toUInt64
  | 9 => some m.requestedLen.toUInt64
  | 10 => some m.isoCount.toUInt64
  | _ => none

def compare (comparison : UInt32) (value bound : UInt64) : Bool :=
  match comparison.toNat with
  | 0 => value == bound
  | 1 => value != bound
  | 2 => value < bound
  | 3 => value ≤ bound
  | 4 => value > bound
  | 5 => value ≥ bound
  | _ => true

def matchesMeta (p : KernelPredicate) (m : EventMeta) : Bool :=
  match fieldOf p.field m with
  | none => true
  | some value => compare p.comparison (value &&& p.mask) p.value

end KernelPredicate
end UsbScope.Common
