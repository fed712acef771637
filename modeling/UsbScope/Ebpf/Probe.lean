import UsbScope.Common.Wire
import UsbScope.Lib.Loop

/-! # The world of a probe

What one invocation of a BPF program sees: kernel memory and the URB as the
accessors of `core-shims/usb.c` read them, the maps it shares with userspace,
and helper calls that may fail. `faults` scripts these failures: every fallible
call takes the next entry, and succeeds when none is left. A failing accessor
is one entry, whichever of its reads failed: its partial results are never
used. Counters and the id sequence are natural numbers; the array maps hold
their single entry. -/
namespace UsbScope.Ebpf
open UsbScope.Lib UsbScope.Common

structure SgMemory where
  vmemmapSymbol : UInt64
  pageOffsetSymbol : UInt64
  /-- Zero disables SG. -/
  pageShift : UInt32
  vaBits : UInt32
  layout : UInt32

structure CaptureConfig where
  epochOffsetNs : UInt64
  givebackStart : UInt64
  givebackEnd : UInt64
  memory : SgMemory
  /-- Zero selects all buses; the largest value of `device` all addresses. -/
  bus : UInt32
  device : UInt32
  enabled : UInt32
  filterCount : UInt32

structure SgSegment where
  source : UInt64
  next : UInt64
  length : UInt32

/-- `struct usb_iso_packet_descriptor`. -/
structure IsoFrame where
  offset : UInt32
  length : UInt32
  actualLength : UInt32
  status : Int32

/-- The part of `struct urb`, its device and its endpoint that the accessors
read. -/
structure Urb where
  busnum : Int32
  devnum : Int32
  idVendor : UInt16
  idProduct : UInt16
  bmAttributes : UInt8
  bEndpointAddress : UInt8
  status : Int32
  unlinked : Int32
  transferFlags : UInt32
  transferBuffer : UInt64
  transferBufferLength : UInt32
  actualLength : UInt32
  setupPacket : Vector UInt8 8
  startFrame : Int32
  numberOfPackets : Int32
  interval : Int32
  errorCount : Int32
  numSgs : Int32
  sg : UInt64
  isoFrameDesc : Nat → IsoFrame

/-- Kernel memory during a probe. `segment` is `core_sg_segment` with its page
translation; `stale` is what ring reservations hold before they are written. -/
structure Kernel where
  host : ByteOrder
  memory : UInt64 → UInt8
  segment : SgMemory → UInt64 → Option SgSegment
  stale : Nat → UInt8

/-- The bytes a kernel read copies. -/
def Kernel.read (k : Kernel) (address : UInt64) (length : Nat) : Bytes :=
  (List.range length).map fun i => k.memory (address + UInt64.ofNat i)

@[simp] theorem Kernel.length_read (k : Kernel) (address : UInt64) (length : Nat) :
    (k.read address length).length = length := by simp [Kernel.read]

def Kernel.leftover (k : Kernel) (length : Nat) : Bytes := (List.range length).map k.stale

/-! ## Maps, ids and failures -/

/-- `count(field)`: the counters are consecutive words of `CaptureStats`. -/
def bump (s : CaptureStats) : Nat → CaptureStats
  | 0 => { s with submitted := s.submitted + 1 }
  | 1 => { s with completed := s.completed + 1 }
  | 2 => { s with submitErrors := s.submitErrors + 1 }
  | 3 => { s with ringLosses := s.ringLosses + 1 }
  | 4 => { s with readErrors := s.readErrors + 1 }
  | 5 => { s with unsupportedBuffers := s.unsupportedBuffers + 1 }
  | 6 => { s with stateErrors := s.stateErrors + 1 }
  | 7 => { s with sgEvents := s.sgEvents + 1 }
  | _ => s

structure Probe where
  faults : List Bool
  sequence : Nat
  stats : CaptureStats
  /-- The items submitted to the ring, oldest first. -/
  events : List Bytes

namespace Probe

/-- Whether the next fallible call fails. -/
def fails (st : Probe) : Bool × Probe :=
  match st.faults with
  | [] => (false, st)
  | f :: rest => (f, { st with faults := rest })

def count (field : Nat) (st : Probe) : Probe := { st with stats := bump st.stats field }

def nextId (st : Probe) : Nat × Probe :=
  (st.sequence + 1, { st with sequence := st.sequence + 1 })

def submit (item : Bytes) (st : Probe) : Probe := { st with events := st.events ++ [item] }

end Probe

/-- `bpf_loop`: it fails without calling back, or calls back with 0, 1, 2, ..
until a callback returns nonzero or the count is reached. -/
def bpfLoop {C : Type} (count : Nat) (callback : Nat → C × Probe → Bool × (C × Probe)) (c : C)
    (st : Probe) : Bool × (C × Probe) :=
  match st.fails with
  | (true, st) => (true, (c, st))
  | (false, st) => (false, Loop.run callback count 0 (c, st))

/-! ## The accessors -/

/-- The transfer type of the endpoint attributes, in usbmon's encoding. -/
def transferTypeOf (bmAttributes : UInt8) : UInt8 :=
  match (bmAttributes &&& 3).toNat with
  | 0 => 2
  | 1 => 0
  | 2 => 3
  | _ => 1

/-- `core_read_urb` when its reads succeed: metadata, buffer address and number
of SG entries. -/
def coreReadUrb (urb : Urb) (m : EventMeta) : Option (EventMeta × UInt64 × UInt32) :=
  let transferType := transferTypeOf urb.bmAttributes
  if transferType = 0 ∧ urb.numberOfPackets < 0 then none
  else
    let control := transferType = 2 ∧ m.eventType = submitType
    some ({ m with
      bus := urb.busnum.toUInt32.toUInt16
      device := urb.devnum.toUInt32.toUInt8
      endpoint := (urb.bEndpointAddress &&& 0x0f) |||
        (if urb.transferFlags &&& 0x0200 ≠ 0 then 0x80 else 0)
      transferType := transferType
      setupPresent := if control then 1 else m.setupPresent
      status := urb.status
      requestedLen := urb.transferBufferLength
      actualLen := urb.actualLength
      interval := urb.interval
      startFrame := urb.startFrame
      transferFlags := urb.transferFlags
      isoCount := if transferType = 0 then urb.numberOfPackets.toUInt32 else 0
      errorCount := urb.errorCount
      vid := urb.idVendor
      pid := urb.idProduct
      setup := if control then urb.setupPacket else m.setup }, urb.transferBuffer,
      urb.numSgs.toUInt32)

/-- `core_completion_status` when its reads succeed. -/
def coreCompletionStatus (urb : Urb) : Int32 :=
  if urb.unlinked = 0 ∧ urb.transferFlags &&& 1 ≠ 0 ∧ urb.actualLength < urb.transferBufferLength
  then -121 else urb.unlinked

/-- The descriptor `core_read_iso` assembles. -/
def Urb.isoDescriptor (urb : Urb) (submission : Bool) (index : Nat) : IsoDescriptor :=
  let frame := urb.isoFrameDesc index
  { status := frame.status
    offset := frame.offset
    length := if submission then frame.length else frame.actualLength
    padding := 0 }

/-- `core_read_iso`. Without an address there is nothing to read. -/
def coreReadIso (urb : Option Urb) (submission : Bool) (index : Nat) (st : Probe) :
    Option IsoDescriptor × Probe :=
  match st.fails with
  | (true, st) => (none, st)
  | (false, st) => (urb.map fun u => u.isoDescriptor submission index, st)

def coreSgSegment (k : Kernel) (memory : SgMemory) (address : UInt64) (st : Probe) :
    Option SgSegment × Probe :=
  match st.fails with
  | (true, st) => (none, st)
  | (false, st) => (k.segment memory address, st)

end UsbScope.Ebpf
