import UsbScope.Capture.Reassembler

/-! # ISO statistics

Counters for each endpoint. URB completion timing is a software observation,
not USB wire timing. -/
namespace UsbScope.App
open UsbScope.Lib UsbScope.Common UsbScope.Capture

structure Endpoint where
  urbs : Nat := 0
  frames : Nat := 0
  bytes : Nat := 0
  frameErrors : Nat := 0
  urbErrors : Nat := 0
  emptyFrames : Nat := 0
  previousNs : Option UInt64 := none
  maxGapNs : Nat := 0
deriving DecidableEq

/-- Source, bus, device and endpoint address. -/
abbrev EndpointKey := UInt64 × UInt16 × UInt8 × UInt8

abbrev IsoStats := AList fun _ : EndpointKey => Endpoint

namespace Endpoint

def frame (self : Endpoint) (d : IsoDescriptor) : Endpoint :=
  { self with
    frames := self.frames + 1
    bytes := self.bytes + d.length.toNat
    frameErrors := self.frameErrors + (if d.status ≠ 0 then 1 else 0)
    emptyFrames := self.emptyFrames + (if d.length = 0 then 1 else 0) }

/-- One more completed URB. -/
def urb (self : Endpoint) (e : Event) : Endpoint :=
  let m := e.metadata
  let counted := e.iso.foldl frame
    { self with
      urbs := self.urbs + 1
      urbErrors := self.urbErrors + (if m.status ≠ 0 then 1 else 0) }
  { counted with
    maxGapNs := match counted.previousNs with
      | some previous => max counted.maxGapNs (m.timestampNs.toNat - previous.toNat)
      | none => counted.maxGapNs
    previousNs := some m.timestampNs }

end Endpoint

def endpointKey (e : Event) : EndpointKey :=
  (e.sourceId, e.metadata.bus, e.metadata.device, e.metadata.endpoint)

/-- Only completed ISO transfers count. -/
def IsoStats.observe (self : IsoStats) (e : Event) : IsoStats :=
  if e.metadata.transferType ≠ 0 ∨ e.metadata.eventType ≠ completeType then self
  else self.insert (endpointKey e) (((self.lookup (endpointKey e)).getD {}).urb e)

end UsbScope.App
