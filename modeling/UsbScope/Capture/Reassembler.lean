import UsbScope.Common.Wire
import UsbScope.Lib.RangeMap
import UsbScope.Lib.Result
import UsbScope.Lib.Spool
import UsbScope.Lib.Machine

/-! # Reassembly of ring records into events

The userspace half of the transport: byte records go in, complete events come
out. A push that fails still returns the state it leaves behind, because some
checks run after the first change. The spool file of a pending event is its
contents; it is assumed not to fail by itself. -/
namespace UsbScope.Capture
open UsbScope.Lib UsbScope.Common

structure Event where
  /-- Distinguishes pcapng interfaces across sections; live/raw use source 0. -/
  sourceId : UInt64
  metadata : EventMeta
  iso : List IsoDescriptor
  payload : Bytes
  identityKnown : Bool
  requestedKnown : Bool
deriving DecidableEq

structure Pending where
  event : Event
  /-- Start and end of the payload ranges received so far. -/
  ranges : RangeMap
  copied : Nat
deriving DecidableEq

structure ReassemblyStats where
  complete : Nat
  incomplete : Nat
  orphanRecords : Nat
  kernelLosses : Nat
deriving DecidableEq

structure Reassembler where
  pending : Std.ExtTreeMap UInt64 Pending
  stats : ReassemblyStats

/-- `Reassembler::default()`. -/
def Reassembler.fresh : Reassembler := { pending := ∅, stats := ⟨0, 0, 0, 0⟩ }

def maxRecordSize : Nat := chunkSize + 24
def maxPendingEvents : Nat := 4096

def u16At (b : Bytes) (pos : Nat) : UInt16 := u16 .little pos b
def u32At (b : Bytes) (pos : Nat) : UInt32 := u32 .little pos b
def u64At (b : Bytes) (pos : Nat) : UInt64 := u64 .little pos b

/-- The largest `u64`, where the loss counters saturate. -/
def u64Max : Nat := 2 ^ 64 - 1

def saturatingAdd (a b : Nat) : Nat := min (a + b) u64Max

/-- The fields of a metadata record, before they are checked. -/
def metaFields (b : Bytes) : EventMeta :=
  { urbId := u64At b 0
    timestampNs := u64At b 8
    bus := u16At b 16
    device := byte 18 b
    endpoint := byte 19 b
    transferType := byte 20 b
    eventType := byte 21 b
    setupPresent := byte 22 b
    hasData := byte 23 b
    status := (u32At b 24).toInt32
    requestedLen := u32At b 28
    actualLen := u32At b 32
    payloadLen := u32At b 36
    interval := (u32At b 40).toInt32
    startFrame := (u32At b 44).toInt32
    transferFlags := u32At b 48
    isoCount := u32At b 52
    errorCount := (u32At b 56).toInt32
    vid := u16At b 60
    pid := u16At b 62
    setup := Vector.ofFn fun i => byte (64 + i) b }

def decodeMeta (b : Bytes) : Result EventMeta := do
  ensure (b.length = 72) "invalid metadata length"
  let m := metaFields b
  ensure (m.eventType = submitType ∨ m.eventType = completeType ∨ m.eventType = errorType)
    "invalid URB event type"
  ensure (m.transferType.toNat ≤ 3 ∧ m.device.toNat ≤ 127) "invalid USB metadata"
  ensure (m.hasData.toNat ≤ 1 ∧ m.setupPresent.toNat ≤ 1) "invalid presence flag"
  ensure (m.hasData ≠ 0 ∨ m.payloadLen = 0) "payload without data flag"
  ensure (m.transferType = 0 ∨ m.isoCount = 0) "ISO descriptors on non-ISO event"
  ensure (m.payloadLen.toNat ≤ m.requestedLen.toNat) "payload span exceeds URB buffer"
  pure m

/-- A record whose header has been checked. -/
structure Record where
  kind : UInt16
  id : UInt64
  offset : UInt64
  body : Bytes
deriving DecidableEq

/-- The header checks at the start of `push`. -/
def Record.parse (bytes : Bytes) : Result Record := do
  ensure (24 ≤ bytes.length) "short record header"
  ensure (u16At bytes 0 = abiVersion) "unsupported event ABI"
  let size := (u32At bytes 4).toNat
  ensure ((24 ≤ size ∧ size ≤ maxRecordSize) ∧ size ≤ bytes.length) "invalid record size"
  pure { kind := u16At bytes 2, id := u64At bytes 8, offset := u64At bytes 16,
         body := (bytes.take size).drop 24 }

/-! ## Payload fragments -/

/-- The checks of a `DATA` record that precede any change. -/
def Pending.checkData (self : Pending) (start : Nat) (body : Bytes) : Result Unit := do
  let m := self.event.metadata
  ensure (body ≠ []) "empty payload record"
  ensure (start + body.length ≤ u64Max) "payload offset overflow"
  ensure (start + body.length ≤ m.payloadLen.toNat) "payload outside declared span"
  ensure (m.transferType = 0 ∨ (self.ranges.lastLE start).all fun e => decide (e.2 ≤ start))
    "overlapping payload fragment"
  ensure (m.transferType = 0 ∨
    (self.ranges.firstGE start).all fun e => decide (start + body.length ≤ e.1))
    "overlapping payload fragment"

/-- ISO frames may share a buffer region. Both copies observe the same
snapshot; conflicting copies are never complete. -/
def Pending.checkOverlap (self : Pending) (start : Nat) (body : Bytes) (e : Nat × Nat) :
    Result Unit :=
  let overlapStart := max e.1 start
  let overlapEnd := min e.2 (start + body.length)
  if overlapStart < overlapEnd then
    match Spool.readAt self.event.payload overlapStart (overlapEnd - overlapStart) with
    | none => .error "failed to fill whole buffer"
    | some existing =>
      ensure (existing = (body.drop (overlapStart - start)).take (overlapEnd - overlapStart))
        "conflicting overlapping ISO payload"
  else .ok ()

/-- `RECORD_DATA`. Each turn of the merge loop removes an entry, so the number
of entries bounds it. -/
def Pending.pushData (self : Pending) (start : Nat) (body : Bytes) : Pending × Result Unit :=
  match self.checkData start body with
  | .error e => (self, .error e)
  | .ok () =>
    match RangeMap.absorb (self.checkOverlap start body) (self.ranges.windowStart start)
        (start + body.length) self.ranges.length self.ranges start (start + body.length) with
    | (ranges, .error e) => ({ self with ranges }, .error e)
    | (ranges, .ok (first, last)) =>
      ({ self with
          event := { self.event with payload := Spool.writeAt self.event.payload start body }
          ranges := ranges.insert first last
          copied := self.copied + body.length }, .ok ())

/-! ## ISO descriptors -/

def isoDescriptor (body : Bytes) : IsoDescriptor :=
  { status := (u32At body 0).toInt32, offset := u32At body 4, length := u32At body 8,
    padding := 0 }

/-- `RECORD_ISO`. -/
def Pending.pushIso (self : Pending) (offset : Nat) (body : Bytes) : Result Pending := do
  ensure (body.length = 16) "invalid ISO descriptor length"
  ensure (offset = self.event.iso.length ∧ offset < self.event.metadata.isoCount.toNat)
    "invalid ISO descriptor index"
  pure { self with event := { self.event with iso := self.event.iso ++ [isoDescriptor body] } }

/-! ## The end of an event -/

/-- The largest end of a nonempty descriptor, with the bounds check. -/
def isoSpan (requestedLen : Nat) : List IsoDescriptor → Nat → Result Nat
  | [], span => .ok span
  | d :: rest, span => do
    ensure (d.stop ≤ requestedLen) "ISO descriptor outside URB buffer"
    isoSpan requestedLen rest (if d.length ≠ 0 then max span d.stop else span)

def Pending.span (self : Pending) : Result Nat :=
  let m := self.event.metadata
  if m.transferType = 0 then isoSpan m.requestedLen.toNat self.event.iso 0 else .ok 0

/-- The payload length the data phase calls for. -/
def expectedPayload (m : EventMeta) (span : Nat) : Nat :=
  if !m.dataPhase then 0
  else if m.transferType = 0 then span
  else if m.eventType = submitType then m.requestedLen.toNat
  else m.actualLen.toNat

def Pending.covers (self : Pending) (start len : Nat) : Bool :=
  decide (len = 0) || (self.ranges.lastLE start).any fun e =>
    decide (start + len ≤ u64Max) && decide (start + len ≤ e.2)

def Pending.dataComplete (self : Pending) : Bool :=
  let m := self.event.metadata
  if m.hasData = 0 then decide (self.copied = 0)
  else if m.transferType = 0 then
    decide (self.copied = (self.event.iso.map fun d => d.length.toNat).sum) &&
      self.event.iso.all fun d => self.covers d.offset.toNat d.length.toNat
  else self.covers 0 m.payloadLen.toNat

/-- Whether the event that `RECORD_END` closes is complete. -/
def Pending.isComplete (self : Pending) (body : Bytes) : Result Bool := do
  let m := self.event.metadata
  let expected := expectedPayload m (← self.span)
  pure (!(decide (u32At body 12 ≠ complete)
    || decide ((u64At body 0).toNat ≠ self.copied)
    || decide (u32At body 8 ≠ m.isoCount)
    || decide (self.event.iso.length ≠ m.isoCount.toNat)
    || decide (m.payloadLen.toNat ≠ expected)
    || (decide (m.hasData ≠ 0) != decide (expected ≠ 0))
    || !self.dataComplete))

/-! ## `push` -/

/-- The pending event a `RECORD_BEGIN` opens. -/
def Pending.opened (m : EventMeta) : Pending :=
  { event := { sourceId := 0, metadata := m, iso := [], payload := [], identityKnown := true,
               requestedKnown := true }
    ranges := []
    copied := 0 }

/-- The four loss counters of a `RECORD_STATS` body. -/
def summaryLosses (body : Bytes) : List Nat :=
  [24, 32, 40, 48].map fun pos => (u64At body pos).toNat

namespace Reassembler

def pushStats (self : Reassembler) (r : Record) : Reassembler × Result (Option Event) :=
  if r.id = 0 ∧ r.offset = 0 ∧ r.body.length = 64 then
    ({ self with stats := { self.stats with
        kernelLosses := (summaryLosses r.body).foldl saturatingAdd self.stats.kernelLosses } },
      .ok none)
  else (self, .error "invalid kernel counter summary")

def pushBegin (self : Reassembler) (r : Record) : Reassembler × Result (Option Event) :=
  let checked : Result EventMeta := do
    ensure (r.offset = 0) "metadata offset must be zero"
    ensure (r.id ∉ self.pending) "duplicate event begin"
    ensure (self.pending.size < maxPendingEvents)
      "too many unfinished events; capture cannot keep up"
    decodeMeta r.body
  match checked with
  | .error e => (self, .error e)
  | .ok m => ({ self with pending := self.pending.insert r.id (Pending.opened m) }, .ok none)

def pushEnd (self : Reassembler) (r : Record) (p : Pending) :
    Reassembler × Result (Option Event) :=
  if r.body.length = 16 ∧ r.offset = 0 then
    let rest := self.pending.erase r.id
    match p.isComplete r.body with
    | .error e => ({ self with pending := rest }, .error e)
    | .ok false =>
      ({ pending := rest, stats := { self.stats with incomplete := self.stats.incomplete + 1 } },
        .ok none)
    | .ok true =>
      ({ pending := rest, stats := { self.stats with complete := self.stats.complete + 1 } },
        .ok (some p.event))
  else (self, .error "invalid event end")

def pushRecord (self : Reassembler) (r : Record) : Reassembler × Result (Option Event) :=
  if r.kind = recordStats then self.pushStats r
  else if r.kind = recordBegin then self.pushBegin r
  else if ¬ (r.kind = recordData ∨ r.kind = recordIso ∨ r.kind = recordEnd) then
    (self, .error ("unknown record kind " ++ toString r.kind))
  else
    match self.pending[r.id]? with
    | none =>
      ({ self with stats := { self.stats with orphanRecords := self.stats.orphanRecords + 1 } },
        .ok none)
    | some p =>
      if r.kind = recordData then
        match p.pushData r.offset.toNat r.body with
        | (p', .error e) => ({ self with pending := self.pending.insert r.id p' }, .error e)
        | (p', .ok ()) => ({ self with pending := self.pending.insert r.id p' }, .ok none)
      else if r.kind = recordIso then
        match p.pushIso r.offset.toNat r.body with
        | .error e => (self, .error e)
        | .ok p' => ({ self with pending := self.pending.insert r.id p' }, .ok none)
      else self.pushEnd r p

def push (self : Reassembler) (bytes : Bytes) : Reassembler × Result (Option Event) :=
  match Record.parse bytes with
  | .error e => (self, .error e)
  | .ok r => self.pushRecord r

def finish (self : Reassembler) : Reassembler :=
  { pending := ∅
    stats := { self.stats with incomplete := self.stats.incomplete + self.pending.size } }

/-- A requested offline event/file limit is not evidence of transport loss. -/
def stopAtLimit (self : Reassembler) : Reassembler := { self with pending := ∅ }

/-- One `push` of a caller that stops at the first error. -/
def step (self : Reassembler) (bytes : Bytes) : Result (Reassembler × Option Event) :=
  match self.push bytes with
  | (_, .error e) => .error e
  | (next, .ok event) => .ok (next, event)

/-- Push the records one after another, up to the first error: the state after
them, and what each push returned. -/
def run (self : Reassembler) (records : List Bytes) :
    Result (Reassembler × List (Option Event)) := Machine.run step self records

end Reassembler
end UsbScope.Capture
