import UsbScope.App.Consume
import UsbScope.Capture.Archive

/-! # Live capture and replay

Ring records reach the reassembler from the kernel or from an archive; both
ways go through the same closure, which can archive what it sees. When the ring
has items, when a signal arrives and when a deadline has passed is decided
outside: a live run is given by its rounds. What a failing run leaves behind is
not modelled. -/
namespace UsbScope.App
open UsbScope.Lib UsbScope.Common UsbScope.Capture UsbScope.Pcapng

variable {σ S : Type}

/-- What `run` holds while it takes records. -/
structure Session (σ : Type) where
  raw : Option Bytes
  assembler : Reassembler
  consumer : σ

def Session.start (rawOutput : Bool) (consumer : σ) : Session σ :=
  { raw := if rawOutput then some rawMagic else none
    assembler := Reassembler.fresh
    consumer }

/-- `consume`: whether the consumer wants to stop. -/
def Session.consume (consumeEvent : σ → Event → Result (σ × Bool)) (s : Session σ) (record : Bytes) :
    Result (Session σ × Bool) := do
  let raw := s.raw.map (· ++ archived record)
  let (assembler, event) ← s.assembler.step record
  match event with
  | none => .ok ({ s with raw, assembler }, false)
  | some e =>
    let (consumer, stop) ← consumeEvent s.consumer e
    .ok ({ raw, assembler, consumer }, stop)

/-! ## Live -/

/-- A ring item without what is behind its record. -/
def trimmed (item : Bytes) : Bytes := item.take (u32At item 4).toNat

def trim (item : Bytes) : Result Bytes := do
  ensure (24 ≤ item.length) "short kernel record"
  let size := (u32At item 4).toNat
  ensure (24 ≤ size ∧ size ≤ item.length) "invalid kernel record length"
  .ok (trimmed item)

/-- Take the items, and whether one of them reached the event count. -/
def drain (record : S → Bytes → Result (S × Bool)) : S → List Bytes → Result (S × Bool)
  | s, [] => .ok (s, false)
  | s, item :: rest => do
    let bytes ← trim item
    let (s, reached) ← record s bytes
    let (s, later) ← drain record s rest
    .ok (s, reached || later)

/-- One turn of the capture loop, as the outside decides it. -/
structure Round where
  /-- The ring is drained in batches, so that signals and deadlines are seen. -/
  items : List Bytes
  bounded : items.length ≤ 1024
  /-- A signal arrived or the requested duration is over. -/
  interrupted : Bool
  /-- The deadline has passed, once there is one. -/
  expired : Bool

/-- The loop of `capture`; nothing if it does not end with the last round. -/
def captureLoop (record : S → Bytes → Result (S × Bool)) :
    List Round → Bool → Bool → S → Result (Option S)
  | [], _, _, _ => .ok none
  | round :: rest, countReached, stopping, s => do
    let (s, reached) ← drain record s round.items
    let countReached := countReached || reached
    let stopping := stopping || countReached || round.interrupted
    if stopping && round.expired then .ok (if rest.isEmpty then some s else none)
    else captureLoop record rest countReached stopping s

def addStats (a b : CaptureStats) : CaptureStats :=
  { submitted := a.submitted + b.submitted
    completed := a.completed + b.completed
    submitErrors := a.submitErrors + b.submitErrors
    ringLosses := a.ringLosses + b.ringLosses
    readErrors := a.readErrors + b.readErrors
    unsupportedBuffers := a.unsupportedBuffers + b.unsupportedBuffers
    stateErrors := a.stateErrors + b.stateErrors
    sgEvents := a.sgEvents + b.sgEvents }

def totalStats (cpus : List CaptureStats) : CaptureStats :=
  cpus.foldl addStats ⟨0, 0, 0, 0, 0, 0, 0, 0⟩

/-- `capture`: the loop, the counters and the records published before detach. -/
def capture (record : S → Bytes → Result (S × Bool)) (rounds : List Round) (last : List Bytes)
    (cpus : List CaptureStats) (s : S) : Result (Option (S × CaptureStats)) := do
  match ← captureLoop record rounds false false s with
  | none => .ok none
  | some s =>
    let (s, _) ← drain record s last
    .ok (some (s, totalStats cpus))

/-! ## The end of a run -/

structure Report (σ : Type) where
  raw : Option Bytes
  stats : ReassemblyStats
  consumer : σ
  losses : Nat

/-- The loss total; the counters of a live run are added at the end. -/
def lossTotal (stats : ReassemblyStats) (kernel : Option CaptureStats) : Nat :=
  let losses := saturatingAdd (saturatingAdd stats.incomplete stats.orphanRecords) stats.kernelLosses
  match kernel with
  | none => losses
  | some counters => (losses + (lossCounters counters).sum) % 2 ^ 64

def Session.report (s : Session σ) (offlineStop : Bool) (pcapIncomplete : Nat)
    (kernel : Option CaptureStats) : Report σ :=
  let assembler := if offlineStop then s.assembler.stopAtLimit else s.assembler.finish
  let stats := { assembler.stats with incomplete := assembler.stats.incomplete + pcapIncomplete }
  { raw := s.raw.map (· ++ (kernel.map writeKernelSummary).getD [])
    stats
    consumer := s.consumer
    losses := lossTotal stats kernel }

def runLive (consumeEvent : σ → Event → Result (σ × Bool)) (consumer : σ) (rawOutput : Bool)
    (rounds : List Round) (last : List Bytes) (cpus : List CaptureStats) :
    Result (Option (Report σ)) := do
  match ← capture (Session.consume consumeEvent) rounds last cpus (Session.start rawOutput consumer) with
  | none => .ok none
  | some (s, counters) => .ok (some (s.report false 0 (some counters)))

/-! ## Replay -/

/-- The input behind its header, and whether it is pcapng. -/
def openInput (input : Bytes) : Result (Bytes × Bool) :=
  if input.take 4 = [10, 13, 13, 10] then .ok (input, true)
  else do
    let input ← readRawHeader input
    .ok (input, false)

def replayLoop (record : S → Bytes → Result (S × Bool)) : Nat → Bytes → S → Result (S × Bool)
  | 0, _, _ => .error "the archive does not get shorter"
  | fuel + 1, input, s => do
    match ← readRecord input with
    | none => .ok (s, false)
    | some (bytes, input) =>
      let (s, stop) ← record s bytes
      if stop then .ok (s, true) else replayLoop record fuel input s

/-- A run over an archive; pcapng input is read by `Pcapng.Reader`. -/
def replay (consumeEvent : σ → Event → Result (σ × Bool)) (consumer : σ) (rawOutput : Bool)
    (archive : Bytes) : Result (Report σ) := do
  let input ← readRawHeader archive
  let (s, stopped) ← replayLoop (Session.consume consumeEvent) (input.length + 1) input
    (Session.start rawOutput consumer)
  .ok (s.report stopped 0 none)

end UsbScope.App
