import UsbScope.App.Audio
import UsbScope.App.Output
import UsbScope.Filter.Expr

/-! # Consuming events

Every event that the reassembler or the reader delivers goes through the same
closure: latency pairing, selection by bus, device and filter, statistics, and
the output with its limits. Live capture keeps calling it after a limit is
reached; reading a file stops there. -/
namespace UsbScope.App
open UsbScope.Lib UsbScope.Common UsbScope.Capture UsbScope.Pcapng

/-- The arguments that `consume_event` reads; bus 0 is any. -/
structure Options where
  count : Option UInt64
  bus : UInt32
  device : Option UInt8
  isoStats : Bool
  filter : Filter
deriving DecidableEq

/-- No limits and no filter. -/
def everything : Options := ⟨none, 0, none, false, ⟨.all⟩⟩

/-- Submissions without a completion so far, with their times. -/
abbrev Submissions := AList fun _ : RequestKey => UInt64

/-- What `consume_event` keeps between events. Without an output events are printed. -/
structure Consumer where
  output : Option CaptureOutput
  written : Nat
  isoStats : IsoStats
  submissions : Submissions
  outputFull : Bool

def Consumer.start (output : Option CaptureOutput) : Consumer :=
  { output
    written := 0
    isoStats := ∅
    submissions := ∅
    outputFull := false }

def maxSubmissions : Nat := 65536

namespace Options

variable (args : Options)

/-- The event count is reached. -/
def countReached (written : Nat) : Bool := args.count.any fun limit => limit.toNat ≤ written

/-- The latency of an event, with the table after it. -/
def latency (submissions : Submissions) (e : Event) : Result (Option UInt64 × Submissions) :=
  let m := e.metadata
  let key := (e.sourceId, m.urbId)
  if !args.filter.needsLatency then .ok (none, submissions)
  else if m.eventType = submitType then do
    ensure (submissions.keys.length < maxSubmissions)
      "too many unmatched submissions for latency filtering"
    .ok (none, submissions.insert key m.timestampNs)
  else
    match submissions.lookup key with
    | none => .ok (none, submissions)
    | some start =>
      .ok (if start ≤ m.timestampNs then some (m.timestampNs - start) else none,
        submissions.erase key)

def selected (e : Event) : Bool :=
  (args.bus = 0 || args.bus.toNat = e.metadata.bus.toNat) &&
    args.device.all fun device => device = e.metadata.device

/-- Selected and matched; the filter is not asked about other events. -/
def chosen (e : Event) (latency : Option UInt64) : Result Bool :=
  if args.selected e then args.filter.isMatch e latency else .ok false

/-- The consumer with the tables after a chosen event. -/
def noted (s : Consumer) (submissions : Submissions) (e : Event) : Consumer :=
  { s with
    submissions
    isoStats := if args.isoStats then s.isoStats.observe e else s.isoStats }

/-- The last lines of `consume_event`, after a write. -/
def counted (s : Consumer) : Consumer × Bool :=
  ({ s with written := s.written + 1 }, s.outputFull || args.countReached (s.written + 1))

/-- `consume_event`: whether to stop. -/
def consumeEvent (s : Consumer) (e : Event) : Result (Consumer × Bool) :=
  if s.outputFull || args.countReached s.written then
    .ok (s, s.outputFull || args.countReached s.written)
  else do
    let (latency, submissions) ← args.latency s.submissions e
    let chosen ← args.chosen e latency
    if chosen then
      let noted := args.noted s submissions e
      match s.output with
      | none => .ok (args.counted noted)
      | some output => do
        let (output, wrote) ← output.write e
        if wrote then .ok (args.counted { noted with output := some output })
        else .ok ({ noted with output := some output, outputFull := true }, true)
    else .ok ({ s with submissions }, false)

/-! ## What one event can do -/

/-- The event is chosen, and the limits are not reached. -/
structure Offered (s : Consumer) (e : Event) (submissions : Submissions) : Prop where
  room : s.outputFull = false
  count : args.countReached s.written = false
  chosen : ∃ latency, args.latency s.submissions e = .ok (latency, submissions) ∧
    args.chosen e latency = .ok true

inductive Turn (s : Consumer) (e : Event) : Consumer → Bool → Prop where
  | ignored (h : s.outputFull = true ∨ args.countReached s.written = true) : Turn s e s true
  | skipped {latency : Option UInt64} {submissions : Submissions}
      (hlatency : args.latency s.submissions e = .ok (latency, submissions))
      (hchosen : args.chosen e latency = .ok false) : Turn s e { s with submissions } false
  | printed {submissions : Submissions} (h : args.Offered s e submissions) (hout : s.output = none) :
      Turn s e (args.counted (args.noted s submissions e)).1
        (args.counted (args.noted s submissions e)).2
  | wrote {submissions : Submissions} {output output' : CaptureOutput}
      (h : args.Offered s e submissions) (hout : s.output = some output)
      (hwrite : output.write e = .ok (output', true)) :
      Turn s e (args.counted { args.noted s submissions e with output := some output' }).1
        (args.counted { args.noted s submissions e with output := some output' }).2
  | refused {submissions : Submissions} {output output' : CaptureOutput}
      (h : args.Offered s e submissions) (hout : s.output = some output)
      (hwrite : output.write e = .ok (output', false)) :
      Turn s e { args.noted s submissions e with output := some output', outputFull := true } true

variable {args}

theorem consumeEvent_turn {s s' : Consumer} {e : Event} {stop : Bool}
    (h : args.consumeEvent s e = .ok (s', stop)) : args.Turn s e s' stop := by
  unfold consumeEvent at h
  by_cases hlimit : (s.outputFull || args.countReached s.written) = true
  · rw [if_pos hlimit, hlimit] at h
    cases h
    exact .ignored (Bool.or_eq_true_iff.mp hlimit)
  rw [if_neg hlimit] at h
  obtain ⟨hroom, hcount⟩ := Bool.or_eq_false_iff.mp (Bool.not_eq_true _ ▸ hlimit)
  obtain ⟨⟨latency, submissions⟩, hlatency, h⟩ := Result.bind_eq_ok.mp h
  obtain ⟨chosen, hchosen, h⟩ := Result.bind_eq_ok.mp h
  cases chosen with
  | false =>
    cases h
    exact .skipped hlatency hchosen
  | true =>
    have hoffered : args.Offered s e submissions := ⟨hroom, hcount, latency, hlatency, hchosen⟩
    dsimp only at h
    rw [if_pos rfl] at h
    cases hout : s.output with
    | none =>
      rw [hout] at h
      cases h
      exact .printed hoffered hout
    | some output =>
      rw [hout] at h
      obtain ⟨⟨output', wrote⟩, hwrite, h⟩ := Result.bind_eq_ok.mp h
      cases wrote with
      | true =>
        cases h
        exact .wrote hoffered hout hwrite
      | false =>
        cases h
        exact .refused hoffered hout hwrite

end Options
end UsbScope.App
