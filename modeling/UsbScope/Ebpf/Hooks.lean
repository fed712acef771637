import UsbScope.Ebpf.Emit
import UsbScope.Lib.Trace

/-! # The hooks

The four BPF programs on the way of a URB: its submission, a failed submission,
the start of its giveback and its completion. Each is one step on the table of
tracked URBs, `INFLIGHT`, and the state of the probe. A step leaves a trace of
what it observed and published, for the theorems about runs. -/
namespace UsbScope.Ebpf
open UsbScope.Lib UsbScope.Common

/-- What a hook finds when it runs. -/
structure Scene where
  kernel : Kernel
  config : CaptureConfig
  filters : List KernelPredicate
  now : UInt64
  urb : Urb

def Scene.call (scene : Scene) (id : Nat) (eventType : UInt8) (status : Int32) : Call :=
  { kernel := scene.kernel
    config := scene.config
    now := scene.now
    urb := scene.urb
    urbId := id
    eventType := eventType
    status := status }

def selected (m : EventMeta) (config : CaptureConfig) : Bool :=
  (config.bus = 0 ∨ config.bus = m.bus.toUInt32) ∧
    (config.device = 0xffffffff ∨ config.device = m.device.toUInt32)

/-- `filter_predicate`: stop at the first predicate that rejects. -/
def filterPredicate (filters : List KernelPredicate) (m : EventMeta) (index : Nat) :
    Bool × Probe → Bool × (Bool × Probe)
  | (accepted, st) =>
    match filters[index]? with
    | some p => if p.matchesMeta m then (false, (accepted, st)) else (true, (false, st))
    | none => (false, (accepted, st))

/-- `prefilter`. A failing loop accepts: exact evaluation is in userspace. -/
def prefilter (filters : List KernelPredicate) (m : EventMeta) (count : UInt32) (st : Probe) :
    Bool × Probe :=
  if count = 0 then (true, st)
  else
    match bpfLoop (min count.toNat maxKernelPredicates) (filterPredicate filters m) true st with
    | (failed, (accepted, st)) => (failed || accepted, st)

/-! ## Tracked URBs -/

structure State where
  id : Nat
  status : Int32
  ready : UInt32

structure Tracker where
  inflight : Std.ExtTreeMap UInt64 State
  probe : Probe

/-- A call of `emit` in the state it starts from. -/
structure Emission where
  call : Call
  start : Probe

def Emission.final (x : Emission) : Probe := x.call.emit x.start

/-- What a step observed or published. -/
inductive Output where
  /-- A submission, with its id if it is tracked. -/
  | submission (address : UInt64) (id : Option Nat)
  /-- A giveback that stored a status. -/
  | stored (address : UInt64) (status : Int32)
  /-- A call of `emit`. -/
  | emitted (address : UInt64) (x : Emission)

def maxInflight : Nat := 65536

namespace Tracker

def fresh (faults : List Bool) : Tracker :=
  { inflight := ∅
    probe :=
      { faults := faults
        sequence := 0
        stats := ⟨0, 0, 0, 0, 0, 0, 0, 0⟩
        events := [] } }

/-- `INFLIGHT.insert`, which fails when the map is full or by itself. -/
def insert (inflight : Std.ExtTreeMap UInt64 State) (address : UInt64) (state : State) (st : Probe) :
    Option (Std.ExtTreeMap UInt64 State) × Probe :=
  match st.fails with
  | (true, st) => (none, st)
  | (false, st) =>
    if address ∉ inflight ∧ maxInflight ≤ inflight.size then (none, st)
    else (some (inflight.insert address state), st)

def emit (scene : Scene) (address : UInt64) (id : Nat) (eventType : UInt8) (status : Int32)
    (st : Probe) : Probe × Output :=
  let call := scene.call id eventType status
  (call.emit st, .emitted address ⟨call, st⟩)

/-- `submit` once the submission is selected: allocate an id, insert and emit. -/
def track (scene : Scene) (address : UInt64) (s : Tracker) (st : Probe) : Tracker × List Output :=
  match st.nextId with
  | (id, st) =>
    let st := if address ∈ s.inflight then st.count 6 else st
    match insert s.inflight address ⟨id, 0, 0⟩ st with
    | (none, st) => ({ s with probe := st.count 6 }, [.submission address none])
    | (some inflight, st) =>
      match emit scene address id submitType (-115) (st.count 0) with
      | (st, event) => (⟨inflight, st⟩, [.submission address (some id), event])

def submit (scene : Scene) (address : UInt64) (s : Tracker) : Tracker × List Output :=
  if scene.config.enabled = 0 then (s, [.submission address none])
  else
    match s.probe.fails with
    | (true, st) => ({ s with probe := st.count 4 }, [.submission address none])
    | (false, st) =>
      match coreReadUrb scene.urb { EventMeta.zero with eventType := submitType } with
      | none => ({ s with probe := st.count 4 }, [.submission address none])
      | some (m, _, _) =>
        if !selected m scene.config then ({ s with probe := st }, [.submission address none])
        else
          match prefilter scene.filters m scene.config.filterCount st with
          | (false, st) => ({ s with probe := st }, [.submission address none])
          | (true, st) => track scene address s st

/-- `observe_submit_error`, with the value returned if that is known. -/
def submitError (scene : Scene) (address : UInt64) (ret : Option Int32) (s : Tracker) :
    Tracker × List Output :=
  match ret with
  | none => ({ s with probe := s.probe.count 6 }, [])
  | some status =>
    if status < 0 then
      match s.inflight[address]? with
      | none => (s, [])
      | some state =>
        match emit scene address state.id errorType status (s.probe.count 2) with
        | (st, event) => (⟨s.inflight.erase address, st⟩, [event])
    else (s, [])

/-- `observe_giveback`. -/
def giveback (scene : Scene) (address : UInt64) (s : Tracker) : Tracker × List Output :=
  match s.inflight[address]? with
  | none => (s, [])
  | some state =>
    match s.probe.fails with
    | (true, st) => ({ s with probe := st.count 4 }, [])
    | (false, st) =>
      let status := coreCompletionStatus scene.urb
      (⟨s.inflight.insert address { state with status := status, ready := 1 }, st⟩,
        [.stored address status])

/-- `complete`, which only captures when called from the giveback function. -/
def complete (scene : Scene) (caller : UInt64) (address : Option UInt64) (s : Tracker) :
    Tracker × List Output :=
  if caller < scene.config.givebackStart ∨ scene.config.givebackEnd ≤ caller then (s, [])
  else
    match address with
    | none => ({ s with probe := s.probe.count 6 }, [])
    | some address =>
      match s.inflight[address]? with
      | none => (s, [])
      | some state =>
        let inflight := s.inflight.erase address
        if state.ready = 0 then (⟨inflight, s.probe.count 6⟩, [])
        else
          match emit scene address state.id completeType state.status (s.probe.count 1) with
          | (st, event) => (⟨inflight, st⟩, [event])

end Tracker

/-- The hook that runs, with its arguments. -/
inductive Hook where
  | submit (address : UInt64)
  | submitError (address : UInt64) (ret : Option Int32)
  | giveback (address : UInt64)
  | complete (caller : UInt64) (address : Option UInt64)

namespace Tracker

def step (s : Tracker) : Scene × Hook → Tracker × List Output
  | (scene, .submit address) => submit scene address s
  | (scene, .submitError address ret) => submitError scene address ret s
  | (scene, .giveback address) => giveback scene address s
  | (scene, .complete caller address) => complete scene caller address s

/-- Any order of hooks, with the trace of all steps. -/
def run (s : Tracker) (steps : List (Scene × Hook)) : Tracker × List Output :=
  Trace.run step s steps

end Tracker
end UsbScope.Ebpf
