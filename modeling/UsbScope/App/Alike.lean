import UsbScope.App.Latency

/-! # Outputs with the same limits

Whether an output rotates or refuses an event depends on its limits, on the sizes
and times of what it holds and on the time of the event, not on the bytes nor on
the names of the files. Two runs that offer events of the same sizes, times and
sources to such outputs keep as many of them. -/
namespace UsbScope.App
open UsbScope.Lib UsbScope.Common UsbScope.Capture UsbScope.Pcapng

/-- Events that take the same space in a file, at the same time. -/
structure Twins (e e' : Event) : Prop where
  sourceId : e.sourceId = e'.sourceId
  timestampNs : e.metadata.timestampNs = e'.metadata.timestampNs
  iso : e.iso.length = e'.iso.length
  payloadLen : e.metadata.payloadLen = e'.metadata.payloadLen

namespace CaptureOutput

/-- Outputs that rotate and refuse alike. -/
structure Alike (a b : CaptureOutput) : Prop where
  size : a.size = b.size
  seconds : a.seconds = b.seconds
  maxFiles : a.maxFiles = b.maxFiles
  fileIndex : a.fileIndex = b.fileIndex
  events : a.events = b.events
  started : a.started = b.started
  bytes : a.writer.bytes = b.writer.bytes
  interfaces : a.writer.interfaces = b.writer.interfaces

variable {a a' b b' : CaptureOutput} {e e' : Event}

/-- New outputs with the same limits, whatever their paths. -/
theorem alike_new {disk disk' : Disk} {base base' : String} {size seconds : Option UInt64}
    {maxFiles : Option UInt32} (ha : new disk base size seconds maxFiles = .ok a)
    (hb : new disk' base' size seconds maxFiles = .ok b) : Alike a b := by
  obtain ⟨-, hsize, hseconds, hmax⟩ := new_config ha
  obtain ⟨-, hsize', hseconds', hmax'⟩ := new_config hb
  have hfilled := filled_new ha
  have hfilled' := filled_new hb
  have hwriter : a.writer = b.writer :=
    (writeAll_nil.mp hfilled.writer).trans (writeAll_nil.mp hfilled'.writer).symm
  exact ⟨hsize.trans hsize'.symm, hseconds.trans hseconds'.symm, hmax.trans hmax'.symm,
    hfilled.index.trans hfilled'.index.symm, hfilled.events.trans hfilled'.events.symm,
    hfilled.started.trans hfilled'.started.symm, congrArg Writer.bytes hwriter,
    congrArg Writer.interfaces hwriter⟩

theorem Alike.rotates (h : Alike a b) (now : UInt64) : a.rotates now = b.rotates now := by
  unfold CaptureOutput.rotates
  rw [h.size, h.seconds, h.events, h.started, h.bytes]

theorem Alike.add (h : Alike a b) (he : Twins e e') (ha : a.add e = .ok a') (hb : b.add e' = .ok b') :
    Alike a' b' := by
  obtain ⟨w, hw, ha⟩ := Result.bind_eq_ok.mp ha
  obtain ⟨w', hw', hb⟩ := Result.bind_eq_ok.mp hb
  cases ha
  cases hb
  obtain ⟨index, declaration, interfaces, l, hi, hl, -, rfl⟩ := writeEvent_eq_ok.mp hw
  obtain ⟨index', declaration', interfaces', l', hi', hl', -, rfl⟩ := writeEvent_eq_ok.mp hw'
  rw [h.interfaces, he.sourceId, hi'] at hi
  rw [he.iso, he.payloadLen, hl'] at hl
  cases hi
  cases hl
  refine ⟨h.size, h.seconds, h.maxFiles, h.fileIndex, congrArg (· + 1) h.events, ?_, ?_, rfl⟩
  · dsimp only
    rw [h.started, he.timestampNs]
  · dsimp only
    rw [h.bytes]

theorem Alike.nextFile (h : Alike a b) {x y : Option CaptureOutput} (ha : a.nextFile = .ok x)
    (hb : b.nextFile = .ok y) : Option.Rel Alike x y := by
  unfold CaptureOutput.nextFile at ha hb
  rw [h.maxFiles, h.fileIndex] at ha
  split at ha
  · rename_i hmax
    rw [if_pos hmax] at hb
    cases ha
    cases hb
    exact .none
  · rename_i hmax
    rw [if_neg hmax] at hb
    obtain ⟨-, ha⟩ := ensure_bind_eq_ok.mp ha
    obtain ⟨-, hb⟩ := ensure_bind_eq_ok.mp hb
    obtain ⟨w, hopen, ha⟩ := Result.bind_eq_ok.mp ha
    obtain ⟨w', hopen', hb⟩ := Result.bind_eq_ok.mp hb
    obtain ⟨-, hopen⟩ := ensure_bind_eq_ok.mp hopen
    obtain ⟨-, hopen'⟩ := ensure_bind_eq_ok.mp hopen'
    cases hopen
    cases hopen'
    cases ha
    cases hb
    exact .some ⟨h.size, h.seconds, rfl, rfl, rfl, rfl, rfl, rfl⟩

/-- Outputs alike write or refuse events alike. -/
theorem Alike.write (h : Alike a b) (he : Twins e e') {wrote wrote' : Bool}
    (ha : a.write e = .ok (a', wrote)) (hb : b.write e' = .ok (b', wrote')) :
    wrote = wrote' ∧ Alike a' b' := by
  unfold CaptureOutput.write at ha hb
  rw [h.rotates, he.timestampNs] at ha
  split at ha
  · rename_i hrotates
    rw [if_pos hrotates] at hb
    obtain ⟨x, hx, ha⟩ := Result.bind_eq_ok.mp ha
    obtain ⟨y, hy, hb⟩ := Result.bind_eq_ok.mp hb
    cases h.nextFile hx hy with
    | none =>
      cases ha
      cases hb
      exact ⟨rfl, h⟩
    | some hnext =>
      obtain ⟨next, hadd, ha⟩ := Result.bind_eq_ok.mp ha
      obtain ⟨next', hadd', hb⟩ := Result.bind_eq_ok.mp hb
      cases ha
      cases hb
      exact ⟨rfl, hnext.add he hadd hadd'⟩
  · rename_i hrotates
    rw [if_neg hrotates] at hb
    obtain ⟨next, hadd, ha⟩ := Result.bind_eq_ok.mp ha
    obtain ⟨next', hadd', hb⟩ := Result.bind_eq_ok.mp hb
    cases ha
    cases hb
    exact ⟨rfl, h.add he hadd hadd'⟩

end CaptureOutput

/-- Outputs alike take as many events of the same sizes and times. -/
theorem Takes.unique {args : Options} {output output' : Option CaptureOutput} {written n m : Nat}
    {events events' : List Event} (h : Takes args output written events n)
    (h' : Takes args output' written events' m) (halike : Option.Rel CaptureOutput.Alike output output')
    (htwins : List.Forall₂ Twins events events') : n = m := by
  induction h generalizing output' events' m with
  | done =>
    cases htwins
    cases h' with
    | done => rfl
    | limited => rfl
  | limited h =>
    have hno : ∀ {c : Prop}, args.countReached _ = false → c := fun h' => Bool.noConfusion (h.symm.trans h')
    cases h' with
    | done => rfl
    | limited => rfl
    | printed h' => exact hno h'
    | wrote h' => exact hno h'
    | refused => rfl
  | printed h hrest ih =>
    cases halike
    cases htwins with
    | cons he hes =>
      cases h' with
      | limited h' => exact Bool.noConfusion (h.symm.trans h')
      | printed _ hrest' => exact congrArg (· + 1) (ih hrest' .none hes)
  | wrote h hwrite hrest ih =>
    cases halike with
    | some halike =>
      cases htwins with
      | cons he hes =>
        cases h' with
        | limited h' => exact Bool.noConfusion (h.symm.trans h')
        | wrote _ hwrite' hrest' =>
          exact congrArg (· + 1) (ih hrest' (.some (halike.write he hwrite hwrite').2) hes)
        | refused _ hwrite' => exact Bool.noConfusion (halike.write he hwrite hwrite').1
  | refused h hwrite =>
    cases halike with
    | some halike =>
      cases htwins with
      | cons he hes =>
        cases h' with
        | limited => rfl
        | wrote _ hwrite' => exact Bool.noConfusion (halike.write he hwrite hwrite').1
        | refused => rfl

end UsbScope.App
