import UsbScope.Pcapng.RoundTrip

/-! # Rotated output

The capture is written to one pcapng file, or to numbered files that change
when one is large or old enough. An event is never split across files. Files
are their contents, in the order of their creation; creating one fails only
where it already exists, and what is written arrives. -/
namespace UsbScope.App
open UsbScope.Lib UsbScope.Common UsbScope.Capture UsbScope.Pcapng

/-- Closed files with their paths. -/
abbrev Disk := List (String × Bytes)

/-- `{index:06}`. -/
def sixDigits (index : Nat) : String :=
  let digits := toString index
  String.ofList (List.replicate (6 - digits.length) '0') ++ digits

def rotatedPath (base : String) (index : Nat) : String := base ++ "." ++ sixDigits index

structure CaptureOutput where
  base : String
  writer : Writer
  size : Option UInt64
  seconds : Option UInt64
  maxFiles : Option UInt32
  fileIndex : Nat
  events : Nat
  started : Option UInt64
  disk : Disk
deriving DecidableEq

def isRotating (size seconds : Option UInt64) : Bool := size.isSome || seconds.isSome

namespace CaptureOutput

/-- `open`. Rotation never overwrites an earlier capture or the input file. -/
def openFile (disk : Disk) (base : String) (rotating : Bool) (index : Nat) : Result Writer := do
  let path := rotatedPath base index
  ensure (rotating = true → path ∉ disk.map Prod.fst)
    s!"creating {path} (rotated files must not already exist)"
  .ok Writer.new

def new (disk : Disk) (base : String) (size seconds : Option UInt64) (maxFiles : Option UInt32) :
    Result CaptureOutput := do
  let rotating := isRotating size seconds
  ensure (rotating = false ∨ base ≠ "-") "file rotation requires an output path"
  ensure (maxFiles = none ∨ rotating = true) "-W requires -C or -G"
  ensure (size ≠ some 0 ∧ seconds ≠ some 0 ∧ maxFiles ≠ some 0) "rotation limits must be positive"
  let writer ← openFile disk base rotating 0
  .ok
    { base, writer, size, seconds, maxFiles
      fileIndex := 0
      events := 0
      started := none
      -- without rotation an earlier file of this name is overwritten
      disk := if rotating then disk else disk.filter fun file => file.1 ≠ base }

/-- The path of the current file. -/
def path (self : CaptureOutput) : String :=
  if isRotating self.size self.seconds then rotatedPath self.base self.fileIndex else self.base

/-- All files, the current one last. -/
def files (self : CaptureOutput) : Disk := self.disk ++ [(self.path, self.writer.output)]

/-- Whether an event at the time `now` calls for a new file. -/
def rotates (self : CaptureOutput) (now : UInt64) : Bool :=
  self.events ≠ 0 &&
    (self.size.any (fun size => size.toNat ≤ self.writer.bytes) ||
      self.seconds.any fun seconds => self.started.any fun start =>
        seconds.toNat ≤ (now.toNat - start.toNat) / 1000000000)

/-- The output with the next file open, or nothing at the requested file count. -/
def nextFile (self : CaptureOutput) : Result (Option CaptureOutput) :=
  if self.maxFiles.any fun max => max.toNat ≤ self.fileIndex + 1 then .ok none
  else do
    ensure (self.fileIndex + 1 < 2 ^ 32) "rotation counter exhausted"
    let writer ← openFile self.files self.base true (self.fileIndex + 1)
    .ok (some
      { self with
        writer
        fileIndex := self.fileIndex + 1
        events := 0
        started := none
        disk := self.files })

/-- Write an event to the current file. -/
def add (self : CaptureOutput) (e : Event) : Result CaptureOutput := do
  let writer ← self.writer.writeEvent e
  .ok
    { self with
      writer
      events := self.events + 1
      started := some (self.started.getD e.metadata.timestampNs) }

/-- `false` means the requested file count has been reached. -/
def write (self : CaptureOutput) (e : Event) : Result (CaptureOutput × Bool) :=
  if self.rotates e.metadata.timestampNs then do
    match ← self.nextFile with
    | none => .ok (self, false)
    | some next =>
      let next ← next.add e
      .ok (next, true)
  else do
    let next ← self.add e
    .ok (next, true)

end CaptureOutput
end UsbScope.App
