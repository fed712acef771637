import UsbScope.Lib.FileSystem
import UsbScope.App.Output

/-! # Where the outputs go

Before `run` creates a file it compares every destination with the others and
with the inputs, also when the destination does not exist yet. What `run` opens
until capture begins follows; what else can end a run before that is left to the
number of openings it comes to. -/
namespace UsbScope.App
open UsbScope.Lib UsbScope.Common

/-- The directory that a path's last component is looked up in. -/
def parentDirectory (path : Path String) : Path String :=
  (path.parent.filter fun p => !p.isEmptyText).getD [.current]

/-- A failed system call, with its error text behind the given context. -/
def osError {α : Type} (context : String) (x : Except Errno α) : Result α :=
  match x with
  | .ok a => .ok a
  | .error e => .error (context ++ e.text)

/-- One turn of `resolved_file_path`: the path to go on with behind a link, or the
resolved path. -/
def resolveStep (fs : FileSystem String) (path : Path String) :
    Result (Path String ⊕ Path String) := do
  let name ← context path.fileName "capture path must name a file"
  let parent ← osError s!"resolving {path.display}: " (fs.canonicalize (parentDirectory path))
  let resolved := parent.join [.normal name]
  match fs.symlinkMetadata resolved with
  | .ok (.symlink _) =>
    let target ← osError "" (fs.readLink resolved)
    let dir ← context resolved.parent "called Option::unwrap() on a None value"
    .ok (.inl (dir.join target))
  | .ok _ => .ok (.inr resolved)
  | .error .notFound => .ok (.inr resolved)
  | .error e => .error e.text

def resolveLoop (fs : FileSystem String) : Nat → Path String → Result (Path String)
  | 0, path => .error s!"too many symlinks in capture path {path.display}"
  | steps + 1, path => do
    match ← resolveStep fs path with
    | .inl path => resolveLoop fs steps path
    | .inr resolved => .ok resolved

/-- Resolve the parent and final symlinks even when the destination file has not
been created yet. Comparing metadata alone misses aliases of new outputs. -/
def resolvedFilePath (fs : FileSystem String) (path : Path String) : Result (Path String) :=
  resolveLoop fs 40 path

/-- Both files exist and are one file. -/
def sameMetadata (fs : FileSystem String) (first second : Path String) : Prop :=
  ∃ id, fs.metadata first = .ok id ∧ fs.metadata second = .ok id

instance (fs : FileSystem String) (first second : Path String) :
    Decidable (sameMetadata fs first second) :=
  match h : fs.metadata first, h' : fs.metadata second with
  | .ok a, .ok b =>
    if hab : a = b then isTrue ⟨a, h, hab ▸ h'⟩
    else isFalse fun ⟨id, ha, hb⟩ => hab (by
      rw [h] at ha
      rw [h'] at hb
      exact (Except.ok.inj ha).trans (Except.ok.inj hb).symm)
  | .error _, _ => isFalse fun ⟨id, ha, _⟩ => by rw [h] at ha; cases ha
  | .ok _, .error _ => isFalse fun ⟨id, _, hb⟩ => by rw [h'] at hb; cases hb

def differentFiles (fs : FileSystem String) (first second : Path String) : Result Unit := do
  ensure (first.components ≠ second.components) "capture paths refer to the same file"
  ensure (¬ sameMetadata fs first second) "input and output refer to the same file"
  let a ← resolvedFilePath fs first
  let b ← resolvedFilePath fs second
  ensure (a.components ≠ b.components) "capture paths refer to the same file"

/-- The arguments that name files, and the two that make the capture rotate. -/
structure Args where
  read : Option String
  write : Option String
  rawOutput : Option String
  deviceContext : Option String
  filterFile : Option String
  bpfObject : String
  readyFile : Option String
  rotateSize : Option UInt64
  rotateSeconds : Option UInt64

namespace Args

/-- The file that the capture is written to first. -/
def capturePath (args : Args) : Option String :=
  args.write.map fun path =>
    if isRotating args.rotateSize args.rotateSeconds then rotatedPath path 0 else path

def destinations (args : Args) : List String :=
  (args.capturePath.filter fun p => decide (p ≠ "-")).toList ++ args.rawOutput.toList ++
    args.deviceContext.toList ++ args.readyFile.toList

def sources (args : Args) : List String :=
  args.read.toList ++ args.filterFile.toList ++
    (if args.read.isNone then some args.bpfObject else none).toList

end Args

/-- Compare all of the paths with each other. -/
def allDifferent (fs : FileSystem String) : List (Path String) → Result Unit
  | [] => .ok ()
  | destination :: others => do
    others.forM (differentFiles fs destination)
    allDifferent fs others

def checkDestinations (fs : FileSystem String) (args : Args) : Result Unit := do
  ensure (args.rawOutput ≠ some "-") "raw archive requires a file path"
  ensure (args.deviceContext = none ∨ args.read = none)
    "--device-context is only available during live capture"
  ensure (args.readyFile = none ∨ args.read = none)
    "--ready-file is only available during live capture"
  let destinations := args.destinations.map Path.ofText
  allDifferent fs destinations
  (args.sources.map Path.ofText).forM fun source => destinations.forM (differentFiles fs source)

namespace Args

/-- How the capture file is opened: a rotated one never overwrites another file. -/
def captureOpening (args : Args) : Option (FileSystem.Mode × String) :=
  args.capturePath.bind fun path =>
    if isRotating args.rotateSize args.rotateSeconds then some (.createNew, path)
    else if path = "-" then none
    else some (.create, path)

/-- What is opened behind the checks, in this order. -/
def openings (args : Args) : List (FileSystem.Mode × String) :=
  args.deviceContext.toList.map (FileSystem.Mode.create, ·) ++
    args.read.toList.map (FileSystem.Mode.read, ·) ++
    args.captureOpening.toList ++ args.rawOutput.toList.map (FileSystem.Mode.create, ·) ++
    (if args.read.isNone then [(.read, args.bpfObject)] else []) ++
    args.readyFile.toList.map (FileSystem.Mode.create, ·)

end Args

def openPaths (fs : FileSystem String) (ops : List (FileSystem.Mode × String)) :
    FileSystem String × List (FileSystem.Opened String) :=
  fs.openAll (ops.map fun op => (op.1, Path.ofText op.2))

/-- The filter expression is read before anything is checked. -/
def readFilter (fs : FileSystem String) (args : Args) : Result (List (FileSystem.Opened String)) :=
  match args.filterFile with
  | none => .ok []
  | some path => do
    let id ← osError "reading filter expression: " (fs.metadata (Path.ofText path))
    .ok [⟨.read, Path.ofText path, id⟩]

/-- The files of a run that gets to `steps` openings behind its checks: the state it
leaves, what it opened, and how the checks went. -/
def startUp (fs : FileSystem String) (args : Args) (steps : Nat) :
    FileSystem String × List (FileSystem.Opened String) × Result Unit :=
  match readFilter fs args with
  | .error e => (fs, [], .error e)
  | .ok filter =>
    match checkDestinations fs args with
    | .error e => (fs, filter, .error e)
    | .ok () =>
      let (last, log) := openPaths fs (args.openings.take steps)
      (last, filter ++ log, .ok ())

end UsbScope.App
