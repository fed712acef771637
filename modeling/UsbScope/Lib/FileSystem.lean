import UsbScope.Lib.Bytes
import UsbScope.Lib.Path

/-! # File systems

A tree of directories with files, hard links (two locations with one file) and
symbolic links, and the system calls that look paths up and open files. A lookup
has a budget for the links it may follow. Nothing is ever removed or renamed
here, and no one else changes the tree. -/
namespace UsbScope.Lib

/-- What tells two files apart. -/
structure FileId where
  dev : Nat
  ino : Nat
deriving DecidableEq

inductive Node (N : Type) where
  | dir (id : FileId)
  | file (id : FileId)
  | symlink (target : Path N)
deriving DecidableEq

/-- Symbolic links have no part in comparisons of files. -/
def Node.id {N : Type} : Node N → Option FileId
  | .dir id => some id
  | .file id => some id
  | .symlink _ => none

inductive Errno where
  | notFound
  | exists
  | notDirectory
  | isDirectory
  | invalid
  | tooManyLinks
deriving DecidableEq

def Errno.text : Errno → String
  | notFound => "No such file or directory (os error 2)"
  | .exists => "File exists (os error 17)"
  | notDirectory => "Not a directory (os error 20)"
  | isDirectory => "Is a directory (os error 21)"
  | invalid => "Invalid argument (os error 22)"
  | tooManyLinks => "Too many levels of symbolic links (os error 40)"

/-- A file system as a process with the working directory `cwd` sees it. A location
is the names from a place up to the root. -/
structure FileSystem (N : Type) where
  node : List N → Option (Node N)
  cwd : List N
  contents : FileId → Bytes
  /-- Numbers from here on are free. -/
  next : Nat
  root : ∃ id, node [] = some (.dir id)
  parents : ∀ name loc, node (name :: loc) ≠ none → ∃ id, node loc = some (.dir id)
  fresh : ∀ loc x id, node loc = some x → x.id = some id → id.ino < next

namespace FileSystem

variable {N : Type} (fs : FileSystem N)

def isDir (loc : List N) : Bool :=
  match fs.node loc with
  | some (.dir _) => true
  | _ => false

/-- The file system with the given entries; the conditions on them are decidable. -/
def ofEntries [DecidableEq N] (entries : List (List N × Node N)) (cwd : List N) (next : Nat)
    (root : ∃ e ∈ entries.head?, ∃ id, e = ([], .dir id))
    (parents : ∀ e ∈ entries, e.1 ≠ [] → ∃ e' ∈ entries.find? fun e' => e'.1 = e.1.tail,
      ∃ id ∈ e'.2.id, e'.2 = .dir id)
    (fresh : ∀ e ∈ entries, ∀ id ∈ e.2.id, id.ino < next) : FileSystem N where
  node loc := (entries.find? fun e => e.1 = loc).map Prod.snd
  cwd := cwd
  contents := fun _ => []
  next := next
  root := by
    obtain ⟨e, he, id, rfl⟩ := root
    obtain ⟨rest, rfl⟩ := List.head?_eq_some_iff.mp he
    exact ⟨id, by simp⟩
  parents := by
    intro name loc h
    rw [ne_eq, Option.map_eq_none_iff] at h
    obtain ⟨e, he⟩ := Option.ne_none_iff_exists'.mp h
    have hloc : e.1 = name :: loc := by simpa using List.find?_some he
    obtain ⟨e', he', id, _, hdir⟩ := parents e (List.mem_of_find?_eq_some he) (by simp [hloc])
    rw [hloc] at he'
    exact ⟨id, by rw [← hdir]; exact congrArg (Option.map Prod.snd) he'⟩
  fresh := by
    intro loc x id h hid
    obtain ⟨e, he, rfl⟩ := Option.map_eq_some_iff.mp h
    exact fresh e (List.mem_of_find?_eq_some he) id hid

/-- Where a path is looked up from, in the directory `loc`. -/
def startOf (loc : List N) (p : Path N) : List N := if p.isAbsolute then [] else loc

/-- One stretch of a lookup; a symbolic link goes on with its target and the rest.
With `create` the last name may be missing, and must not be a directory. -/
def walkWith (create : Bool) (follow : List N → Path N → Except Errno (List N)) :
    List N → Path N → Except Errno (List N)
  | loc, [] => if create && fs.isDir loc then .error .isDirectory else .ok loc
  | loc, s :: rest =>
    if fs.isDir loc then
      match s with
      | .empty => walkWith create follow loc rest
      | .current => walkWith create follow loc rest
      | .parent => walkWith create follow loc.tail rest
      | .normal name =>
        match fs.node (name :: loc) with
        | none => if create && rest.isEmpty then .ok (name :: loc) else .error .notFound
        | some (.symlink target) => follow (startOf loc target) (target ++ rest)
        | some _ => walkWith create follow (name :: loc) rest
    else .error .notDirectory

theorem walkWith_nil (create : Bool) (follow : List N → Path N → Except Errno (List N))
    (loc : List N) :
    fs.walkWith create follow loc [] =
      if create && fs.isDir loc then .error .isDirectory else .ok loc := by rw [walkWith]

theorem walkWith_cons (create : Bool) (follow : List N → Path N → Except Errno (List N))
    (loc : List N) (s : Segment N) (rest : Path N) :
    fs.walkWith create follow loc (s :: rest) =
      if fs.isDir loc then
        match s with
        | .empty => fs.walkWith create follow loc rest
        | .current => fs.walkWith create follow loc rest
        | .parent => fs.walkWith create follow loc.tail rest
        | .normal name =>
          match fs.node (name :: loc) with
          | none => if create && rest.isEmpty then .ok (name :: loc) else .error .notFound
          | some (.symlink target) => follow (startOf loc target) (target ++ rest)
          | some _ => fs.walkWith create follow (name :: loc) rest
      else .error .notDirectory := by
  cases s <;> simp only [walkWith]

def walk (create : Bool) : Nat → List N → Path N → Except Errno (List N)
  | 0 => fs.walkWith create fun _ _ => .error .tooManyLinks
  | budget + 1 => fs.walkWith create (walk create budget)

/-- The links that one lookup may follow. -/
def maxSymlinks : Nat := 40

def lookup (create : Bool) (p : Path N) : Except Errno (List N) :=
  if p.isEmptyText then .error .notFound
  else fs.walk create maxSymlinks (startOf fs.cwd p) p

/-! ## System calls -/

/-- `stat`, as far as it identifies a file. -/
def metadata (p : Path N) : Except Errno FileId := do
  let loc ← fs.lookup false p
  match (fs.node loc).bind Node.id with
  | some id => .ok id
  | none => .error .notFound

def canonicalize (p : Path N) : Except Errno (Path N) := do
  let loc ← fs.lookup false p
  .ok (Path.real loc)

/-- The directory of a path's last piece, if that is a name. -/
def directoryOf (p : Path N) : Except Errno (List N) := do
  let dir ← fs.walk false maxSymlinks (startOf fs.cwd p) p.dropLast
  if fs.isDir dir then .ok dir else .error .notDirectory

/-- `lstat`: a link that the path ends with is not followed. -/
def symlinkMetadata (p : Path N) : Except Errno (Node N) := do
  match p.getLast? with
  | some (.normal name) =>
    let dir ← fs.directoryOf p
    match fs.node (name :: dir) with
    | some x => .ok x
    | none => .error .notFound
  | _ =>
    let loc ← fs.lookup false p
    match fs.node loc with
    | some x => .ok x
    | none => .error .notFound

def readLink (p : Path N) : Except Errno (Path N) := do
  match ← fs.symlinkMetadata p with
  | .symlink target => .ok target
  | _ => .error .invalid

/-! ### Opening files -/

/-- A new file in the directory `dir`, on that directory's device. -/
def addFile (name : N) (dir : List N) [DecidableEq N] (d : FileId)
    (hdir : fs.node dir = some (.dir d)) (hfree : fs.node (name :: dir) = none) : FileSystem N :=
  { fs with
    node := Function.update fs.node (name :: dir) (some (.file ⟨d.dev, fs.next⟩))
    contents := Function.update fs.contents ⟨d.dev, fs.next⟩ []
    next := fs.next + 1
    root := by
      rw [Function.update_of_ne (List.cons_ne_nil _ _).symm]
      exact fs.root
    parents := by
      intro m loc h
      have hparent : ∃ id, fs.node loc = some (.dir id) := by
        by_cases heq : m :: loc = name :: dir
        · obtain ⟨rfl, rfl⟩ := List.cons.inj heq
          exact ⟨d, hdir⟩
        · rw [Function.update_of_ne heq] at h
          exact fs.parents m loc h
      obtain ⟨id, hid⟩ := hparent
      refine ⟨id, ?_⟩
      rw [Function.update_of_ne, hid]
      rintro rfl
      rw [hfree] at hid
      cases hid
    fresh := by
      intro loc x id h hid
      by_cases heq : loc = name :: dir
      · subst heq
        rw [Function.update_self] at h
        cases h
        cases hid
        exact Nat.lt_succ_self _
      · rw [Function.update_of_ne heq] at h
        exact Nat.lt_succ_of_lt (fs.fresh loc x id h hid) }

theorem addFile_self [DecidableEq N] {name : N} {dir : List N} {d : FileId}
    (hdir : fs.node dir = some (.dir d)) (hfree : fs.node (name :: dir) = none) :
    (fs.addFile name dir d hdir hfree).node (name :: dir) = some (.file ⟨d.dev, fs.next⟩) :=
  Function.update_self (name :: dir) _ fs.node

theorem addFile_of_ne [DecidableEq N] {name : N} {dir loc : List N} {d : FileId}
    (hdir : fs.node dir = some (.dir d)) (hfree : fs.node (name :: dir) = none)
    (h : loc ≠ name :: dir) : (fs.addFile name dir d hdir hfree).node loc = fs.node loc :=
  Function.update_of_ne h _ fs.node

def truncate (id : FileId) : FileSystem N :=
  { fs with contents := Function.update fs.contents id [] }

inductive Mode where
  | read
  | create
  | createNew
deriving DecidableEq

variable [DecidableEq N]

/-- `O_CREAT | O_TRUNC`. -/
def openCreate (p : Path N) : Except Errno (FileSystem N × FileId) := do
  match ← fs.lookup true p with
  | [] => .error .isDirectory
  | name :: dir =>
    match hfree : fs.node (name :: dir), hdir : fs.node dir with
    | none, some (.dir d) => .ok (fs.addFile name dir d hdir hfree, ⟨d.dev, fs.next⟩)
    | some (.file id), _ => .ok (fs.truncate id, id)
    | _, _ => .error .isDirectory

/-- `O_CREAT | O_EXCL`: a link at the end is in the way like a file. -/
def openCreateNew (p : Path N) : Except Errno (FileSystem N × FileId) := do
  match p.getLast? with
  | some (.normal name) =>
    let dir ← fs.directoryOf p
    match hfree : fs.node (name :: dir), hdir : fs.node dir with
    | none, some (.dir d) => .ok (fs.addFile name dir d hdir hfree, ⟨d.dev, fs.next⟩)
    | _, _ => .error .exists
  | _ => .error .isDirectory

/-- Open a file: the state after it and the file. -/
def openAs (mode : Mode) (p : Path N) : Except Errno (FileSystem N × FileId) :=
  match mode with
  | .read => do
    let id ← fs.metadata p
    .ok (fs, id)
  | .create => fs.openCreate p
  | .createNew => fs.openCreateNew p

/-- An opened file. -/
structure Opened (N : Type) where
  mode : Mode
  path : Path N
  id : FileId
deriving DecidableEq

/-- Open files one after another, up to the first failure. -/
def openAll : FileSystem N → List (Mode × Path N) → FileSystem N × List (Opened N)
  | fs, [] => (fs, [])
  | fs, (mode, p) :: rest =>
    match fs.openAs mode p with
    | .error _ => (fs, [])
    | .ok (fs', id) =>
      let (last, log) := openAll fs' rest
      (last, ⟨mode, p, id⟩ :: log)

end FileSystem

end UsbScope.Lib
