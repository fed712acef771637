import UsbScope.Lib.Lookup
import UsbScope.Lib.Result
import UsbScope.App.Destinations

/-! # Accepted paths do not alias

`resolved_file_path` names the place where a later creation puts the file, as long
as files are only added until then (`resolved_of_created`). Two paths that
`different_files` accepts therefore never reach one file, and the files that a run
opens are different ones wherever one of them is an output. -/
namespace UsbScope.App
open UsbScope.Lib UsbScope.Lib.FileSystem

theorem osError_eq_ok {α : Type} {context : String} {x : Except Errno α} {a : α} :
    osError context x = .ok a ↔ x = .ok a := by
  cases x <;> simp [osError]

/-! ## Resolution -/

theorem parentDirectory_concat (a : Path String) (name : String) :
    (parentDirectory (a ++ [Segment.normal name])).isAbsolute =
        Path.isAbsolute (a ++ [Segment.normal name]) ∧
      (parentDirectory (a ++ [Segment.normal name])).filter Segment.moves =
        a.filter Segment.moves := by
  obtain ⟨q, hq, habs, hmoves⟩ := Path.parent_concat a name
  have hval : parentDirectory (a ++ [Segment.normal name]) =
      if q.isEmptyText then [.current] else q := by
    unfold parentDirectory
    rw [hq, Option.filter_some]
    cases q.isEmptyText <;> rfl
  rw [hval, ← habs, ← hmoves]
  split
  · rename_i htext
    -- the empty text stands for the working directory
    unfold Path.isEmptyText at htext
    split at htext
    · exact ⟨rfl, rfl⟩
    · exact ⟨rfl, rfl⟩
    · cases htext
  · exact ⟨rfl, rfl⟩

section
variable {fs now : FileSystem String} {path out R : Path String}

/-- What a turn of the loop did: it found the directory `D` of the last name, and the
name there is a link or it is not. -/
theorem resolveStep_ok {result : Path String ⊕ Path String}
    (h : resolveStep fs path = .ok result) :
    ∃ name D, path.fileName = some name ∧ fs.lookup false (parentDirectory path) = .ok D ∧
      ((∃ target, fs.node (name :: D) = some (.symlink target) ∧
          result = .inl ((Path.real D).join target)) ∨
        ((∀ target, fs.node (name :: D) ≠ some (.symlink target)) ∧
          result = .inr (Path.real (name :: D)))) := by
  unfold resolveStep at h
  obtain ⟨name, hname, h⟩ := Result.bind_eq_ok.mp h
  obtain ⟨parent, hparent, h⟩ := Result.bind_eq_ok.mp h
  obtain ⟨D, hD, rfl⟩ := canonicalize_eq_ok.mp (osError_eq_ok.mp hparent)
  refine ⟨name, D, context_eq_ok.mp hname, hD, ?_⟩
  obtain ⟨htext, k, _, hl⟩ := lookup_eq_ok.mp hD
  obtain ⟨x, hx, hid⟩ := hl.reached (ne_nil_of_text htext)
  have hstat : fs.symlinkMetadata (Path.real (name :: D)) = _ := symlinkMetadata_real hx hid
  dsimp only at h
  rw [Path.join_real_normal, hstat] at h
  by_cases hd : fs.isDir D = true
  · rw [if_pos hd] at h hstat
    cases hn : fs.node (name :: D) with
    | none =>
      rw [hn] at h
      cases h
      exact .inr ⟨by simp, rfl⟩
    | some y =>
      rw [hn] at h hstat
      cases y with
      | dir id =>
        cases h
        exact .inr ⟨by simp, rfl⟩
      | file id =>
        cases h
        exact .inr ⟨by simp, rfl⟩
      | symlink target =>
        have hread : fs.readLink (Path.real (name :: D)) = .ok target := by
          unfold readLink
          rw [hstat]
          rfl
        dsimp only at h
        rw [hread, Path.parent_real] at h
        cases h
        exact .inl ⟨target, rfl, rfl⟩
  · rw [if_neg hd] at h
    cases h

/-- The resolved path is the one where a later creation puts the file. -/
theorem resolved_of_created (hext : fs.Extends now) {steps : Nat}
    (hr : resolveLoop fs steps path = .ok R) {k : Nat} {L : List String}
    (hl : now.Leads true k (startOf now.cwd path) path L) (hp : path ≠ []) : R = Path.real L := by
  induction steps generalizing path k with
  | zero => cases hr
  | succ steps ih =>
    obtain ⟨a, name, i, D, rfl, hparent, hdir, hcreated⟩ := hl.last hp
    rw [resolveLoop] at hr
    obtain ⟨result, hstep, hr⟩ := Result.bind_eq_ok.mp hr
    obtain ⟨name', D', hname, hD', hcases⟩ := resolveStep_ok hstep
    rw [Path.fileName_concat] at hname
    cases hname
    -- both lookups of the directory end in the same place
    obtain ⟨_, j, _, hl'⟩ := lookup_eq_ok.mp hD'
    obtain ⟨habs, hmoves⟩ := parentDirectory_concat a name
    have hstart : startOf fs.cwd (parentDirectory (a ++ [Segment.normal name])) =
        startOf now.cwd (a ++ [Segment.normal name]) := by
      unfold startOf
      rw [habs, hext.cwd]
    rw [hstart] at hl'
    obtain rfl := hparent.of_moves (hext.leads hl') hmoves.symm
    rcases hcases with ⟨target, hlink, rfl⟩ | ⟨hreal, rfl⟩
    · have hnow := hext.kept _ _ hlink
      cases hcreated with
      | place real => exact absurd hnow (real target)
      | @link _ _ target' _ entry next =>
        rw [hnow] at entry
        cases entry
        obtain ⟨hnext, hne⟩ := next.join hdir
        exact ih hr hnext hne
    · cases hr
      cases hcreated with
      | place => rfl
      | link entry next => exact absurd (hext.symlink entry) (hreal _)

/-- Each path is what the link at the end of the one before leads to. -/
inductive Follows (fs : FileSystem String) : Nat → Path String → Path String → Prop
  | done {p : Path String} : Follows fs 0 p p
  | link {n : Nat} {p q r : Path String} (step : resolveStep fs p = .ok (.inl q))
      (next : Follows fs n q r) : Follows fs (n + 1) p r

/-- The loop resolves exactly what fewer links than its limit lead to the end of. -/
theorem resolveLoop_eq_ok {steps : Nat} : resolveLoop fs steps path = .ok R ↔
    ∃ n < steps, ∃ q, Follows fs n path q ∧ resolveStep fs q = .ok (.inr R) := by
  induction steps generalizing path with
  | zero => simp [resolveLoop]
  | succ steps ih =>
    rw [resolveLoop, Result.bind_eq_ok]
    constructor
    · intro h
      obtain ⟨result, hstep, h⟩ := h
      cases result with
      | inl next =>
        obtain ⟨n, hn, q, hf, hq⟩ := ih.mp h
        exact ⟨n + 1, by omega, q, .link hstep hf, hq⟩
      | inr resolved =>
        cases h
        exact ⟨0, Nat.succ_pos _, path, .done, hstep⟩
    · intro h
      obtain ⟨n, hn, q, hf, hq⟩ := h
      cases hf with
      | done => exact ⟨_, hq, rfl⟩
      | link hstep hnext => exact ⟨_, hstep, ih.mpr ⟨_, by omega, q, hnext, hq⟩⟩

theorem resolveLoop_exhausted {steps : Nat} {q : Path String} (h : Follows fs steps path q) :
    resolveLoop fs steps path = .error s!"too many symlinks in capture path {q.display}" := by
  induction h with
  | done => rfl
  | link hstep _ ih =>
    rw [resolveLoop, hstep]
    exact ih

/-! ## Two accepted paths -/

theorem differentFiles_eq_ok {first second : Path String}
    (h : differentFiles fs first second = .ok ()) :
    (∀ id, fs.metadata first = .ok id → fs.metadata second ≠ .ok id) ∧
      ∃ a b, resolvedFilePath fs first = .ok a ∧ resolvedFilePath fs second = .ok b ∧
        a.components ≠ b.components := by
  unfold differentFiles at h
  rw [ensure_bind_eq_ok, ensure_bind_eq_ok] at h
  obtain ⟨_, hsame, h⟩ := h
  obtain ⟨a, ha, h⟩ := Result.bind_eq_ok.mp h
  obtain ⟨b, hb, h⟩ := Result.bind_eq_ok.mp h
  exact ⟨fun id h1 h2 => hsame ⟨id, h1, h2⟩, a, b, ha, hb, ensure_eq_ok.mp h⟩

/-- Files that were reached by accepted paths, from any states on the way, differ. -/
theorem accepted_distinct {first second : Path String} {now' last : FileSystem String}
    {a b : FileId}
    (h : differentFiles fs first second = .ok ()) (hnow : fs.Extends now) (hnow' : fs.Extends now')
    (hlast : fs.Extends last) (ha : now.Reaches last first a) (hb : now'.Reaches last second b) :
    a ≠ b := by
  obtain ⟨hstat, r, r', hr, hr', hne⟩ := differentFiles_eq_ok h
  refine reaches_distinct ha hb hnow hnow' hlast hstat fun k j L hl hl' => hne ?_
  rw [resolved_of_created hnow hr hl (ne_nil_of_text ha.1),
    resolved_of_created hnow' hr' hl' (ne_nil_of_text hb.1)]

end

/-! ## The files of a run -/

section
variable {fs : FileSystem String} {args : Args}

theorem allDifferent_eq_ok {paths : List (Path String)} (h : allDifferent fs paths = .ok ()) :
    paths.Pairwise fun p q => differentFiles fs p q = .ok () := by
  induction paths with
  | nil => exact .nil
  | cons p rest ih =>
    rw [allDifferent, Result.bind_eq_ok] at h
    obtain ⟨_, hp, hrest⟩ := h
    exact .cons (forM_eq_ok.mp hp) (ih hrest)

/-- Two paths that were compared, in either order. -/
def Compared (fs : FileSystem String) (p q : String) : Prop :=
  differentFiles fs (Path.ofText p) (Path.ofText q) = .ok () ∨
    differentFiles fs (Path.ofText q) (Path.ofText p) = .ok ()

theorem Compared.symm {p q : String} (h : Compared fs p q) : Compared fs q p := Or.symm h

theorem checkDestinations_eq_ok (h : checkDestinations fs args = .ok ()) :
    args.destinations.Pairwise (Compared fs) ∧
      ∀ s ∈ args.sources, ∀ d ∈ args.destinations,
        differentFiles fs (Path.ofText s) (Path.ofText d) = .ok () := by
  unfold checkDestinations at h
  rw [ensure_bind_eq_ok, ensure_bind_eq_ok, ensure_bind_eq_ok] at h
  obtain ⟨_, _, _, h⟩ := h
  obtain ⟨_, hall, h⟩ := Result.bind_eq_ok.mp h
  refine ⟨?_, fun s hs d hd => ?_⟩
  · exact (List.pairwise_map.mp (allDifferent_eq_ok hall)).imp fun hpq => .inl hpq
  · have hsource := forM_eq_ok.mp h _ (List.mem_map_of_mem hs)
    exact forM_eq_ok.mp hsource _ (List.mem_map_of_mem hd)

theorem rotatedPath_ne (base : String) (index : Nat) : rotatedPath base index ≠ "-" := by
  intro h
  have hlist := congrArg String.toList h
  have hmem : '.' ∈ (rotatedPath base index).toList := by simp [rotatedPath]
  rw [hlist] at hmem
  simp at hmem

/-- The capture file is opened for writing, under the path that was compared. -/
theorem captureOpening_paths (args : Args) :
    args.captureOpening.map Prod.snd = args.capturePath.filter fun p => decide (p ≠ "-") := by
  unfold Args.captureOpening Args.capturePath
  cases args.write with
  | none => rfl
  | some path =>
    cases hrot : isRotating args.rotateSize args.rotateSeconds with
    | true => simp [Option.filter_some, rotatedPath_ne]
    | false => by_cases h : path = "-" <;> simp [Option.filter_some, h]

theorem captureOpening_mode {op : FileSystem.Mode × String} (h : op ∈ args.captureOpening) :
    op.1 ≠ .read := by
  unfold Args.captureOpening at h
  obtain ⟨path, _, h⟩ := Option.bind_eq_some_iff.mp h
  split at h
  · cases h
    simp
  · split at h
    · cases h
    · cases h
      simp

/-- All that a run opens, in order. -/
def Args.allOpenings (args : Args) : List (FileSystem.Mode × String) :=
  args.filterFile.toList.map (Mode.read, ·) ++ args.openings

theorem mem_openings_read {op : FileSystem.Mode × String} (h : op ∈ args.allOpenings)
    (hmode : op.1 = .read) : op.2 ∈ args.sources := by
  unfold Args.allOpenings Args.openings at h
  unfold Args.sources
  simp only [List.mem_append, List.mem_map, Option.mem_toList] at h ⊢
  rcases h with ⟨p, hp, rfl⟩ |
    ((((⟨p, hp, rfl⟩ | ⟨p, hp, rfl⟩) | hc) | ⟨p, hp, rfl⟩) | hb) | ⟨p, hp, rfl⟩
  · exact .inl (.inr hp)
  · cases hmode
  · exact .inl (.inl hp)
  · exact absurd hmode (captureOpening_mode hc)
  · cases hmode
  · split at hb
    · rename_i hlive
      obtain rfl := List.mem_singleton.mp hb
      exact .inr (by simp [hlive])
    · cases hb
  · cases hmode

/-- The outputs of a run are the destinations that were compared. -/
theorem outputs_perm (args : Args) :
    ((args.allOpenings.filter fun op => decide (op.1 ≠ .read)).map Prod.snd).Perm
      args.destinations := by
  have hcapture : args.captureOpening.toList.filter (fun op => decide (op.1 ≠ .read)) =
      args.captureOpening.toList :=
    List.filter_eq_self.mpr fun op hop => by
      simpa using captureOpening_mode (Option.mem_toList.mp hop)
  have hpaths : args.captureOpening.toList.map Prod.snd =
      (args.capturePath.filter fun p => decide (p ≠ "-")).toList := by
    rw [← captureOpening_paths]
    cases args.captureOpening <;> rfl
  have houtputs : (args.allOpenings.filter fun op => decide (op.1 ≠ .read)).map Prod.snd =
      args.deviceContext.toList ++ ((args.capturePath.filter fun p => decide (p ≠ "-")).toList ++
        args.rawOutput.toList) ++ args.readyFile.toList := by
    unfold Args.allOpenings Args.openings
    rw [← hpaths]
    simp only [List.filter_append, List.map_append, List.filter_map, hcapture]
    cases args.read <;> simp [Function.comp_def]
  rw [houtputs, Args.destinations]
  exact List.perm_append_comm.append_right _

/-- A relation between an opening and any other one, of which at least one writes. -/
theorem pairwise_of_outputs {S : String → String → Prop} (hsymm : ∀ p q, S p q → S q p)
    {ops : List (FileSystem.Mode × String)}
    (hout : ((ops.filter fun op => decide (op.1 ≠ .read)).map Prod.snd).Pairwise S)
    (hcross : ∀ a ∈ ops, a.1 = .read → ∀ b ∈ ops, b.1 ≠ .read → S a.2 b.2) :
    ops.Pairwise fun a b => a.1 ≠ .read ∨ b.1 ≠ .read → S a.2 b.2 := by
  induction ops with
  | nil => exact .nil
  | cons a rest ih =>
    have hrest : ∀ x ∈ rest, x.1 = .read → ∀ b ∈ rest, b.1 ≠ .read → S x.2 b.2 :=
      fun x hx hr b hb => hcross x (List.mem_cons_of_mem _ hx) hr b (List.mem_cons_of_mem _ hb)
    by_cases ha : a.1 = .read
    · rw [List.filter_cons_of_neg (by simp [ha])] at hout
      refine .cons (fun b hb hmode => ?_) (ih hout hrest)
      have hwrites : b.1 ≠ .read := hmode.resolve_left (not_not_intro ha)
      exact hcross a List.mem_cons_self ha b (List.mem_cons_of_mem _ hb) hwrites
    · rw [List.filter_cons_of_pos (by simp [ha]), List.map_cons, List.pairwise_cons] at hout
      refine .cons (fun b hb _ => ?_) (ih hout.2 hrest)
      by_cases hb' : b.1 = .read
      · exact hsymm _ _ (hcross b (List.mem_cons_of_mem _ hb) hb' a List.mem_cons_self ha)
      · exact hout.1 b.2 (List.mem_map_of_mem (List.mem_filter.mpr ⟨hb, by simp [hb']⟩))

/-- Of two openings of which one writes, the paths were compared. -/
theorem compared_openings (h : checkDestinations fs args = .ok ()) :
    args.allOpenings.Pairwise fun a b => a.1 ≠ .read ∨ b.1 ≠ .read → Compared fs a.2 b.2 := by
  obtain ⟨hdest, hsource⟩ := checkDestinations_eq_ok h
  have hperm := outputs_perm args
  have hout : ((args.allOpenings.filter fun op => decide (op.1 ≠ .read)).map Prod.snd).Pairwise
      (Compared fs) := hperm.symm.pairwise hdest Compared.symm
  refine @pairwise_of_outputs (Compared fs) (fun _ _ => Compared.symm) _ hout ?_
  intro a ha hread b hb hwrites
  have hmem : b.2 ∈ args.destinations :=
    hperm.mem_iff.mp (List.mem_map_of_mem (List.mem_filter.mpr ⟨hb, by simp [hwrites]⟩))
  exact .inl (hsource a.2 (mem_openings_read ha hread) b.2 hmem)

theorem Compared.distinct {p q : String} (h : Compared fs p q) {now now' last : FileSystem String}
    {a b : FileId} (hnow : fs.Extends now) (hnow' : fs.Extends now') (hlast : fs.Extends last)
    (ha : now.Reaches last (Path.ofText p) a) (hb : now'.Reaches last (Path.ofText q) b) : a ≠ b := by
  rcases h with h | h
  · exact accepted_distinct h hnow hnow' hlast ha hb
  · exact (accepted_distinct h hnow' hnow hlast hb ha).symm

/-- Of two files opened after the checks, one of them for writing, neither is the other. -/
theorem opened_distinct (h : checkDestinations fs args = .ok ())
    {ops : List (FileSystem.Mode × String)} (hops : ops.Sublist args.allOpenings) :
    (openPaths fs ops).2.Pairwise fun a b =>
      a.mode ≠ .read ∨ b.mode ≠ .read → a.id ≠ b.id := by
  obtain ⟨hlast, hreach, _, hlog⟩ := openAll_spec fs (ops.map fun op => (op.1, Path.ofText op.2))
  have hpaths := (compared_openings h).sublist hops
  -- the relation between the texts carries over to what was opened
  have hmapped : (ops.map fun op => (op.1, Path.ofText op.2)).Pairwise fun a b =>
      a.1 ≠ .read ∨ b.1 ≠ .read → ∃ p q, a.2 = Path.ofText p ∧ b.2 = Path.ofText q ∧
        Compared fs p q :=
    List.pairwise_map.mpr (hpaths.imp fun hab hmode => ⟨_, _, rfl, rfl, hab hmode⟩)
  have hopened := List.pairwise_map.mp (hmapped.sublist hlog.sublist)
  refine hopened.imp_of_mem fun {a b} ha hb hab hmode => ?_
  obtain ⟨p, q, hp, hq, hcompared⟩ := hab hmode
  obtain ⟨now, hnow, hra⟩ := hreach a ha
  obtain ⟨now', hnow', hrb⟩ := hreach b hb
  dsimp only at hp hq
  rw [hp] at hra
  rw [hq] at hrb
  exact hcompared.distinct hnow hnow' hlast hra hrb

/-- An input keeps its contents. -/
theorem input_kept (h : checkDestinations fs args = .ok ())
    {ops : List (FileSystem.Mode × String)} (hops : ops.Sublist args.allOpenings) {s : String}
    (hs : s ∈ args.sources) {id : FileId} (hid : fs.metadata (Path.ofText s) = .ok id) :
    (openPaths fs ops).1.contents id = fs.contents id := by
  obtain ⟨hlast, hreach, hkept, hlog⟩ := openAll_spec fs (ops.map fun op => (op.1, Path.ofText op.2))
  refine hkept id fun o ho hwrites heq => ?_
  have hop := hlog.subset (List.mem_map_of_mem ho)
  obtain ⟨op, hmem, hsame⟩ := List.mem_map.mp hop
  obtain ⟨hmode, hpath⟩ := Prod.mk.inj hsame
  rw [← hmode] at hwrites
  have hdest : op.2 ∈ args.destinations := (outputs_perm args).mem_iff.mp
    (List.mem_map_of_mem (List.mem_filter.mpr ⟨hops.subset hmem, by simpa using hwrites⟩))
  obtain ⟨hstat, _⟩ := differentFiles_eq_ok ((checkDestinations_eq_ok h).2 s hs op.2 hdest)
  obtain ⟨L, x, _, hx, hxid⟩ := metadata_eq_ok.mp hid
  obtain ⟨now, hnow, hr⟩ := hreach o ho
  rw [← hpath, ← heq] at hr
  exact hstat id hid (hr.metadata hnow hlast (fs.fresh L x id hx hxid))

/-- Reading the filter expression is the first opening, and changes nothing. -/
theorem openPaths_filter {filter : List (FileSystem.Opened String)}
    (h : readFilter fs args = .ok filter) (ops : List (FileSystem.Mode × String)) :
    openPaths fs (args.filterFile.toList.map (Mode.read, ·) ++ ops) =
      ((openPaths fs ops).1, filter ++ (openPaths fs ops).2) := by
  unfold readFilter at h
  cases hfile : args.filterFile with
  | none =>
    rw [hfile] at h
    cases h
    rfl
  | some path =>
    rw [hfile] at h
    obtain ⟨id, hid, h⟩ := Result.bind_eq_ok.mp h
    cases h
    have hread : fs.openAs .read (Path.ofText path) = .ok (fs, id) := by
      rw [openAs, osError_eq_ok.mp hid]
      rfl
    unfold openPaths
    rw [Option.toList_some, List.map_singleton, List.singleton_append, List.map_cons, openAll]
    dsimp only
    rw [hread]
    rfl

/-- A run whose checks fail has opened the filter expression at most. -/
theorem startUp_refused {steps : Nat} (h : (startUp fs args steps).2.2 ≠ .ok ()) :
    (startUp fs args steps).1 = fs ∧ ∀ o ∈ (startUp fs args steps).2.1, o.mode = .read := by
  unfold startUp at h ⊢
  cases hfilter : readFilter fs args with
  | error e => exact ⟨rfl, by simp⟩
  | ok filter =>
    rw [hfilter] at h
    dsimp only at h ⊢
    cases hcheck : checkDestinations fs args with
    | ok => rw [hcheck] at h; exact absurd rfl h
    | error e =>
      refine ⟨rfl, fun o ho => ?_⟩
      unfold readFilter at hfilter
      split at hfilter
      · cases hfilter
        cases ho
      · obtain ⟨id, _, hlog⟩ := Result.bind_eq_ok.mp hfilter
        cases hlog
        rw [List.mem_singleton.mp ho]

/-- A run whose checks succeed is a run of the openings. -/
theorem startUp_accepted {steps : Nat} (h : (startUp fs args steps).2.2 = .ok ()) :
    checkDestinations fs args = .ok () ∧ ∃ ops, ops.Sublist args.allOpenings ∧
      (startUp fs args steps).1 = (openPaths fs ops).1 ∧
      (startUp fs args steps).2.1 = (openPaths fs ops).2 := by
  unfold startUp at h ⊢
  cases hfilter : readFilter fs args with
  | error e => rw [hfilter] at h; cases h
  | ok filter =>
    rw [hfilter] at h
    dsimp only at h ⊢
    cases hcheck : checkDestinations fs args with
    | error e => rw [hcheck] at h; cases h
    | ok =>
      have hrun := openPaths_filter hfilter (args.openings.take steps)
      refine ⟨rfl, _, List.Sublist.append_left (List.take_sublist steps args.openings) _, ?_, ?_⟩
      · rw [hrun]
      · rw [hrun]

/-- **Aliases.** Files opened under two accepted paths differ, whatever else is opened
before and between. Resolution follows fewer than 40 links or fails. Of the files that
a run opens none is opened a second time when one of the two is an output, the inputs
keep their contents, and a run that is refused leaves everything as it was. -/
theorem accepted_paths_never_alias (fs : FileSystem String) :
    (∀ p q, differentFiles fs p q = .ok () → ∀ ops, ∀ a ∈ (fs.openAll ops).2,
      ∀ b ∈ (fs.openAll ops).2, a.path = p → b.path = q → a.id ≠ b.id) ∧
    (∀ p R, resolvedFilePath fs p = .ok R ↔
      ∃ n < 40, ∃ q, Follows fs n p q ∧ resolveStep fs q = .ok (.inr R)) ∧
    (∀ p q, Follows fs 40 p q →
      resolvedFilePath fs p = .error s!"too many symlinks in capture path {q.display}") ∧
    ∀ args steps,
      ((startUp fs args steps).2.2 ≠ .ok () → (startUp fs args steps).1 = fs ∧
        ∀ o ∈ (startUp fs args steps).2.1, o.mode = .read) ∧
      ((startUp fs args steps).2.2 = .ok () →
        (startUp fs args steps).2.1.Pairwise (fun a b =>
          a.mode ≠ .read ∨ b.mode ≠ .read → a.id ≠ b.id) ∧
        ∀ s ∈ args.sources, ∀ id, fs.metadata (Path.ofText s) = .ok id →
          (startUp fs args steps).1.contents id = fs.contents id) := by
  refine ⟨fun p q h ops a ha b hb hp hq => ?_, fun p R => resolveLoop_eq_ok,
    fun p q h => resolveLoop_exhausted h, fun args steps => ⟨startUp_refused, fun h => ?_⟩⟩
  · obtain ⟨hlast, hreach, _⟩ := openAll_spec fs ops
    obtain ⟨now, hnow, hra⟩ := hreach a ha
    obtain ⟨now', hnow', hrb⟩ := hreach b hb
    subst hp hq
    exact accepted_distinct h hnow hnow' hlast hra hrb
  · obtain ⟨hcheck, ops, hops, hstate, hlog⟩ := startUp_accepted h
    rw [hstate, hlog]
    exact ⟨opened_distinct hcheck hops, fun s hs id hid => input_kept hcheck hops hs hid⟩

end

/-- A capture with a second name, a link to a file that does not exist yet, and a link
to the directory itself. -/
def capturesEntries : List (List String × Node String) :=
  [([], .dir ⟨1, 1⟩),
    (["captures"], .dir ⟨1, 2⟩),
    (["in.usbraw", "captures"], .file ⟨1, 3⟩),
    (["again.usbraw", "captures"], .file ⟨1, 3⟩),
    (["dangling", "captures"], .symlink [.normal "out.pcapng"]),
    (["here", "captures"], .symlink [.parent, .normal "captures"])]

def captures : FileSystem String :=
  .ofEntries capturesEntries ["captures"] 4 ⟨_, rfl, _, rfl⟩ (by decide) (by decide)

/-- A replay into a new file behind a link, with a raw archive. -/
def capturesArgs : Args :=
  { read := some "in.usbraw"
    write := some "here/out.pcapng"
    rawOutput := some "/captures/./raw"
    deviceContext := none
    filterFile := none
    bpfObject := "target/usbscope.bpf.o"
    readyFile := none
    rotateSize := none
    rotateSeconds := none }

/-- The replay opens its three files; a hard link to its input and the dangling link to
its output are refused as outputs. -/
theorem accepted_paths_never_alias_captures :
    ((startUp captures capturesArgs 6).2.1.map Opened.id = [⟨1, 3⟩, ⟨1, 4⟩, ⟨1, 5⟩] ∧
      (startUp captures capturesArgs 6).2.1.Pairwise (fun a b =>
        a.mode ≠ .read ∨ b.mode ≠ .read → a.id ≠ b.id)) ∧
    checkDestinations captures { capturesArgs with write := some "again.usbraw" } =
      .error "input and output refer to the same file" ∧
    checkDestinations captures { capturesArgs with rawOutput := some "dangling" } =
      .error "capture paths refer to the same file" := by
  refine ⟨⟨by decide +kernel, ?_⟩, by decide +kernel, by decide +kernel⟩
  exact (((accepted_paths_never_alias captures).2.2.2 capturesArgs 6).2 (by decide +kernel)).1

end UsbScope.App
