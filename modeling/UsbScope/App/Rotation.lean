import UsbScope.App.Consume
import UsbScope.Lib.Groups
import UsbScope.Pcapng.Layout
import UsbScope.Pcapng.Rewrite

/-! # Rotation partitions the output

The written events are cut into groups, one for each file: a cut is due where
the file is nonempty and has reached one of its limits. The output follows the
groups, and each file is what a fresh writer makes of its group. -/
namespace UsbScope.App
open UsbScope.Lib UsbScope.Common UsbScope.Capture UsbScope.Pcapng

/-- The file with these events. -/
def fileOf (group : List Event) : Bytes :=
  match Writer.new.writeAll group with
  | .ok w => w.output
  | .error _ => []

theorem fileOf_eq {group : List Event} {w : Writer} (h : Writer.new.writeAll group = .ok w) :
    fileOf group = w.output := by
  rw [fileOf, h]

/-- The time from one event to a later one, in whole seconds. -/
def secondsBetween (first e : Event) : Nat :=
  (e.metadata.timestampNs.toNat - first.metadata.timestampNs.toNat) / 1000000000

/-- The file of the group is nonempty and large enough, or too old for the event. -/
def LimitReached (size seconds : Option UInt64) (group : List Event) (e : Event) : Prop :=
  group ≠ [] ∧ ((∃ limit ∈ size, limit.toNat ≤ (fileOf group).length) ∨
    ∃ limit ∈ seconds, ∃ first ∈ group.head?, limit.toNat ≤ secondsBetween first e)

/-- The path of a file of the output. -/
def CaptureOutput.pathOf (self : CaptureOutput) (index : Nat) : String :=
  if isRotating self.size self.seconds then rotatedPath self.base index else self.base

/-- The output holds the closed groups in its files and the current one in its writer. -/
structure Filled (start out : CaptureOutput) (closed : List (List Event)) (current : List Event) :
    Prop where
  groups : Groups (LimitReached start.size start.seconds) closed current
  base : out.base = start.base
  size : out.size = start.size
  seconds : out.seconds = start.seconds
  maxFiles : out.maxFiles = start.maxFiles
  writer : Writer.new.writeAll current = .ok out.writer
  index : out.fileIndex = closed.length
  events : out.events = current.length
  started : out.started = current.head?.map fun e => e.metadata.timestampNs
  disk : out.disk = start.disk ++ closed.mapIdx fun k g => (start.pathOf k, fileOf g)
  limit : ∀ max ∈ start.maxFiles, closed.length < max.toNat
  written : ∀ g ∈ closed, ∃ w, Writer.new.writeAll g = .ok w

section

variable {start out out' : CaptureOutput} {closed : List (List Event)} {current : List Event}
  {e : Event}

/-- The files of an output are those of its groups. -/
theorem Filled.files (h : Filled start out closed current) :
    out.files = start.disk ++ (closed ++ [current]).mapIdx fun k g => (start.pathOf k, fileOf g) := by
  rw [CaptureOutput.files, h.disk, List.mapIdx_append, List.append_assoc]
  simp only [List.mapIdx_cons, List.mapIdx_nil, Nat.zero_add]
  rw [fileOf_eq h.writer, CaptureOutput.path, CaptureOutput.pathOf, h.size, h.seconds, h.base, h.index]

/-- The output rotates where a cut is due. -/
theorem Filled.rotates_iff (h : Filled start out closed current) :
    out.rotates e.metadata.timestampNs = true ↔
      LimitReached start.size start.seconds current e := by
  have hbytes : out.writer.bytes = (fileOf current).length := by
    rw [fileOf_eq h.writer, (writeAll_laid h.writer).size]
  have hevents : out.events ≠ 0 ↔ current ≠ [] := by
    rw [h.events, ne_eq, List.length_eq_zero_iff]
  unfold CaptureOutput.rotates LimitReached
  simp only [Bool.and_eq_true, Bool.or_eq_true, decide_eq_true_eq, hevents, h.size, h.seconds,
    h.started, hbytes, Option.any_eq_true, Option.mem_def, Option.map_eq_some_iff]
  refine and_congr_right fun _ => or_congr Iff.rfl ?_
  constructor
  · rintro ⟨limit, hlimit, _, ⟨first, hfirst, rfl⟩, hle⟩
    exact ⟨limit, hlimit, first, hfirst, hle⟩
  · rintro ⟨limit, hlimit, first, hfirst, hle⟩
    exact ⟨limit, hlimit, _, ⟨first, hfirst, rfl⟩, hle⟩

theorem writeAll_concat {w w₁ w₂ : Writer} {events : List Event} (h : w.writeAll events = .ok w₁)
    (he : w₁.writeEvent e = .ok w₂) : w.writeAll (events ++ [e]) = .ok w₂ := by
  unfold Writer.writeAll at h ⊢
  rw [List.foldlM_append, h, Result.ok_bind, List.foldlM_cons, he]
  rfl

/-- An event that is added to the current file. -/
theorem Filled.add (h : Filled start out closed current)
    (hdue : ¬ LimitReached start.size start.seconds current e) (hadd : out.add e = .ok out') :
    Filled start out' closed (current ++ [e]) := by
  obtain ⟨writer, hwriter, hadd⟩ := Result.bind_eq_ok.mp hadd
  cases hadd
  refine ⟨h.groups.join hdue, h.base, h.size, h.seconds, h.maxFiles, writeAll_concat h.writer hwriter,
    h.index, ?_, ?_, h.disk, h.limit, h.written⟩
  · simp [h.events]
  · rw [h.started]
    cases current <;> rfl

/-- An event that opens the next file. -/
theorem Filled.next (h : Filled start out closed current)
    (hdue : LimitReached start.size start.seconds current e) {next : CaptureOutput}
    (hnext : out.nextFile = .ok (some next)) (hadd : next.add e = .ok out') :
    Filled start out' (closed ++ [current]) [e] := by
  unfold CaptureOutput.nextFile at hnext
  split at hnext
  · cases hnext
  rename_i hmax
  obtain ⟨_, hnext⟩ := ensure_bind_eq_ok.mp hnext
  obtain ⟨writer, hopen, hnext⟩ := Result.bind_eq_ok.mp hnext
  cases hnext
  obtain ⟨_, hopen⟩ := ensure_bind_eq_ok.mp hopen
  cases hopen
  obtain ⟨writer, hwriter, hadd⟩ := Result.bind_eq_ok.mp hadd
  cases hadd
  refine ⟨h.groups.cut hdue, h.base, h.size, h.seconds, h.maxFiles,
    writeAll_concat (writeAll_nil.mpr rfl) hwriter, ?_, rfl, rfl, h.files, ?_, ?_⟩
  · simp [h.index]
  · intro max hmem
    rw [h.maxFiles, hmem, h.index, Option.any_some, decide_eq_true_eq] at hmax
    simpa using hmax
  · intro g hg
    rcases List.mem_append.mp hg with hg | hg
    · exact h.written g hg
    · exact ⟨_, List.mem_singleton.mp hg ▸ h.writer⟩

/-- What a call of `write` does to the groups. -/
theorem Filled.write (h : Filled start out closed current) {wrote : Bool}
    (hwrite : out.write e = .ok (out', wrote)) :
    (wrote = true ∧ ∃ closed' current', Filled start out' closed' current' ∧
      (closed' ++ [current']).flatten = (closed ++ [current]).flatten ++ [e]) ∨
    (wrote = false ∧ out' = out ∧ LimitReached start.size start.seconds current e) := by
  unfold CaptureOutput.write at hwrite
  by_cases hrotates : out.rotates e.metadata.timestampNs = true
  · have hdue := h.rotates_iff.mp hrotates
    rw [if_pos hrotates] at hwrite
    obtain ⟨next, hnext, hwrite⟩ := Result.bind_eq_ok.mp hwrite
    cases next with
    | none =>
      cases hwrite
      exact .inr ⟨rfl, rfl, hdue⟩
    | some next =>
      obtain ⟨added, hadd, hwrite⟩ := Result.bind_eq_ok.mp hwrite
      cases hwrite
      exact .inl ⟨rfl, _, _, h.next hdue hnext hadd, by simp⟩
  · rw [if_neg hrotates] at hwrite
    obtain ⟨added, hadd, hwrite⟩ := Result.bind_eq_ok.mp hwrite
    cases hwrite
    exact .inl ⟨rfl, _, _, h.add (mt h.rotates_iff.mpr hrotates) hadd, by simp⟩

/-- A new output is one empty file. -/
theorem filled_new {disk : Disk} {base : String} {size seconds : Option UInt64}
    {maxFiles : Option UInt32} (h : CaptureOutput.new disk base size seconds maxFiles = .ok out) :
    Filled out out [] [] := by
  unfold CaptureOutput.new at h
  obtain ⟨_, h⟩ := ensure_bind_eq_ok.mp h
  obtain ⟨_, h⟩ := ensure_bind_eq_ok.mp h
  obtain ⟨hpositive, h⟩ := ensure_bind_eq_ok.mp h
  obtain ⟨writer, hopen, h⟩ := Result.bind_eq_ok.mp h
  obtain ⟨_, hopen⟩ := ensure_bind_eq_ok.mp hopen
  cases hopen
  cases h
  refine ⟨.start, rfl, rfl, rfl, rfl, rfl, rfl, rfl, rfl, by simp, ?_, by simp⟩
  intro max hmax
  have hne : max ≠ 0 := by
    rintro rfl
    exact hpositive.2.2 hmax
  exact Nat.pos_of_ne_zero fun hzero => hne (UInt32.toNat_inj.mp hzero)

end

/-! ## Runs of the consumer -/

/-- The call of `write` for an event with what it returned, as the counter and
the flag show it. -/
def outcome (s s' : Consumer) (e : Event) : List (Event × Bool) :=
  if s.written < s'.written then [(e, true)]
  else if s.outputFull = false ∧ s'.outputFull = true then [(e, false)]
  else []

/-- All calls of `write` while the events are consumed. -/
def writes (args : Options) : Consumer → List Event → List (Event × Bool)
  | _, [] => []
  | s, e :: rest =>
    match args.consumeEvent s e with
    | .error _ => []
    | .ok (s', _) => outcome s s' e ++ writes args s' rest

section

variable {args : Options} {s s' t : Consumer} {e : Event} {events : List Event}
  {stop : Bool} {stops : List Bool}

theorem writes_cons (h : args.consumeEvent s e = .ok (s', stop)) :
    writes args s (e :: events) = outcome s s' e ++ writes args s' events := by
  rw [writes, h]

theorem outcome_written (h : s'.written = s.written + 1) : outcome s s' e = [(e, true)] := by
  rw [outcome, h, if_pos (Nat.lt_succ_self _)]

theorem outcome_same (hwritten : s'.written = s.written) (hfull : s'.outputFull = s.outputFull) :
    outcome s s' e = [] := by
  rw [outcome, hwritten, if_neg (lt_irrefl _), hfull, if_neg (by simp)]

theorem outcome_refused (hwritten : s'.written = s.written) (hroom : s.outputFull = false)
    (hfull : s'.outputFull = true) : outcome s s' e = [(e, false)] := by
  rw [outcome, hwritten, if_neg (lt_irrefl _), if_pos ⟨hroom, hfull⟩]

/-- Nothing is written to a full output. -/
theorem writes_full (hfull : s.outputFull = true)
    (h : Machine.run args.consumeEvent s events = .ok (t, stops)) :
    writes args s events = [] ∧ t = s := by
  induction events generalizing stops with
  | nil =>
    cases h
    exact ⟨rfl, rfl⟩
  | cons e rest ih =>
    have hstep : args.consumeEvent s e = .ok (s, true) := by
      rw [Options.consumeEvent, hfull]
      rfl
    obtain ⟨s', o, os, hs', hrest, rfl⟩ := Machine.run_cons.mp h
    rw [hstep] at hs'
    cases hs'
    obtain ⟨hnone, rfl⟩ := ih hrest
    rw [writes_cons hstep, hnone, outcome_same rfl rfl]
    exact ⟨rfl, rfl⟩

/-- Where the output stands after a run: the groups, and the event that a full
output refused. -/
structure Stands (start : CaptureOutput) (t : Consumer) (groups : List (List Event))
    (refused : Option Event) : Prop where
  filled : ∃ out closed current, t.output = some out ∧ Filled start out closed current ∧
    groups = closed ++ [current] ∧ ∀ e ∈ refused, LimitReached start.size start.seconds current e
  full : t.outputFull = refused.isSome

theorem Stands.turn {start : CaptureOutput} {groups : List (List Event)}
    (h : Stands start s groups none) (hturn : args.Turn s e s' stop) :
    ∃ groups' refused, Stands start s' groups' refused ∧
      groups'.flatten.map (·, true) ++ refused.toList.map (·, false) =
        groups.flatten.map (·, true) ++ outcome s s' e := by
  obtain ⟨out, closed, current, hout, hfilled, rfl, _⟩ := h.filled
  have hroom : s.outputFull = false := h.full
  cases hturn with
  | ignored =>
    refine ⟨_, none, h, ?_⟩
    rw [outcome_same rfl rfl]
    simp
  | @skipped latency submissions _ _ =>
    have houtcome : outcome s { s with submissions } e = [] := outcome_same rfl rfl
    refine ⟨_, none, ⟨⟨out, closed, current, hout, hfilled, rfl, by simp⟩, hroom⟩, ?_⟩
    rw [houtcome]
    simp
  | printed _ hnone =>
    rw [hout] at hnone
    cases hnone
  | @wrote submissions output output' hoffered hout' hwrite =>
    rw [hout] at hout'
    cases hout'
    have houtcome : outcome s (args.counted
        { args.noted s submissions e with output := some output' }).1 e = [(e, true)] :=
      outcome_written rfl
    obtain ⟨_, closed', current', hfilled', hflat⟩ | ⟨hfalse, _⟩ := hfilled.write hwrite
    · refine ⟨_, none, ⟨⟨output', closed', current', rfl, hfilled', rfl, by simp⟩, hroom⟩, ?_⟩
      rw [houtcome, hflat]
      simp
    · cases hfalse
  | @refused submissions output output' hoffered hout' hwrite =>
    rw [hout] at hout'
    cases hout'
    have houtcome : outcome s { args.noted s submissions e with
        output := some output', outputFull := true } e = [(e, false)] :=
      outcome_refused rfl hroom rfl
    obtain ⟨htrue, _⟩ | ⟨_, rfl, hlimit⟩ := hfilled.write hwrite
    · cases htrue
    · refine ⟨_, some e, ⟨⟨output', closed, current, rfl, hfilled, rfl, ?_⟩, rfl⟩, ?_⟩
      · intro x hx
        cases hx
        exact hlimit
      · rw [houtcome]
        rfl

theorem Stands.run {start : CaptureOutput} {groups : List (List Event)}
    (h : Stands start s groups none)
    (hrun : Machine.run args.consumeEvent s events = .ok (t, stops)) :
    ∃ groups' refused, Stands start t groups' refused ∧
      groups'.flatten.map (·, true) ++ refused.toList.map (·, false) =
        groups.flatten.map (·, true) ++ writes args s events := by
  induction events generalizing s groups stops with
  | nil =>
    cases hrun
    exact ⟨groups, none, h, rfl⟩
  | cons e rest ih =>
    obtain ⟨s', o, os, hs', hrest, rfl⟩ := Machine.run_cons.mp hrun
    obtain ⟨groups₁, refused, h₁, hwrites₁⟩ := h.turn (Options.consumeEvent_turn hs')
    rw [writes_cons hs', ← List.append_assoc, ← hwrites₁]
    cases refused with
    | none =>
      obtain ⟨groups₂, refused, h₂, hwrites₂⟩ := ih h₁ hrest
      refine ⟨groups₂, refused, h₂, ?_⟩
      rw [hwrites₂]
      simp
    | some x =>
      obtain ⟨hnone, rfl⟩ := writes_full h₁.full hrest
      refine ⟨groups₁, some x, h₁, ?_⟩
      rw [hnone, List.append_nil]

theorem writes_append {m : Consumer} {os : List Bool}
    (h : Machine.run args.consumeEvent s events = .ok (m, os)) (more : List Event) :
    writes args s (events ++ more) = writes args s events ++ writes args m more := by
  induction events generalizing s os with
  | nil =>
    cases h
    rfl
  | cons e rest ih =>
    obtain ⟨s', o, os', hs', hrest, rfl⟩ := Machine.run_cons.mp h
    rw [List.cons_append, writes_cons hs', writes_cons hs', ih hrest, List.append_assoc]

/-- An event that passes selection and filter, before the event count is reached. -/
structure Wanted (args : Options) (s : Consumer) (e : Event) : Prop where
  count : args.countReached s.written = false
  chosen : ∃ latency submissions, args.latency s.submissions e = .ok (latency, submissions) ∧
    args.chosen e latency = .ok true

/-- A wanted event is not skipped. -/
theorem Wanted.verdict (h : Wanted args s e) {latency : Option UInt64} {submissions : Submissions}
    (hlatency : args.latency s.submissions e = .ok (latency, submissions)) {verdict : Bool}
    (hchosen : args.chosen e latency = .ok verdict) : verdict = true := by
  obtain ⟨latency', submissions', hlatency', hchosen'⟩ := h.chosen
  rw [hlatency] at hlatency'
  cases hlatency'
  rw [hchosen] at hchosen'
  exact Except.ok.inj hchosen'

/-- A wanted event is written, unless the output is full. -/
theorem Wanted.turn (h : Wanted args s e) (hturn : args.Turn s e s' stop) {out : CaptureOutput}
    (hout : s.output = some out) : s.outputFull = true ∨ ∃ wrote, outcome s s' e = [(e, wrote)] := by
  cases hturn with
  | ignored hlimit =>
    rw [h.count] at hlimit
    exact .inl (hlimit.resolve_right nofun)
  | skipped hlatency hchosen => cases h.verdict hlatency hchosen
  | printed _ hnone =>
    rw [hout] at hnone
    cases hnone
  | wrote => exact .inr ⟨true, outcome_written rfl⟩
  | refused hoffered => exact .inr ⟨false, outcome_refused rfl hoffered.room rfl⟩

end

/-! ## The partition -/

/-- How the files divide the written events. -/
structure Divided (size seconds : Option UInt64) (maxFiles : Option UInt32)
    (groups : List (List Event)) : Prop where
  nonempty : ∀ k group, groups[k + 1]? = some group → group ≠ []
  count : ∀ max ∈ maxFiles, groups.length ≤ max.toNat
  small : ∀ limit ∈ size, ∀ group ∈ groups, ∀ before last, group = before ++ [last] → before ≠ [] →
    (fileOf before).length < limit.toNat
  recent : ∀ limit ∈ seconds, ∀ group ∈ groups, ∀ first rest, group = first :: rest →
    ∀ e ∈ rest, secondsBetween first e < limit.toNat
  cause : ∀ k group next, groups[k]? = some group → groups[k + 1]? = some next →
    ∃ e rest, next = e :: rest ∧ LimitReached size seconds group e

theorem Filled.divided {start out : CaptureOutput} {closed : List (List Event)} {current : List Event}
    (h : Filled start out closed current) :
    Divided start.size start.seconds start.maxFiles (closed ++ [current]) := by
  refine ⟨?_, ?_, ?_, ?_, fun k group next => h.groups.due_between⟩
  · intro k group hgroup
    obtain ⟨previous, hprevious⟩ : ∃ g, (closed ++ [current])[k]? = some g := by
      have hlt := (List.getElem?_eq_some_iff.mp hgroup).1
      exact ⟨_, List.getElem?_eq_getElem (by omega)⟩
    obtain ⟨e, rest, rfl, _⟩ := h.groups.due_between hprevious hgroup
    exact List.cons_ne_nil _ _
  · intro max hmax
    have hlt := h.limit max hmax
    simp only [List.length_append, List.length_singleton]
    omega
  · intro limit hlimit group hgroup before last hsplit hne
    have hdue := h.groups.joined hgroup hsplit hne
    by_contra hle
    exact hdue ⟨hne, .inl ⟨limit, hlimit, not_lt.mp hle⟩⟩
  · intro limit hlimit group hgroup first rest hsplit e he
    obtain ⟨before, after, rfl⟩ := List.append_of_mem he
    have hdue := h.groups.joined hgroup (show group = (first :: before) ++ e :: after from hsplit)
      (List.cons_ne_nil _ _)
    by_contra hle
    exact hdue ⟨List.cons_ne_nil _ _, .inr ⟨limit, hlimit, first, rfl, not_lt.mp hle⟩⟩

/-- A pcapng file with exactly these events and its own interface table. -/
structure IsFile (content : Bytes) (group : List Event) : Prop where
  whole : (framesOf content).flatMap Frame.bytes = content
  wellFormed : WellFormed (framesOf content)
  holds : ∃ table, Holds (framesOf content) table group

theorem isFile_fileOf {group : List Event} {w : Writer} (h : Writer.new.writeAll group = .ok w) :
    IsFile (fileOf group) group := by
  have hlaid := writeAll_laid h
  rw [fileOf_eq h]
  exact ⟨hlaid.output.symm, hlaid.wellFormed, _, hlaid.holds⟩

theorem Filled.isFile {start out : CaptureOutput} {closed : List (List Event)} {current : List Event}
    (h : Filled start out closed current) {group : List Event} (hg : group ∈ closed ++ [current]) :
    IsFile (fileOf group) group := by
  rcases List.mem_append.mp hg with hg | hg
  · obtain ⟨w, hw⟩ := h.written group hg
    exact isFile_fileOf hw
  · rw [List.mem_singleton.mp hg]
    exact isFile_fileOf h.writer

theorem new_config {disk : Disk} {base : String} {size seconds : Option UInt64}
    {maxFiles : Option UInt32} {out : CaptureOutput}
    (h : CaptureOutput.new disk base size seconds maxFiles = .ok out) :
    out.base = base ∧ out.size = size ∧ out.seconds = seconds ∧ out.maxFiles = maxFiles := by
  unfold CaptureOutput.new at h
  obtain ⟨_, h⟩ := ensure_bind_eq_ok.mp h
  obtain ⟨_, h⟩ := ensure_bind_eq_ok.mp h
  obtain ⟨_, h⟩ := ensure_bind_eq_ok.mp h
  obtain ⟨writer, _, h⟩ := Result.bind_eq_ok.mp h
  cases h
  exact ⟨rfl, rfl, rfl, rfl⟩

/-- Whatever is consumed, the files hold the written events in order, one
group each, and writing stops only at a file that has reached a limit. -/
theorem rotation_partitions {args : Options} {disk : Disk} {base : String}
    {size seconds : Option UInt64} {maxFiles : Option UInt32} {out : CaptureOutput}
    {events : List Event} {t : Consumer} {stops : List Bool}
    (hnew : CaptureOutput.new disk base size seconds maxFiles = .ok out)
    (hrun : Machine.run args.consumeEvent (Consumer.start (some out)) events = .ok (t, stops)) :
    ∃ (groups : List (List Event)) (refused : Option Event) (final : CaptureOutput),
      t.output = some final ∧
      final.files = out.disk ++ groups.mapIdx (fun k group =>
        (if isRotating size seconds then rotatedPath base k else base, fileOf group)) ∧
      writes args (Consumer.start (some out)) events =
        groups.flatten.map (·, true) ++ refused.toList.map (·, false) ∧
      Divided size seconds maxFiles groups ∧
      (∀ group ∈ groups, IsFile (fileOf group) group) ∧
      (∀ e ∈ refused, ∃ group ∈ groups.getLast?, LimitReached size seconds group e) ∧
      ∀ before e after m os, events = before ++ e :: after →
        Machine.run args.consumeEvent (Consumer.start (some out)) before = .ok (m, os) →
        Wanted args m e →
        (∃ x, (x, false) ∈ writes args (Consumer.start (some out)) before) ∨
          ∃ wrote, writes args (Consumer.start (some out)) (before ++ [e]) =
            writes args (Consumer.start (some out)) before ++ [(e, wrote)] := by
  obtain ⟨rfl, rfl, rfl, rfl⟩ := new_config hnew
  have hstart : Stands out (Consumer.start (some out)) [[]] none :=
    ⟨⟨out, [], [], rfl, filled_new hnew, rfl, by simp⟩, rfl⟩
  obtain ⟨groups, refused, hstands, hwrites⟩ := hstart.run hrun
  obtain ⟨final, closed, current, hout, hfilled, rfl, hrefused⟩ := hstands.filled
  refine ⟨closed ++ [current], refused, final, hout, hfilled.files, by simpa using hwrites.symm,
    hfilled.divided, fun group => hfilled.isFile, ?_, ?_⟩
  · intro e he
    exact ⟨current, by simp, hrefused e he⟩
  · rintro before e after m os rfl hbefore hwanted
    obtain ⟨m', os₁, os₂, hrun₁, hrun₂, rfl⟩ := Machine.run_append.mp hrun
    rw [hbefore] at hrun₁
    cases hrun₁
    obtain ⟨s', o, os₃, hs', _, rfl⟩ := Machine.run_cons.mp hrun₂
    obtain ⟨groups₁, refused₁, hstands₁, hwrites₁⟩ := hstart.run hbefore
    obtain ⟨out₁, _, _, hout₁, _⟩ := hstands₁.filled
    rcases hwanted.turn (Options.consumeEvent_turn hs') hout₁ with hfull | ⟨wrote, houtcome⟩
    · rw [hstands₁.full] at hfull
      obtain ⟨x, rfl⟩ := Option.isSome_iff_exists.mp hfull
      refine .inl ⟨x, ?_⟩
      rw [show writes args (Consumer.start (some out)) before = _ by simpa using hwrites₁.symm]
      simp
    · refine .inr ⟨wrote, ?_⟩
      rw [writes_append hbefore, writes_cons hs', houtcome]
      rfl

def bulkOutAt (ns : UInt64) : Event :=
  { bulkOutEvent with metadata := { bulkOutEvent.metadata with timestampNs := ns } }

set_option maxRecDepth 4000 in
/-- Files of one second, at most two: the third event is refused. -/
theorem rotation_partitions_seconds : ∃ out t stops,
    CaptureOutput.new [] "out" none (some 1) (some 2) = .ok out ∧
    Machine.run everything.consumeEvent (Consumer.start (some out))
      [bulkOutAt 0, bulkOutAt 2000000000, bulkOutAt 5000000000] = .ok (t, stops) ∧
    t.outputFull = true ∧ ∃ (groups : List (List Event)) (refused : Option Event),
      writes everything (Consumer.start (some out))
          [bulkOutAt 0, bulkOutAt 2000000000, bulkOutAt 5000000000] =
        groups.flatten.map (·, true) ++ refused.toList.map (·, false) ∧
      Divided none (some 1) (some 2) groups := by
  refine ⟨_, _, _, rfl, rfl, rfl, ?_⟩
  obtain ⟨groups, refused, _, _, _, hwrites, hdivided, _⟩ :=
    @rotation_partitions everything [] "out" none (some 1) (some 2) _
      [bulkOutAt 0, bulkOutAt 2000000000, bulkOutAt 5000000000] _ _ rfl rfl
  exact ⟨groups, refused, hwrites, hdivided⟩

end UsbScope.App
