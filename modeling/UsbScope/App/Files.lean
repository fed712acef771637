import UsbScope.App.InFlight

/-! # The files of a capture

A rotation cuts the capture anywhere, so a file can hold completions whose
submissions went to the file before it. The reader does not mind: behind fewer
events no more submissions are open, and a completion whose submission is in
another file is read with an unknown request. -/
namespace UsbScope.App
open UsbScope.Lib UsbScope.Common UsbScope.Capture UsbScope.Pcapng UsbScope.Ebpf

/-! ## Parts of a capture -/

section

variable {pre before group : List Event} {e : Event} {key : RequestKey}

/-- A submission that is open is open behind earlier events too. -/
theorem unmatched_append {s : Event} (h : unmatched group key = some s) :
    unmatched (pre ++ group) key = some s := by
  obtain ⟨front, back, rfl, hsubmit, hkey, hback⟩ := unmatched_iff.mp h
  exact unmatched_iff.mpr ⟨pre ++ front, back, (List.append_assoc _ _ _).symm, hsubmit, hkey, hback⟩

theorem hasRoom_of_append (h : HasRoom (pre ++ before) e) : HasRoom before e := by
  intro hs
  refine (Finset.card_le_card fun key hkey => ?_).trans_lt (h hs)
  obtain ⟨s, hopen⟩ := Option.isSome_iff_exists.mp (mem_unmatchedKeys.mp hkey)
  exact mem_unmatchedKeys.mpr (Option.isSome_iff_exists.mpr ⟨s, unmatched_append hopen⟩)

theorem fitsRequest_of_append (h : FitsRequest (pre ++ before) e) : FitsRequest before e :=
  fun hs ht s hopen => h hs ht s (unmatched_append hopen)

/-- In a part of a capture a request is unknown, or the one of the whole capture. -/
theorem requestAfter_part (h : Answers (pre ++ before) e) :
    ∀ len ∈ requestAfter before e, len = e.metadata.requestedLen := by
  intro len hlen
  unfold requestAfter at hlen
  split at hlen
  · exact (Option.some.inj hlen).symm
  · rename_i hs
    rw [Option.mem_def, Option.map_eq_some_iff] at hlen
    obtain ⟨s, hopen, rfl⟩ := hlen
    -- the submission in this file is the one in the whole capture
    obtain ⟨s', hopen', hlen⟩ := h hs
    have hsame : unmatched (pre ++ before) (requestKey e) = some s := unmatched_append hopen
    rw [hsame] at hopen'
    cases hopen'
    exact hlen

/-- The file is read to its end and holds the events. -/
def ReadWhole (file : Bytes) (events : List Event) : Prop :=
  ∃ blocks r, Reads file blocks r ∧ r.incomplete = 0 ∧ delivered blocks = events

/-- What one file tells of an event: all that the format has, and the length
that was requested unless the submission is in another file. -/
structure ReadAs (e e' : Event) : Prop where
  carried : Carried e e'
  known : e.metadata.eventType = submitType → e'.requestedKnown = true
  requested : e'.requestedKnown = true → e'.metadata.requestedLen = e.metadata.requestedLen

theorem reads_part (hkernel : ∀ e ∈ group, FromKernel e)
    (hsettled : Trace.Each (fun after e => Settled (pre ++ after) e) group) {w : Writer}
    (hw : Writer.new.writeAll group = .ok w) :
    ∃ back, ReadWhole (fileOf group) back ∧ List.Forall₂ ReadAs group back := by
  have hwf : ∀ e ∈ group, Wellformed e := fun e he => (hkernel e he).toWellformed
  obtain ⟨-, hfew, -, hback⟩ := reads_written hw hwf
  have heach : Trace.Each (fun before e => HasRoom before e ∧ FitsRequest before e) group := by
    intro i e he
    have h := hsettled i e he
    exact ⟨hasRoom_of_append h.room,
      fitsRequest_of_append (h.fits (hkernel e (List.mem_of_getElem? he)))⟩
  obtain ⟨blocks, r, hread⟩ := (reads_iff_each hwf hw).mpr heach
  obtain ⟨hdelivered, hincomplete⟩ := hback blocks r hread
  have hall := readBacks_each (fun a ha b hb => number_injOn hfew ha hb) (writeAll_interfaces hw).2
    (P := fun e request => (e.metadata.eventType = submitType → request = some e.metadata.requestedLen) ∧
      ∀ len ∈ request, len = e.metadata.requestedLen)
    fun i e he => ⟨fun hs => if_pos hs, requestAfter_part (hsettled i e he).answers⟩
  rw [← hdelivered] at hall
  refine ⟨_, ⟨blocks, r, by rwa [fileOf_eq hw], hincomplete, rfl⟩, hall.imp ?_⟩
  intro e e' h
  obtain ⟨request, ⟨hknown, hlen⟩, rfl⟩ := h
  refine ⟨carried_readBack hknown, fun hs => ?_, fun hsome => ?_⟩
  · change request.isSome = true
    rw [hknown hs, Option.isSome_some]
  · obtain ⟨len, hrequest⟩ := Option.isSome_iff_exists.mp hsome
    rw [hrequest]
    exact hlen len hrequest

end

/-! ## Runs that want every event -/

section

variable {args : Options} {s s' t : Consumer} {e : Event} {events : List Event} {stop : Bool}
  {stops : List Bool}

theorem outcome_wanted (hall : ∀ e latency, args.chosen e latency = .ok true)
    (h : args.consumeEvent s e = .ok (s', stop)) (hs : ¬ Limited args s) :
    ∃ wrote, outcome s s' e = [(e, wrote)] := by
  cases Options.consumeEvent_turn h with
  | ignored hlimit => exact absurd hlimit hs
  | @skipped latency submissions hlatency hchosen =>
    rw [hall e latency] at hchosen
    cases hchosen
  | printed => exact ⟨true, outcome_written rfl⟩
  | wrote => exact ⟨true, outcome_written rfl⟩
  | refused hoffered => exact ⟨false, outcome_refused rfl hoffered.room rfl⟩

/-- The events that are offered are the first ones, all of them without a limit. -/
theorem offered_leading (hall : ∀ e latency, args.chosen e latency = .ok true)
    (hrun : Machine.run args.consumeEvent s events = .ok (t, stops)) :
    (writes args s events).map Prod.fst <+: events ∧
      (¬ Limited args t → (writes args s events).map Prod.fst = events) := by
  induction events generalizing s stops with
  | nil => exact ⟨List.prefix_rfl, fun _ => rfl⟩
  | cons e rest ih =>
    by_cases hs : Limited args s
    · rw [writes_limited hs]
      exact ⟨List.nil_prefix, fun hlimit => absurd (hs.run hrun ▸ hs) hlimit⟩
    · obtain ⟨s', o, os, hstep, hrest, -⟩ := Machine.run_cons.mp hrun
      obtain ⟨wrote, houtcome⟩ := outcome_wanted hall hstep hs
      obtain ⟨hleading, hwhole⟩ := ih hrest
      rw [writes_cons hstep, houtcome, List.map_append]
      exact ⟨List.cons_prefix_cons.mpr ⟨rfl, hleading⟩, fun hlimit => congrArg (e :: ·) (hwhole hlimit)⟩

/-- The groups of the output are the first events, all of them without a limit. -/
theorem Stands.first {out : CaptureOutput} {groups : List (List Event)} {refused : Option Event}
    (h : Stands out t groups refused) (hall : ∀ e latency, args.chosen e latency = .ok true)
    (hrun : Machine.run args.consumeEvent s events = .ok (t, stops))
    (hwrites : groups.flatten.map (·, true) ++ refused.toList.map (·, false) = writes args s events) :
    groups.flatten <+: events ∧ (¬ Limited args t → groups.flatten = events) := by
  obtain ⟨hleading, hwhole⟩ := offered_leading hall hrun
  have hoffered : (writes args s events).map Prod.fst = groups.flatten ++ refused.toList := by
    rw [← hwrites, List.map_append, List.map_map, List.map_map]
    exact congrArg₂ (· ++ ·) (List.map_id _) (List.map_id _)
  rw [hoffered] at hleading hwhole
  refine ⟨(List.prefix_append _ _).trans hleading, fun hlimit => ?_⟩
  have hnone : refused = none := by
    rw [← Option.not_isSome_iff_eq_none, ← h.full]
    exact fun hfull => hlimit (.inl hfull)
  rw [← hwhole hlimit, hnone, Option.toList_none, List.append_nil]

end

theorem exists_forall₂ {α β : Type} {R : α → β → Prop} {l : List α} (h : ∀ a ∈ l, ∃ b, R a b) :
    ∃ l', List.Forall₂ R l l' := by
  induction l with
  | nil => exact ⟨[], .nil⟩
  | cons a rest ih =>
    obtain ⟨b, hb⟩ := h a List.mem_cons_self
    obtain ⟨l', hrest⟩ := ih fun x hx => h x (List.mem_cons_of_mem _ hx)
    exact ⟨b :: l', .cons hb hrest⟩

theorem forall₂_mapIdx {α β γ : Type} {R : α → β → Prop} {S : γ → β → Prop} {f : Nat → α → γ}
    {l : List α} {l' : List β} (h : List.Forall₂ R l l') (hf : ∀ k a b, R a b → S (f k a) b) :
    List.Forall₂ S (l.mapIdx f) l' := by
  induction h generalizing f with
  | nil => exact .nil
  | cons hab _ ih =>
    rw [List.mapIdx_cons]
    exact .cons (hf 0 _ _ hab) (ih fun k => hf (k + 1))

theorem Filled.reads {start out : CaptureOutput} {closed : List (List Event)} {current events : List Event}
    (h : Filled start out closed current) (hfirst : (closed ++ [current]).flatten <+: events)
    (hkernel : ∀ e ∈ events, FromKernel e) (hsettled : Trace.Each Settled events)
    {group : List Event} (hgroup : group ∈ closed ++ [current]) :
    ∃ back, ReadWhole (fileOf group) back ∧ List.Forall₂ ReadAs group back := by
  have hwritten : ∃ w, Writer.new.writeAll group = .ok w := by
    rcases List.mem_append.mp hgroup with hg | hg
    · exact h.written group hg
    · exact ⟨_, List.mem_singleton.mp hg ▸ h.writer⟩
  obtain ⟨w, hw⟩ := hwritten
  obtain ⟨tail, rfl⟩ := hfirst
  have hmem : ∀ e ∈ group, FromKernel e := fun e he =>
    hkernel e (List.mem_append_left _ (List.mem_flatten.mpr ⟨group, hgroup, he⟩))
  obtain ⟨earlier, later, hsplit⟩ := List.append_of_mem hgroup
  rw [hsplit, List.flatten_append, List.flatten_cons, List.append_assoc, List.append_assoc] at hsettled
  exact reads_part hmem (Trace.each_append.mp (Trace.each_append.mp hsettled).2).1 hw

/-- **A rotated capture is read back.** A run that wants every event divides a
capture without losses into files, and each of them is read to its end. One
after the other they hold one event for each of the first calls of `emit`, in
order, and of all calls unless the run reached a limit. -/
theorem rotated_capture_read_back {args : Options} {disk : Disk} {base : String}
    {size seconds : Option UInt64} {maxFiles : Option UInt32} {out : CaptureOutput}
    (hnew : CaptureOutput.new disk base size seconds maxFiles = .ok out)
    (hall : ∀ e latency, args.chosen e latency = .ok true) {faults : List Bool}
    {steps : List (Scene × Hook)} {live : Report (Consumer × List Event)}
    (h : Captured faults steps args.consumeEvent (.start (some out)) live)
    (haddr : ∀ x ∈ steps, x.1.Addressed) (hsteady : Steady steps)
    (hreplaces : Trace.Guarded Tracker.step Replaces (Tracker.fresh faults) steps)
    (hlosses : live.losses = 0) :
    ∃ (final : CaptureOutput) (files : Disk) (read : List (List Event)) (calls : List Call),
      live.consumer.1.output = some final ∧ final.files = out.disk ++ files ∧
      List.Forall₂ (fun file events => ReadWhole file.2 events) files read ∧
      calls <+: callsOf ((Tracker.fresh faults).run steps).2 ∧
      (¬ Limited args live.consumer.1 → calls = callsOf ((Tracker.fresh faults).run steps).2) ∧
      List.Forall₂ (fun call e' => ∃ e, call.image = some e ∧ ReadAs e e') calls read.flatten := by
  obtain ⟨-, himages, stops, hrun⟩ := h.lossless haddr hlosses
  have hsettled := h.settled haddr hsteady hreplaces hlosses
  have hkernel := h.fromKernel
  have hstart : Stands out (Consumer.start (some out)) [[]] none :=
    ⟨⟨out, [], [], rfl, filled_new hnew, rfl, by simp⟩, rfl⟩
  obtain ⟨groups, refused, hstands, hwrites⟩ := hstart.run hrun
  obtain ⟨hfirst, hwhole⟩ := hstands.first hall hrun (by simpa using hwrites)
  obtain ⟨final, closed, current, hout, hfilled, rfl, -⟩ := hstands.filled
  generalize live.consumer.2 = events at himages hsettled hkernel hfirst hwhole
  obtain ⟨read, hread⟩ := exists_forall₂ fun group hgroup =>
    hfilled.reads hfirst hkernel hsettled hgroup
  obtain ⟨calls, hcalls, hleading⟩ : ∃ calls, List.Forall₂ (fun c e => c.image = some e) calls
      (closed ++ [current]).flatten ∧ calls <+: callsOf ((Tracker.fresh faults).run steps).2 := by
    rw [List.prefix_iff_eq_take] at hfirst
    rw [hfirst]
    exact ⟨_, List.forall₂_take _ himages, List.take_prefix _ _⟩
  refine ⟨final, _, read, calls, hout, hfilled.files, ?_, hleading, fun hlimit => ?_, ?_⟩
  · exact forall₂_mapIdx hread fun _ _ _ h => h.1
  · refine hleading.eq_of_length ?_
    rw [hcalls.length_eq, hwhole hlimit, himages.length_eq]
  · exact forall₂_images hcalls (List.rel_flatten (hread.imp fun _ _ h => h.2))

/-- Files of one byte: the submission is in the first, the completion in the second. -/
theorem rotated_capture_read_back_bulk : ∃ (live : Report (Consumer × List Event))
    (final : CaptureOutput) (files : Disk) (read : List (List Event)),
    live.consumer.1.output = some final ∧ final.files = files ∧
      List.Forall₂ (fun file events => ReadWhole file.2 events) files read ∧
      read.flatten.length = 2 := by
  obtain ⟨out, hnew⟩ : ∃ out, CaptureOutput.new [] "out" (some 1) none none = .ok out := ⟨_, rfl⟩
  have hrun : (Machine.run everything.consumeEvent (.start (some out))
      ((callsOf ((Tracker.fresh []).run bulkSteps).2).filterMap Call.image)).toOption.any
        (fun res => !res.1.outputFull) = true := by
    cases hnew
    decide +kernel
  obtain ⟨res, hres, hfull⟩ := (Option.any_eq_true _ _).mp hrun
  have hok := Result.eq_ok_of_toOption hres
  obtain ⟨live, hlive, hlosses⟩ := captured_of_run bulkSteps_addressed
    (Prod.eta ((Tracker.fresh []).run bulkSteps)).symm (by decide +kernel) (by decide +kernel)
    (by decide +kernel) (by decide +kernel) fun events himages => ⟨res, images_eq himages ▸ hok⟩
  obtain ⟨-, himages, stops, hrun'⟩ := hlive.lossless bulkSteps_addressed hlosses
  rw [images_eq himages, hok] at hrun'
  cases hrun'
  obtain ⟨final, files, read, calls, hout, hfiles, hread, -, hwhole, hall⟩ :=
    rotated_capture_read_back hnew (fun _ _ => rfl) hlive bulkSteps_addressed bulkSteps_steady
      bulkSteps_replaces hlosses
  refine ⟨live, final, files, read, hout, ?_, hread, ?_⟩
  · rw [hfiles]
    cases hnew
    rfl
  · rw [← hall.length_eq, hwhole ?_]
    · decide +kernel
    · rintro (hfull' | hcount)
      · rw [hfull'] at hfull
        cases hfull
      · cases hcount

end UsbScope.App
