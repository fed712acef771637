import UsbScope.App.Latency

/-! # What the ISO statistics describe

`consume_event` observes an event before it is written. The statistics are those
of the written events, except that an output that has used up its files refuses
an event that was observed already. -/
namespace UsbScope.App
open UsbScope.Lib UsbScope.Common UsbScope.Capture UsbScope.Pcapng

/-- The statistics of a list of events. -/
def observed (events : List Event) : IsoStats := events.foldl IsoStats.observe ∅

/-- A completed ISO transfer, the only kind that is observed. -/
def IsoCompletion (e : Event) : Prop :=
  e.metadata.transferType = 0 ∧ e.metadata.eventType = completeType

/-- The output has to rotate for the event and may not open another file. -/
def OutOfFiles (s : Consumer) (e : Event) : Prop :=
  ∃ out, s.output = some out ∧ out.rotates e.metadata.timestampNs = true ∧
    (out.maxFiles.any fun max => max.toNat ≤ out.fileIndex + 1) = true

/-- A completed ISO transfer that is selected, when the output is out of files. -/
structure Spoils (args : Options) (s : Consumer) (e : Event) : Prop where
  completion : IsoCompletion e
  room : s.outputFull = false
  wanted : Wanted args s e
  files : OutOfFiles s e

/-! ## Observations -/

theorem observe_of_not {stats : IsoStats} {e : Event} (h : ¬ IsoCompletion e) :
    stats.observe e = stats := by
  unfold IsoCompletion at h
  unfold IsoStats.observe
  rw [if_pos (by tauto)]

theorem lookup_observe {stats : IsoStats} {e : Event} (h : IsoCompletion e) (key : EndpointKey) :
    (stats.observe e).lookup key =
      if key = endpointKey e then some (((stats.lookup key).getD {}).urb e)
      else stats.lookup key := by
  unfold IsoStats.observe
  rw [if_neg (by simp [h.1, h.2])]
  by_cases hk : key = endpointKey e
  · rw [if_pos hk, hk, AList.lookup_insert]
  · rw [if_neg hk, AList.lookup_insert_ne hk]

theorem urbs_foldl_frame (iso : List IsoDescriptor) (x : Endpoint) :
    (iso.foldl Endpoint.frame x).urbs = x.urbs := by
  induction iso generalizing x with
  | nil => rfl
  | cons d rest ih => exact ih (x.frame d)

theorem urbs_urb (x : Endpoint) (e : Event) : (x.urb e).urbs = x.urbs + 1 := by
  unfold Endpoint.urb
  exact urbs_foldl_frame e.iso _

/-- An observation of a completed ISO transfer is seen. -/
theorem lookup_observe_ne {stats : IsoStats} {e : Event} (h : IsoCompletion e) :
    (stats.observe e).lookup (endpointKey e) ≠ stats.lookup (endpointKey e) := by
  rw [lookup_observe h, if_pos rfl]
  cases stats.lookup (endpointKey e) with
  | none => nofun
  | some x =>
    intro heq
    have hsame : x.urb e = x := Option.some.inj heq
    have hurbs := urbs_urb x e
    rw [hsame] at hurbs
    omega

/-- An observation reads and writes the counters of its own key. -/
theorem lookup_observe_congr {stats stats' : IsoStats} {key : EndpointKey} (e : Event)
    (h : stats.lookup key = stats'.lookup key) :
    (stats.observe e).lookup key = (stats'.observe e).lookup key := by
  by_cases hc : IsoCompletion e
  · rw [lookup_observe hc, lookup_observe hc, h]
  · rw [observe_of_not hc, observe_of_not hc, h]

theorem lookup_foldl_congr {stats stats' : IsoStats} {key : EndpointKey} (events : List Event)
    (h : stats.lookup key = stats'.lookup key) :
    (events.foldl IsoStats.observe stats).lookup key =
      (events.foldl IsoStats.observe stats').lookup key := by
  induction events generalizing stats stats' with
  | nil => exact h
  | cons e rest ih => exact ih (lookup_observe_congr e h)

/-- The statistics of a key are those of its own events. -/
theorem lookup_foldl_filter (events : List Event) (stats : IsoStats) (key : EndpointKey) :
    (events.foldl IsoStats.observe stats).lookup key =
      ((events.filter fun e => endpointKey e = key).foldl IsoStats.observe stats).lookup key := by
  induction events generalizing stats with
  | nil => rfl
  | cons e rest ih =>
    by_cases hk : endpointKey e = key
    · rw [List.filter_cons_of_pos (by simpa using hk)]
      exact ih _
    · have hother : (stats.observe e).lookup key = stats.lookup key := by
        by_cases hc : IsoCompletion e
        · rw [lookup_observe hc, if_neg (Ne.symm hk)]
        · rw [observe_of_not hc]
      rw [List.filter_cons_of_neg (by simpa using hk), List.foldl_cons]
      exact (lookup_foldl_congr rest hother).trans (ih stats)

/-! ## Runs -/

/-- An output refuses an event exactly when it is out of files. -/
theorem write_refused {out out' : CaptureOutput} {e : Event} {wrote : Bool}
    (h : out.write e = .ok (out', wrote)) :
    wrote = false ↔ out.rotates e.metadata.timestampNs = true ∧
      (out.maxFiles.any fun max => max.toNat ≤ out.fileIndex + 1) = true := by
  unfold CaptureOutput.write at h
  split at h
  · rename_i hrot
    obtain ⟨next, hnext, h⟩ := Result.bind_eq_ok.mp h
    unfold CaptureOutput.nextFile at hnext
    split at hnext
    · rename_i hmax
      cases hnext
      cases h
      exact ⟨fun _ => ⟨hrot, hmax⟩, fun _ => rfl⟩
    · rename_i hmax
      obtain ⟨_, -, hnext⟩ := Result.bind_eq_ok.mp hnext
      obtain ⟨writer, -, hnext⟩ := Result.bind_eq_ok.mp hnext
      cases hnext
      obtain ⟨next', -, h⟩ := Result.bind_eq_ok.mp h
      cases h
      exact ⟨(fun hwrote => by cases hwrote), fun hlimit => absurd hlimit.2 hmax⟩
  · rename_i hrot
    obtain ⟨next, -, h⟩ := Result.bind_eq_ok.mp h
    cases h
    exact ⟨(fun hwrote => by cases hwrote), fun hlimit => absurd hlimit.1 hrot⟩

/-- Somewhere in the run an event spoils the statistics. -/
def Spoiled (args : Options) (s : Consumer) (events : List Event) : Prop :=
  ∃ before e after mid stops, events = before ++ e :: after ∧
    Machine.run args.consumeEvent s before = .ok (mid, stops) ∧ Spoils args mid e

section
variable {args : Options} {s s' t : Consumer} {e : Event} {events : List Event} {stop : Bool}
  {stops : List Bool}

theorem spoiled_cons (h : args.consumeEvent s e = .ok (s', stop)) :
    Spoiled args s (e :: events) ↔ Spoils args s e ∨ Spoiled args s' events := by
  constructor
  · rintro ⟨before, x, after, mid, stops, heq, hrun, hspoils⟩
    cases before with
    | nil =>
      cases heq
      cases hrun
      exact .inl hspoils
    | cons y before =>
      cases heq
      obtain ⟨s₁, o, os, hstep, hrest, -⟩ := Machine.run_cons.mp hrun
      rw [h] at hstep
      cases hstep
      exact .inr ⟨before, x, after, mid, os, rfl, hrest, hspoils⟩
  · rintro (hspoils | ⟨before, x, after, mid, os, rfl, hrun, hspoils⟩)
    · exact ⟨[], e, events, s, [], rfl, rfl, hspoils⟩
    · exact ⟨e :: before, x, after, mid, stop :: os, rfl,
        Machine.run_cons.mpr ⟨s', stop, os, h, hrun, rfl⟩, hspoils⟩

/-- A full output is not spoiled any more. -/
theorem not_spoiled_full (hfull : s.outputFull = true) : ¬ Spoiled args s events := by
  rintro ⟨before, e, after, mid, stops, -, hrun, hspoils⟩
  obtain rfl := Limited.run (.inl hfull) hrun
  exact Bool.eq_false_iff.mp hspoils.room hfull

/-- The statistics after a run are those of the kept events, with one more
observation when the run was spoiled. -/
theorem run_observed (hon : args.isoStats = true)
    (hrun : Machine.run args.consumeEvent s events = .ok (t, stops)) :
    (¬ Spoiled args s events ∧
      t.isoStats = (kept args s events).foldl IsoStats.observe s.isoStats) ∨
    (Spoiled args s events ∧ ∃ e, IsoCompletion e ∧
      t.isoStats = ((kept args s events).foldl IsoStats.observe s.isoStats).observe e) := by
  induction events generalizing s stops with
  | nil =>
    cases hrun
    refine .inl ⟨?_, rfl⟩
    rintro ⟨before, e, after, mid, os, heq, -⟩
    simp at heq
  | cons e rest ih =>
    obtain ⟨s', o, os, hstep, hrest, -⟩ := Machine.run_cons.mp hrun
    -- the event does not spoil, and what is kept of it is what is observed
    have hgo : ¬ Spoils args s e → s'.isoStats =
          (((outcome s s' e).filter Prod.snd).map Prod.fst).foldl IsoStats.observe s.isoStats →
        (¬ Spoiled args s (e :: rest) ∧
          t.isoStats = (kept args s (e :: rest)).foldl IsoStats.observe s.isoStats) ∨
        (Spoiled args s (e :: rest) ∧ ∃ x, IsoCompletion x ∧
          t.isoStats = ((kept args s (e :: rest)).foldl IsoStats.observe s.isoStats).observe x) := by
      intro hno hstats
      rw [kept_cons hstep, List.foldl_append, ← hstats, spoiled_cons hstep, or_iff_right hno]
      exact ih hrest
    cases Options.consumeEvent_turn hstep with
    | ignored h =>
      refine hgo (fun hs => ?_) ?_
      · rcases h with hfull | hcount
        · exact Bool.eq_false_iff.mp hs.room hfull
        · exact Bool.eq_false_iff.mp hs.wanted.count hcount
      · rw [outcome_same rfl rfl]
        rfl
    | @skipped latency submissions hlatency hchosen =>
      refine hgo (fun hs => nomatch hs.wanted.verdict hlatency hchosen) ?_
      have hsame : outcome s { s with submissions } e = [] := outcome_same rfl rfl
      rw [hsame]
      rfl
    | @printed submissions hoffered hout =>
      refine hgo (fun hs => ?_) ?_
      · obtain ⟨out, hsome, -⟩ := hs.files
        rw [hout] at hsome
        cases hsome
      · rw [outcome_written rfl]
        exact if_pos hon
    | @wrote submissions out out' hoffered hout hwrite =>
      refine hgo (fun hs => ?_) ?_
      · obtain ⟨out₁, hsome, hfiles⟩ := hs.files
        rw [hout] at hsome
        cases hsome
        cases (write_refused hwrite).mpr hfiles
      · rw [outcome_written rfl]
        exact if_pos hon
    | @refused submissions out out' hoffered hout hwrite =>
      obtain rfl := Limited.run (.inl rfl) hrest
      have hempty : kept args s (e :: rest) = [] := by
        unfold kept
        have hone : outcome s { args.noted s submissions e with
            output := some out', outputFull := true } e = [(e, false)] :=
          outcome_refused rfl hoffered.room rfl
        rw [writes_cons hstep, (writes_full rfl hrest).1, hone]
        rfl
      have hstats : (args.noted s submissions e).isoStats = s.isoStats.observe e := if_pos hon
      rw [hempty, spoiled_cons hstep, or_iff_left (not_spoiled_full rfl)]
      by_cases hc : IsoCompletion e
      · refine .inr ⟨⟨hc, hoffered.room, ⟨hoffered.count, ?_⟩, out, hout, (write_refused hwrite).mp rfl⟩,
          e, hc, hstats⟩
        obtain ⟨latency, hlatency, hchosen⟩ := hoffered.chosen
        exact ⟨latency, submissions, hlatency, hchosen⟩
      · exact .inl ⟨fun hs => hc hs.completion, hstats.trans (observe_of_not hc)⟩

/-- The statistics describe the events that were written or printed, key by key,
exactly when no completed ISO transfer is refused for want of files. -/
theorem iso_stats_iff {output : Option CaptureOutput} (hon : args.isoStats = true)
    (hrun : Machine.run args.consumeEvent (.start output) events = .ok (t, stops)) :
    ((∀ key, t.isoStats.lookup key = (observed (kept args (.start output) events)).lookup key) ∧
      ∀ key, (observed (kept args (.start output) events)).lookup key =
        (observed ((kept args (.start output) events).filter
          fun e => endpointKey e = key)).lookup key) ↔
      ¬ Spoiled args (.start output) events := by
  rcases run_observed hon hrun with ⟨hno, hstats⟩ | ⟨hspoiled, e, hc, hstats⟩
  · exact ⟨fun _ => hno, fun _ => ⟨fun key => by rw [hstats]; rfl,
      fun key => lookup_foldl_filter _ _ key⟩⟩
  · refine ⟨fun h => ?_, fun h => absurd hspoiled h⟩
    have hkey := h.1 (endpointKey e)
    rw [hstats] at hkey
    exact absurd hkey (lookup_observe_ne hc)

end

/-- A completed ISO IN transfer of one empty frame. -/
def isoDone (ns : UInt64) : Event :=
  ⟨0, { EventMeta.zero with
    timestampNs := ns
    eventType := completeType
    bus := 1
    device := 2
    endpoint := 0x81
    isoCount := 1 }, [⟨0, 0, 0, 0⟩], [], true, true⟩

def everythingCounted : Options := { everything with isoStats := true }

/-- A run that prints its events. -/
theorem iso_stats_iff_printed : ∃ t stops,
    Machine.run everythingCounted.consumeEvent (.start none) [isoDone 0, isoDone 2000000000] =
      .ok (t, stops) ∧
    (∀ key, t.isoStats.lookup key =
      (observed (kept everythingCounted (.start none) [isoDone 0, isoDone 2000000000])).lookup key) ∧
    ¬ Spoiled everythingCounted (.start none) [isoDone 0, isoDone 2000000000] := by
  refine ⟨_, _, rfl, fun key => rfl, ?_⟩
  refine (@iso_stats_iff everythingCounted _ [isoDone 0, isoDone 2000000000] _ none rfl rfl).mp ?_
  exact ⟨fun key => rfl, fun key => lookup_foldl_filter _ _ key⟩

set_option maxRecDepth 4000 in
/-- Files of one second, at most two: the third transfer is counted and not written. -/
theorem iso_stats_refused : ∃ out t stops,
    CaptureOutput.new [] "out" none (some 1) (some 2) = .ok out ∧
    Machine.run everythingCounted.consumeEvent (.start (some out))
      [isoDone 0, isoDone 2000000000, isoDone 5000000000] = .ok (t, stops) ∧
    kept everythingCounted (.start (some out))
      [isoDone 0, isoDone 2000000000, isoDone 5000000000] = [isoDone 0, isoDone 2000000000] ∧
    ((t.isoStats.lookup (0, 1, 2, 0x81)).map Endpoint.urbs = some 3) ∧
    ((observed (kept everythingCounted (.start (some out))
        [isoDone 0, isoDone 2000000000, isoDone 5000000000])).lookup (0, 1, 2, 0x81)).map
      Endpoint.urbs = some 2 ∧
    ¬ ∀ key, t.isoStats.lookup key = (observed (kept everythingCounted (.start (some out))
      [isoDone 0, isoDone 2000000000, isoDone 5000000000])).lookup key := by
  refine ⟨_, _, _, rfl, rfl, rfl, rfl, rfl, fun h => ?_⟩
  have hurbs := congrArg (Option.map Endpoint.urbs) (h (0, 1, 2, 0x81))
  cases hurbs

end UsbScope.App
