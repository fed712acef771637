import UsbScope.App.Latency
import UsbScope.App.Truncation

/-! # Limits

A run ends early when the requested number of events or of files is reached. A
live run then drains what is left in the ring, a run over a file stops reading;
the output is the same. -/
namespace UsbScope.App
open UsbScope.Lib UsbScope.Lib.Stream UsbScope.Common UsbScope.Capture UsbScope.Pcapng

variable {args : Options} {s s' t : Consumer} {e : Event} {events : List Event} {stop : Bool}
  {stops : List Bool}

/-- `consume_event` wants to stop exactly when a limit is reached. -/
theorem Options.stop_iff (h : args.consumeEvent s e = .ok (s', stop)) :
    stop = true ↔ Limited args s' := by
  by_cases hs : Limited args s
  · rw [hs.enough e] at h
    cases h
    exact iff_of_true rfl hs
  · cases Options.consumeEvent_turn h with
    | ignored hlimit => exact absurd hlimit hs
    | skipped hlatency hchosen => exact iff_of_false Bool.false_ne_true hs
    | printed h hout => exact Bool.or_eq_true_iff
    | wrote h hout hwrite => exact Bool.or_eq_true_iff
    | refused h hout hwrite => exact iff_of_true rfl (.inl rfl)

theorem Options.sticky : Sticky args.consumeEvent :=
  fun _ _ _ h => Limited.enough ((Options.stop_iff h).mp rfl)

/-- A run that ends with a limit reached was told to stop. -/
theorem stopped_of_limited (hs : ¬ Limited args s)
    (hrun : Machine.run args.consumeEvent s events = .ok (t, stops)) (ht : Limited args t) :
    true ∈ stops := by
  induction events generalizing s stops with
  | nil =>
    cases hrun
    exact absurd ht hs
  | cons e rest ih =>
    obtain ⟨s', o, os, hstep, hrest, rfl⟩ := Machine.run_cons.mp hrun
    cases o with
    | true => exact List.mem_cons_self
    | false =>
      have hs' : ¬ Limited args s' := by
        rw [← Options.stop_iff hstep]
        exact Bool.false_ne_true
      exact List.mem_cons_of_mem _ (ih hs' hrest)

theorem not_limited_start {output : Option CaptureOutput} (hcount : args.count ≠ some 0) :
    ¬ Limited args (Consumer.start output) := by
  intro h
  rcases h with hfull | hreached
  · cases hfull
  · rw [Options.countReached] at hreached
    cases hlimit : args.count with
    | none =>
      rw [hlimit] at hreached
      cases hreached
    | some limit =>
      rw [hlimit, Option.any_some, decide_eq_true_eq] at hreached
      have hzero : limit = 0 := UInt64.toNat_inj.mp (Nat.le_zero.mp hreached)
      exact hcount (hlimit.trans (congrArg some hzero))

/-! ## Replay of a limited capture -/

/-- **Replaying a limited capture.** A run over the archive of a live run, with
the same arguments, leaves the same output and statistics, whatever limit ended
either. If a limit was reached, it does not matter what the file holds behind
the archive. -/
theorem limited_capture_replays {output : Option CaptureOutput} {rawOutput : Bool} {rounds : List Round}
    {last : List Bytes} {cpus : List CaptureStats} {live : Report Consumer}
    (hcount : args.count ≠ some 0)
    (hlive : runLive args.consumeEvent (Consumer.start output) rawOutput rounds last cpus =
      .ok (some live))
    (hcounters : ∀ m ∈ lossCounters (totalStats cpus), m < 2 ^ 64) {tail : Bytes}
    (htail : tail = [] ∨ Limited args live.consumer) (raw : Bool) :
    ∃ replayed, offline args.consumeEvent (Consumer.start output) raw
        (archiveOf rounds last cpus ++ tail) = .ok replayed ∧
      replayed.consumer = live.consumer := by
  obtain ⟨final, evs, stops, hrun, hsized, hconsumer, -⟩ := runLive_eq_ok hlive
  obtain ⟨final', hrun'⟩ := run_summary hrun hcounters
  have hall := @sized_summary _ (totalStats cpus) hsized
  rw [archiveOf_items, List.append_assoc, offline_archive]
  generalize recordsOf rounds last ++ [kernelSummary (totalStats cpus)] = records at hrun' hall ⊢
  -- what the session makes of the records is what the consumer makes of the events
  have hplays : Plays (Session.consume args.consumeEvent) args.consumeEvent Session.consumer
      (Session.start raw (Consumer.start output)) ((records.map recordItem).map Item.out)
      evs.reduceOption := by
    have hevs : (evs ++ [none]).reduceOption = evs.reduceOption := by
      rw [List.reduceOption_append, List.reduceOption_cons_of_none, List.reduceOption_nil,
        List.append_nil]
    rw [List.map_map, ← hevs]
    exact (List.map_id _).symm ▸ plays_records (s := Session.start raw (Consumer.start output)) hrun'
  obtain ⟨htaken, hending⟩ := hplays.offer (s := ()) .ended
  rw [Fed.andThen_ended, handed_ended, show (Session.start raw (Consumer.start output)).consumer =
    Consumer.start output from rfl, hand_of_run Options.sticky hconsumer] at htaken hending
  -- a limit that is reached hides the tail
  have hfeed : feed nextRecord (Session.consume args.consumeEvent)
      ((bytesOf (records.map recordItem) ++ tail).length + 1) ()
      (bytesOf (records.map recordItem) ++ tail) (Session.start raw (Consumer.start output)) =
        offer (Session.consume args.consumeEvent) () (records.map recordItem)
          (Session.start raw (Consumer.start output)) := by
    have hchops := chops_records hall
    have hlen := hchops.length_le
    by_cases hstop : true ∈ stops
    · refine feed_stopped hchops ?_ tail _ ?_
      · rw [List.length_append]
        omega
      · rw [hending, if_pos hstop]
        simp
    · obtain rfl : tail = [] := htail.resolve_right fun hlimited =>
        hstop (stopped_of_limited (not_limited_start hcount) hconsumer hlimited)
      rw [List.append_nil]
      exact feed_whole local_records hchops (Nat.lt_succ_of_le hlen) _
  rw [replay_fed, replayed, readRawHeader_magic, Result.ok_bind, Result.ok_bind, hfeed, hending]
  split
  · exact ⟨_, rfl, htaken⟩
  · exact ⟨_, rfl, htaken⟩

/-- Limited to one event. -/
def one : Options := { everything with count := some 1 }

/-- The records of two events in a single round. -/
def twoEventsRound : Round :=
  { items := Reassembler.bulkOutRecords ++ [Reassembler.bulkOutEnd,
      record recordBegin 12 0 Reassembler.bulkOut.wire, record recordData 12 0 [4, 5, 6],
      record recordEnd 12 0 (EventEnd.wire ⟨3, 0, complete⟩)]
    bounded := by decide
    interrupted := true
    expired := true }

/-- The live run drains an event behind the limit; its archive is followed by garbage. -/
theorem limited_capture_replays_one : ∃ (live : Report Consumer) (replayed : Report Consumer),
    runLive one.consumeEvent (Consumer.start none) true [twoEventsRound] [] [twoLosses] =
        .ok (some live) ∧
      live.stats.complete = 2 ∧ live.consumer.written = 1 ∧
      offline one.consumeEvent (Consumer.start none) false
        (archiveOf [twoEventsRound] [] [twoLosses] ++ [1, 2, 3]) = .ok replayed ∧
      replayed.consumer = live.consumer := by
  obtain ⟨replayed, hreplayed, hsame⟩ := @limited_capture_replays one none true [twoEventsRound] []
    [twoLosses] _ (by decide) rfl (by decide) [1, 2, 3] (.inr (.inr rfl)) false
  exact ⟨_, replayed, rfl, rfl, rfl, hreplayed, hsame⟩

end UsbScope.App
