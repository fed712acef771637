import UsbScope.App.Run
import UsbScope.Capture.Accounting

/-! # Replay of a live capture

A live run is a run of the session over its trimmed records, in order; so is
the replay of the archive it wrote, with one more record for the counters. The
session in turn is a run of the reassembler whose events go to the consumer. -/
namespace UsbScope.App
open UsbScope.Lib UsbScope.Common UsbScope.Capture UsbScope.Pcapng

variable {σ S : Type}

/-! ## Live runs -/

theorem trim_eq_ok {item bytes : Bytes} (h : trim item = .ok bytes) :
    bytes = trimmed item ∧ (u32At bytes 4).toNat = bytes.length := by
  unfold trim at h
  obtain ⟨hlong, h⟩ := ensure_bind_eq_ok.mp h
  obtain ⟨hsize, h⟩ := ensure_bind_eq_ok.mp h
  cases h
  refine ⟨rfl, ?_⟩
  rw [trimmed, u32At, u32_take _ (by omega), List.length_take, min_eq_left hsize.2]
  rfl

/-- The items as the loop hands them on, with lengths that fit their headers. -/
def Trims (items : List Bytes) : Prop :=
  ∀ r ∈ items.map trimmed, (u32At r 4).toNat = r.length

theorem Trims.append {items more : List Bytes} (h : Trims items) (h' : Trims more) :
    Trims (items ++ more) := by
  intro r hr
  rw [List.map_append] at hr
  rcases List.mem_append.mp hr with hr | hr
  · exact h r hr
  · exact h' r hr

section

variable {record : S → Bytes → Result (S × Bool)} {s s' : S}

theorem drain_run {items : List Bytes} {reached : Bool}
    (h : drain record s items = .ok (s', reached)) :
    Trims items ∧ ∃ flags, Machine.run record s (items.map trimmed) = .ok (s', flags) := by
  induction items generalizing s reached with
  | nil =>
    cases h
    exact ⟨by simp [Trims], [], rfl⟩
  | cons item rest ih =>
    obtain ⟨bytes, hbytes, h⟩ := Result.bind_eq_ok.mp h
    obtain ⟨⟨s₁, first⟩, hfirst, h⟩ := Result.bind_eq_ok.mp h
    obtain ⟨⟨s₂, later⟩, hlater, h⟩ := Result.bind_eq_ok.mp h
    cases h
    obtain ⟨rfl, hlen⟩ := trim_eq_ok hbytes
    obtain ⟨htrims, flags, hrun⟩ := ih hlater
    refine ⟨?_, _, Machine.run_cons.mpr ⟨s₁, first, flags, hfirst, hrun, rfl⟩⟩
    intro r hr
    rcases List.mem_cons.mp hr with rfl | hr
    · exact hlen
    · exact htrims r hr

theorem captureLoop_run {rounds : List Round} {countReached stopping : Bool}
    (h : captureLoop record rounds countReached stopping s = .ok (some s')) :
    Trims (rounds.flatMap Round.items) ∧ ∃ flags,
      Machine.run record s ((rounds.flatMap Round.items).map trimmed) = .ok (s', flags) := by
  induction rounds generalizing s countReached stopping with
  | nil => cases h
  | cons round rest ih =>
    obtain ⟨⟨s₁, reached⟩, hdrain, h⟩ := Result.bind_eq_ok.mp h
    obtain ⟨htrims, flags, hrun⟩ := drain_run hdrain
    dsimp only at h
    split at h
    · -- the loop ends here, so there is no further round
      cases rest with
      | nil =>
        cases h
        rw [List.flatMap_singleton]
        exact ⟨htrims, flags, hrun⟩
      | cons next rest => cases h
    · obtain ⟨htrims', flags', hrun'⟩ := ih h
      rw [List.flatMap_cons, List.map_append]
      exact ⟨htrims.append htrims', _, Machine.run_append.mpr ⟨s₁, flags, flags', hrun, hrun', rfl⟩⟩

/-- All items of a live run, in order. -/
def itemsOf (rounds : List Round) (last : List Bytes) : List Bytes :=
  rounds.flatMap Round.items ++ last

theorem capture_run {rounds : List Round} {last : List Bytes} {cpus : List CaptureStats}
    {total : CaptureStats} (h : capture record rounds last cpus s = .ok (some (s', total))) :
    total = totalStats cpus ∧ Trims (itemsOf rounds last) ∧ ∃ flags,
      Machine.run record s ((itemsOf rounds last).map trimmed) = .ok (s', flags) := by
  obtain ⟨ended, hloop, h⟩ := Result.bind_eq_ok.mp h
  cases ended with
  | none => cases h
  | some s₁ =>
    obtain ⟨⟨s₂, reached⟩, hdrain, h⟩ := Result.bind_eq_ok.mp h
    cases h
    obtain ⟨htrims, flags, hrun⟩ := captureLoop_run hloop
    obtain ⟨htrims', flags', hrun'⟩ := drain_run hdrain
    rw [itemsOf, List.map_append]
    exact ⟨rfl, htrims.append htrims', _,
      Machine.run_append.mpr ⟨s₁, flags, flags', hrun, hrun', rfl⟩⟩

end

/-! ## Records and events -/

/-- A record that is pushed without error has the size of a record. -/
theorem sized_of_step {self next : Reassembler} {r : Bytes} {event : Option Event}
    (h : self.step r = .ok (next, event)) (hlen : (u32At r 4).toNat = r.length) : Sized r := by
  rw [Reassembler.step, Reassembler.push] at h
  cases hparse : Record.parse r with
  | error e =>
    rw [hparse] at h
    cases h
  | ok record =>
    unfold Record.parse at hparse
    obtain ⟨_, hparse⟩ := ensure_bind_eq_ok.mp hparse
    obtain ⟨_, hparse⟩ := ensure_bind_eq_ok.mp hparse
    obtain ⟨hsize, _⟩ := ensure_bind_eq_ok.mp hparse
    rw [hlen] at hsize
    exact ⟨hsize.1.1, hsize.1.2, hlen⟩

theorem sized_of_run {self next : Reassembler} {records : List Bytes} {events : List (Option Event)}
    (h : self.run records = .ok (next, events)) (hlen : ∀ r ∈ records, (u32At r 4).toNat = r.length) :
    ∀ r ∈ records, Sized r := by
  induction records generalizing self events with
  | nil => simp
  | cons r rest ih =>
    obtain ⟨mid, event, events', hstep, hrest, rfl⟩ := Machine.run_cons.mp h
    intro x hx
    rcases List.mem_cons.mp hx with rfl | hx
    · exact sized_of_step hstep (hlen _ List.mem_cons_self)
    · exact ih hrest (fun y hy => hlen y (List.mem_cons_of_mem _ hy)) x hx

section

variable {consumeEvent : σ → Event → Result (σ × Bool)}

theorem consume_none {s : Session σ} {r : Bytes} {next : Reassembler}
    (h : s.assembler.step r = .ok (next, none)) : s.consume consumeEvent r =
      .ok (⟨s.raw.map (· ++ archived r), next, s.consumer⟩, false) := by
  rw [Session.consume, h]
  rfl

theorem consume_some {s : Session σ} {r : Bytes} {next : Reassembler} {e : Event}
    (h : s.assembler.step r = .ok (next, some e)) : s.consume consumeEvent r =
      (consumeEvent s.consumer e).map fun t => (⟨s.raw.map (· ++ archived r), next, t.1⟩, t.2) := by
  rw [Session.consume, h]
  cases hevent : consumeEvent s.consumer e with
  | error message =>
    simp only [Result.ok_bind, hevent]
    rfl
  | ok t =>
    simp only [Result.ok_bind, hevent]
    rfl

/-- A run of the session is a run of the reassembler, and one of the consumer
over its events. -/
theorem consume_run {s s' : Session σ} {records : List Bytes} {flags : List Bool}
    (h : Machine.run (Session.consume consumeEvent) s records = .ok (s', flags)) :
    ∃ events stops, s.assembler.run records = .ok (s'.assembler, events) ∧
      Machine.run consumeEvent s.consumer events.reduceOption = .ok (s'.consumer, stops) ∧
      s'.raw = s.raw.map (· ++ records.flatMap archived) := by
  induction records generalizing s flags with
  | nil =>
    cases h
    exact ⟨[], [], rfl, rfl, by simp⟩
  | cons r rest ih =>
    obtain ⟨mid, stop, flags', hstep, hrest, rfl⟩ := Machine.run_cons.mp h
    obtain ⟨events, stops, hassembler, hconsumer, hraw⟩ := ih hrest
    obtain ⟨⟨assembler, event⟩, hpush, hstep⟩ := Result.bind_eq_ok.mp hstep
    have hflat : ∀ raw : Option Bytes, (raw.map (· ++ archived r)).map (· ++ rest.flatMap archived) =
        raw.map (· ++ (r :: rest).flatMap archived) := by
      intro raw
      simp [Function.comp_def]
    cases event with
    | none =>
      cases hstep
      refine ⟨none :: events, stops, Machine.run_cons.mpr ⟨assembler, none, events, hpush, hassembler, rfl⟩,
        ?_, hraw.trans (hflat _)⟩
      rw [List.reduceOption_cons_of_none]
      exact hconsumer
    | some e =>
      obtain ⟨⟨consumer, stop'⟩, hevent, hstep⟩ := Result.bind_eq_ok.mp hstep
      cases hstep
      refine ⟨some e :: events, stop :: stops,
        Machine.run_cons.mpr ⟨assembler, some e, events, hpush, hassembler, rfl⟩, ?_,
        hraw.trans (hflat _)⟩
      rw [List.reduceOption_cons_of_some]
      exact Machine.run_cons.mpr ⟨consumer, stop, stops, hevent, hconsumer, rfl⟩

/-- While the consumer does not stop, replay is the run of the reassembler over
the archived records, and fails exactly where the consumer does. -/
theorem replayLoop_archived {U : σ → Prop}
    (hU : ∀ t e t' stop, U t → consumeEvent t e = .ok (t', stop) → stop = false ∧ U t')
    {records : List Bytes} (hsized : ∀ r ∈ records, Sized r) {s : Session σ} (hs : U s.consumer)
    {next : Reassembler} {events : List (Option Event)}
    (hrun : s.assembler.run records = .ok (next, events)) {fuel : Nat} (hfuel : records.length < fuel) :
    replayLoop (Session.consume consumeEvent) fuel (records.flatMap archived) s =
      (Machine.run consumeEvent s.consumer events.reduceOption).map fun r =>
        ({ raw := s.raw.map (· ++ records.flatMap archived), assembler := next, consumer := r.1 },
          false) := by
  induction records generalizing s events fuel with
  | nil =>
    obtain ⟨fuel, rfl⟩ : ∃ n, fuel = n + 1 := ⟨fuel - 1, by simp at hfuel; omega⟩
    cases hrun
    simp only [List.flatMap_nil, List.append_nil, Option.map_id']
    rfl
  | cons r rest ih =>
    obtain ⟨fuel, rfl⟩ : ∃ n, fuel = n + 1 := ⟨fuel - 1, by omega⟩
    rw [List.length_cons, Nat.add_lt_add_iff_right] at hfuel
    obtain ⟨mid, event, events', hstep, hrest, rfl⟩ := Machine.run_cons.mp hrun
    have hsized' : ∀ x ∈ rest, Sized x := fun x hx => hsized x (List.mem_cons_of_mem _ hx)
    rw [List.flatMap_cons, replayLoop, readRecord_archived (hsized r List.mem_cons_self), Result.ok_bind]
    dsimp only
    have hflat : (s.raw.map (· ++ archived r)).map (· ++ rest.flatMap archived) =
        s.raw.map (· ++ (archived r ++ rest.flatMap archived)) := by simp [Function.comp_def]
    cases event with
    | none =>
      have hnext := ih hsized' (s := ⟨s.raw.map (· ++ archived r), mid, s.consumer⟩) hs hrest hfuel
      rw [hflat] at hnext
      rw [consume_none hstep, List.reduceOption_cons_of_none, Result.ok_bind]
      exact hnext
    | some e =>
      rw [consume_some hstep, List.reduceOption_cons_of_some, Machine.run]
      cases hevent : consumeEvent s.consumer e with
      | error message => rfl
      | ok res =>
        obtain ⟨t, stop⟩ := res
        obtain ⟨rfl, ht⟩ := hU _ _ _ _ hs hevent
        have hnext := ih hsized' (s := ⟨s.raw.map (· ++ archived r), mid, t⟩) ht hrest hfuel
        rw [hflat] at hnext
        refine hnext.trans ?_
        dsimp only
        cases Machine.run consumeEvent t events'.reduceOption with
        | error message => rfl
        | ok res => rfl

end

/-! ## Consumers -/

/-- No event count and no file count will stop the consumer. -/
structure Unlimited (args : Options) (s : Consumer) : Prop where
  count : args.count = none
  room : s.outputFull = false
  files : ∀ out ∈ s.output, out.maxFiles = none

theorem add_maxFiles {out out' : CaptureOutput} {e : Event} (h : out.add e = .ok out') :
    out'.maxFiles = out.maxFiles := by
  obtain ⟨writer, _, h⟩ := Result.bind_eq_ok.mp h
  cases h
  rfl

/-- Without a file limit every event is written. -/
theorem write_unlimited {out out' : CaptureOutput} {e : Event} {wrote : Bool}
    (h : out.maxFiles = none) (hwrite : out.write e = .ok (out', wrote)) :
    wrote = true ∧ out'.maxFiles = none := by
  unfold CaptureOutput.write at hwrite
  split at hwrite
  · obtain ⟨next, hnext, hwrite⟩ := Result.bind_eq_ok.mp hwrite
    rw [CaptureOutput.nextFile, if_neg (by simp [h])] at hnext
    obtain ⟨_, hnext⟩ := ensure_bind_eq_ok.mp hnext
    obtain ⟨writer, _, hnext⟩ := Result.bind_eq_ok.mp hnext
    cases hnext
    obtain ⟨added, hadded, hwrite⟩ := Result.bind_eq_ok.mp hwrite
    cases hwrite
    exact ⟨rfl, (add_maxFiles hadded).trans h⟩
  · obtain ⟨added, hadded, hwrite⟩ := Result.bind_eq_ok.mp hwrite
    cases hwrite
    exact ⟨rfl, (add_maxFiles hadded).trans h⟩

theorem Unlimited.consumeEvent {args : Options} {s s' : Consumer} {e : Event} {stop : Bool}
    (h : Unlimited args s) (hstep : args.consumeEvent s e = .ok (s', stop)) :
    stop = false ∧ Unlimited args s' := by
  have hcount : ∀ n, args.countReached n = false := by
    intro n
    rw [Options.countReached, h.count]
    rfl
  cases Options.consumeEvent_turn hstep with
  | ignored hlimit =>
    rw [h.room, hcount] at hlimit
    simp at hlimit
  | skipped => exact ⟨rfl, h.count, h.room, h.files⟩
  | printed hoffered hnone =>
    refine ⟨?_, h.count, h.room, h.files⟩
    rw [Options.counted, hcount]
    exact Bool.or_eq_false_iff.mpr ⟨h.room, rfl⟩
  | wrote hoffered hout hwrite =>
    refine ⟨?_, h.count, h.room, ?_⟩
    · rw [Options.counted, hcount]
      exact Bool.or_eq_false_iff.mpr ⟨h.room, rfl⟩
    · intro out hmem
      cases hmem
      exact (write_unlimited (h.files _ hout) hwrite).2
  | refused hoffered hout hwrite => cases (write_unlimited (h.files _ hout) hwrite).1

/-- A consumer that also keeps the events it was given. -/
def logged (consumeEvent : σ → Event → Result (σ × Bool)) (s : σ × List Event) (e : Event) :
    Result ((σ × List Event) × Bool) := do
  let (t, stop) ← consumeEvent s.1 e
  .ok ((t, s.2 ++ [e]), stop)

theorem logged_eq_ok {consumeEvent : σ → Event → Result (σ × Bool)} {s s' : σ × List Event} {e : Event}
    {stop : Bool} (h : logged consumeEvent s e = .ok (s', stop)) :
    consumeEvent s.1 e = .ok (s'.1, stop) ∧ s'.2 = s.2 ++ [e] := by
  obtain ⟨⟨t, stop'⟩, hevent, h⟩ := Result.bind_eq_ok.mp h
  cases h
  exact ⟨hevent, rfl⟩

theorem run_logged {consumeEvent : σ → Event → Result (σ × Bool)} {s s' : σ × List Event}
    {events : List Event} {stops : List Bool}
    (h : Machine.run (logged consumeEvent) s events = .ok (s', stops)) : s'.2 = s.2 ++ events := by
  induction events generalizing s stops with
  | nil =>
    cases h
    simp
  | cons e rest ih =>
    obtain ⟨t, stop, stops', hstep, hrest, rfl⟩ := Machine.run_cons.mp h
    rw [ih hrest, (logged_eq_ok hstep).2, List.append_assoc]
    rfl

/-! ## The archive of a live run -/

/-- The records of a live run, in order. -/
def recordsOf (rounds : List Round) (last : List Bytes) : List Bytes :=
  (itemsOf rounds last).map trimmed

/-- The archive of a live run. -/
def archiveOf (rounds : List Round) (last : List Bytes) (cpus : List CaptureStats) : Bytes :=
  rawMagic ++ ((recordsOf rounds last).flatMap archived ++ writeKernelSummary (totalStats cpus))

/-- The losses that a live run counts in userspace and in the kernel. -/
def lossSum (stats : ReassemblyStats) (counters : CaptureStats) : Nat :=
  stats.incomplete + stats.orphanRecords + stats.kernelLosses + (lossCounters counters).sum

/-- Both ways to compute the losses give their sum. -/
theorem lossTotal_summary {stats : ReassemblyStats} {counters : CaptureStats}
    (h : lossSum stats counters < 2 ^ 64) :
    lossTotal { stats with kernelLosses :=
        (lossCounters counters).foldl saturatingAdd stats.kernelLosses } none =
      lossTotal stats (some counters) := by
  unfold lossSum at h
  have hkernel : (lossCounters counters).foldl saturatingAdd stats.kernelLosses =
      stats.kernelLosses + (lossCounters counters).sum := by
    have hfold := foldl_saturatingAdd (lossCounters counters) stats.kernelLosses
    rw [min_eq_left (by unfold u64Max; omega), min_eq_left (by unfold u64Max; omega)] at hfold
    exact hfold
  rw [lossTotal, lossTotal, hkernel]
  dsimp only
  unfold saturatingAdd u64Max
  omega

theorem length_le_archived (records : List Bytes) :
    records.length ≤ (records.flatMap archived).length := by
  induction records with
  | nil => simp
  | cons r rest ih =>
    rw [List.flatMap_cons, List.length_append, List.length_cons, archived, List.length_append,
      ByteOrder.length_bytes]
    omega

/-- What a live run is: its records through the reassembler, its events through
the consumer. -/
theorem runLive_eq_ok {consumeEvent : σ → Event → Result (σ × Bool)} {consumer : σ} {rawOutput : Bool}
    {rounds : List Round} {last : List Bytes} {cpus : List CaptureStats} {live : Report σ}
    (h : runLive consumeEvent consumer rawOutput rounds last cpus = .ok (some live)) :
    ∃ final events stops,
      Reassembler.fresh.run (recordsOf rounds last) = .ok (final, events) ∧
      (∀ r ∈ recordsOf rounds last, Sized r) ∧
      Machine.run consumeEvent consumer events.reduceOption = .ok (live.consumer, stops) ∧
      live.raw = (if rawOutput then some (archiveOf rounds last cpus) else none) ∧
      live.stats = final.finish.stats ∧
      live.losses = lossTotal final.finish.stats (some (totalStats cpus)) := by
  obtain ⟨captured, hcapture, h⟩ := Result.bind_eq_ok.mp h
  cases captured with
  | none => cases h
  | some captured =>
    obtain ⟨s, total⟩ := captured
    cases h
    obtain ⟨rfl, htrims, flags, hrun⟩ := capture_run hcapture
    obtain ⟨events, stops, hassembler, hconsumer, hraw⟩ := consume_run hrun
    refine ⟨s.assembler, events, stops, hassembler, sized_of_run hassembler htrims, hconsumer, ?_, rfl,
      rfl⟩
    rw [Session.report, hraw]
    cases rawOutput with
    | false => rfl
    | true => simp [Session.start, archiveOf, recordsOf]

theorem report_replayed (s : Session σ) : s.report false 0 none =
    { raw := s.raw
      stats := s.assembler.finish.stats
      consumer := s.consumer
      losses := lossTotal s.assembler.finish.stats none } := by
  simp [Session.report]

/-- Replay of the archive of a live run. -/
theorem replay_archiveOf (consumeEvent : σ → Event → Result (σ × Bool)) (U : σ → Prop)
    (hU : ∀ t e t' stop, U t → consumeEvent t e = .ok (t', stop) → stop = false ∧ U t') {consumer : σ}
    (hconsumer : U consumer) {rounds : List Round} {last : List Bytes} {cpus : List CaptureStats}
    {final : Reassembler} {events : List (Option Event)}
    (hrun : Reassembler.fresh.run (recordsOf rounds last) = .ok (final, events))
    (hsized : ∀ r ∈ recordsOf rounds last, Sized r)
    (hsum : lossSum final.finish.stats (totalStats cpus) < 2 ^ 64) (rawOutput : Bool) :
    replay consumeEvent consumer rawOutput (archiveOf rounds last cpus) =
      (Machine.run consumeEvent consumer events.reduceOption).map fun r =>
        { raw := if rawOutput then some (archiveOf rounds last cpus) else none
          stats := { final.finish.stats with kernelLosses :=
            (lossCounters (totalStats cpus)).foldl saturatingAdd final.finish.stats.kernelLosses }
          consumer := r.1
          losses := lossTotal final.finish.stats (some (totalStats cpus)) } := by
  have hcounters : ∀ n ∈ lossCounters (totalStats cpus), n < 2 ^ 64 := by
    intro n hn
    have hle := List.single_le_sum (by simp) n hn
    unfold lossSum at hsum
    omega
  have hrecords : archiveOf rounds last cpus =
      rawMagic ++ (recordsOf rounds last ++ [kernelSummary (totalStats cpus)]).flatMap archived := by
    rw [archiveOf, writeKernelSummary_eq, List.flatMap_append, List.flatMap_singleton]
  have hall : ∀ r ∈ recordsOf rounds last ++ [kernelSummary (totalStats cpus)], Sized r := by
    intro r hr
    rcases List.mem_append.mp hr with hr | hr
    · exact hsized r hr
    · exact List.mem_singleton.mp hr ▸ sized_kernelSummary _
  -- the counters come last and deliver no event
  have hrun' := Machine.run_append.mpr ⟨final, events, [none], hrun,
    Machine.run_singleton.mpr ⟨none, step_kernelSummary final hcounters, rfl⟩, rfl⟩
  have hreduce : List.reduceOption (events ++ [none]) = events.reduceOption := by
    rw [List.reduceOption_append, List.reduceOption_cons_of_none, List.reduceOption_nil,
      List.append_nil]
  rw [replay, hrecords, readRawHeader_magic, Result.ok_bind,
    replayLoop_archived hU hall (s := Session.start rawOutput consumer) hconsumer hrun'
      (Nat.lt_succ_of_le (length_le_archived _)), ← lossTotal_summary hsum]
  rw [hreduce]
  cases hconsume : Machine.run consumeEvent consumer events.reduceOption with
  | error message =>
    rw [show (Session.start rawOutput consumer).consumer = consumer from rfl, hconsume]
    rfl
  | ok r =>
    rw [show (Session.start rawOutput consumer).consumer = consumer from rfl, hconsume]
    refine (congrArg Except.ok (report_replayed _)).trans ?_
    cases rawOutput <;> rfl

/-- The archive of a live run reads back as its records, and its replay gives
the consumer the same events, counts the same losses and archives the same
bytes. Replay without limits fails only where its consumer fails. -/
theorem archive_replays {args : Options} {s₀ : Consumer} {rawOutput : Bool} {rounds : List Round}
    {last : List Bytes} {cpus : List CaptureStats} {live : Report (Consumer × List Event)}
    (hlive : runLive (logged args.consumeEvent) (s₀, []) rawOutput rounds last cpus = .ok (some live))
    (hsum : lossSum live.stats (totalStats cpus) < 2 ^ 64) :
    live.raw = (if rawOutput then some (archiveOf rounds last cpus) else none) ∧
    openInput (archiveOf rounds last cpus) = .ok ((archiveOf rounds last cpus).drop 8, false) ∧
    readRawHeader (archiveOf rounds last cpus) = .ok ((archiveOf rounds last cpus).drop 8) ∧
    readRecords (archiveOf rounds last cpus).length ((archiveOf rounds last cpus).drop 8) =
      .ok (recordsOf rounds last ++ [kernelSummary (totalStats cpus)]) ∧
    (Unlimited args s₀ → ∃ replayed,
      replay (logged args.consumeEvent) (s₀, []) true (archiveOf rounds last cpus) = .ok replayed) ∧
    ∀ args' s₀', Unlimited args' s₀' →
      (∀ message,
        replay (logged args'.consumeEvent) (s₀', []) true (archiveOf rounds last cpus) = .error message ↔
          Machine.run (logged args'.consumeEvent) (s₀', []) live.consumer.2 = .error message) ∧
      ∀ replayed,
        replay (logged args'.consumeEvent) (s₀', []) true (archiveOf rounds last cpus) = .ok replayed →
        replayed.consumer.2 = live.consumer.2 ∧ replayed.losses = live.losses ∧
          replayed.raw = some (archiveOf rounds last cpus) := by
  obtain ⟨final, events, stops, hrun, hsized, hconsumer, hraw, hstats, hlosses⟩ := runLive_eq_ok hlive
  have hevents : live.consumer.2 = events.reduceOption := by
    rw [run_logged hconsumer, List.nil_append]
  rw [hstats] at hsum
  have hreplay : ∀ args' s₀', Unlimited args' s₀' → _ := fun args' s₀' h =>
    replay_archiveOf (logged args'.consumeEvent) (fun t => Unlimited args' t.1)
      (fun t e t' stop ht hstep => ht.consumeEvent (logged_eq_ok hstep).1)
      (show Unlimited args' (s₀', ([] : List Event)).1 from h) hrun hsized hsum true
  have hrest : (archiveOf rounds last cpus).drop 8 =
      (recordsOf rounds last ++ [kernelSummary (totalStats cpus)]).flatMap archived := by
    rw [archiveOf, writeKernelSummary_eq, List.flatMap_append, List.flatMap_singleton,
      List.drop_left' (by decide)]
  have hheader : readRawHeader (archiveOf rounds last cpus) = .ok ((archiveOf rounds last cpus).drop 8) := by
    rw [archiveOf, readRawHeader_magic, List.drop_left' (by decide)]
  refine ⟨hraw, ?_, hheader, ?_, ?_, ?_⟩
  · rw [openInput, if_neg, hheader]
    · rfl
    · rw [archiveOf, List.take_append_of_le_length (by decide)]
      decide
  · rw [hrest]
    refine readRecords_archived ?_ ?_
    · intro r hr
      rcases List.mem_append.mp hr with hr | hr
      · exact hsized r hr
      · exact List.mem_singleton.mp hr ▸ sized_kernelSummary _
    · have hle := length_le_archived (recordsOf rounds last ++ [kernelSummary (totalStats cpus)])
      rw [← hrest, List.length_drop] at hle
      rw [List.length_append, List.length_singleton] at hle ⊢
      omega
  · intro h
    rw [hreplay args s₀ h, hconsumer]
    exact ⟨_, rfl⟩
  · intro args' s₀' h
    rw [hreplay args' s₀' h, hevents]
    cases hconsume : Machine.run (logged args'.consumeEvent) (s₀', []) events.reduceOption with
    | error e => exact ⟨fun message => by simp [Except.map], nofun⟩
    | ok res =>
      obtain ⟨consumer, stops'⟩ := res
      refine ⟨fun message => ⟨nofun, nofun⟩, ?_⟩
      intro replayed hreplayed
      cases hreplayed
      exact ⟨run_logged hconsume, hlosses.symm, rfl⟩

/-- The records of one event in a single round, the last with bytes behind it. -/
def bulkOutRound : Round :=
  { items := Reassembler.bulkOutRecords ++ [Reassembler.bulkOutEnd ++ [0, 0]]
    bounded := by decide
    interrupted := true
    expired := true }

def twoLosses : CaptureStats := ⟨2, 1, 0, 2, 0, 0, 0, 0⟩

theorem archive_replays_bulkOut : ∃ live replayed,
    runLive (logged everything.consumeEvent) (Consumer.start none, []) true [bulkOutRound] []
      [twoLosses] = .ok (some live) ∧
    live.consumer.2.length = 1 ∧ live.losses = 2 ∧
    replay (logged everything.consumeEvent) (Consumer.start none, []) true
      (archiveOf [bulkOutRound] [] [twoLosses]) = .ok replayed ∧
    replayed.consumer.2 = live.consumer.2 ∧ replayed.losses = live.losses := by
  have hfree : Unlimited everything (Consumer.start none) := ⟨rfl, rfl, nofun⟩
  obtain ⟨_, _, _, _, hok, hsame⟩ := @archive_replays everything (Consumer.start none) true
    [bulkOutRound] [] [twoLosses] _ rfl (by decide)
  obtain ⟨replayed, hreplayed⟩ := hok hfree
  obtain ⟨hlog, hlosses, _⟩ := (hsame _ _ hfree).2 replayed hreplayed
  exact ⟨_, replayed, rfl, rfl, rfl, hreplayed, hlog, hlosses⟩

end UsbScope.App
