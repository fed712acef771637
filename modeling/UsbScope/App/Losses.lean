import UsbScope.App.Replay
import UsbScope.Ebpf.Delivery
import UsbScope.Ebpf.Attribution

/-! # A live run over the hooks

The ring of a run of the hooks goes through the live loop, in any rounds and
with the items of different events interleaved in any way. What the loop trims
off are unused bytes of reservations; the report then accounts for every call
of `emit`, and a run with nothing lost has captured all of them. -/
namespace UsbScope.App
open UsbScope.Lib UsbScope.Common UsbScope.Capture UsbScope.Ebpf

variable {σ S : Type}

/-! ## Ring items -/

/-- The items of the ring, in order within each event and otherwise in any
order. -/
def DrainedFrom (s : Tracker) (items : List Bytes) : Prop :=
  ∀ id, own id items = own id s.probe.events

/-- An item behind its record: the loop accepts it and keeps its id. -/
theorem trim_of_sized {item : Bytes} (h : Sized (trimmed item)) :
    trim item = .ok (trimmed item) ∧ recordId (trimmed item) = recordId item := by
  have hlow := h.low
  have hlength : (trimmed item).length = min (u32At item 4).toNat item.length := List.length_take
  have hfield := h.field
  have hsame : u32At (trimmed item) 4 = u32At item 4 := u32_take _ (by omega)
  rw [hsame] at hfield
  refine ⟨?_, ?_⟩
  · rw [trim, ensure_of _ (by omega), Result.ok_bind]
    dsimp only
    rw [ensure_of _ (by omega)]
    rfl
  · exact u64_take _ (by omega)

/-- Trimmed, the items are the records of the ring. -/
theorem DrainedFrom.interleaved {log : List Output} {s : Tracker} (h : Ledger log s)
    {items : List Bytes} (hitems : DrainedFrom s items) : Interleaved s (items.map trimmed) := by
  have hown : ∀ l : List Bytes, (∀ item ∈ l, Sized (trimmed item)) → ∀ id,
      own id (l.map trimmed) = (own id l).map trimmed := by
    intro l hl id
    rw [own, own, List.filter_map]
    refine congrArg (List.map trimmed) (List.filter_congr fun item hitem => ?_)
    rw [Function.comp_apply, (trim_of_sized (hl item hitem)).2]
  have hperm : items.Perm s.probe.events := Keys.perm_of_share hitems
  intro id
  rw [hown items (fun item hitem => h.sized item (hperm.subset hitem)), hitems id]
  exact (hown s.probe.events h.sized id).symm

/-! ## The report -/

theorem run_unlogged {consumeEvent : σ → Event → Result (σ × Bool)} {s s' : σ × List Event}
    {events : List Event} {stops : List Bool}
    (h : Machine.run (logged consumeEvent) s events = .ok (s', stops)) :
    Machine.run consumeEvent s.1 events = .ok (s'.1, stops) := by
  induction events generalizing s stops with
  | nil =>
    cases h
    rfl
  | cons e rest ih =>
    obtain ⟨t, stop, stops', hstep, hrest, rfl⟩ := Machine.run_cons.mp h
    exact Machine.run_cons.mpr ⟨_, _, _, (logged_eq_ok hstep).1, ih hrest, rfl⟩

theorem logged_of_run {consumeEvent : σ → Event → Result (σ × Bool)} {s t : σ} {seen events : List Event}
    {stops : List Bool} (h : Machine.run consumeEvent s events = .ok (t, stops)) :
    Machine.run (logged consumeEvent) (s, seen) events = .ok ((t, seen ++ events), stops) := by
  induction events generalizing s seen stops with
  | nil =>
    cases h
    rw [List.append_nil]
    rfl
  | cons e rest ih =>
    obtain ⟨mid, stop, stops', hstep, hrest, rfl⟩ := Machine.run_cons.mp h
    have hlogged : logged consumeEvent (s, seen) e = .ok ((mid, seen ++ [e]), stop) := by
      rw [logged, hstep]
      rfl
    have hrest' := @ih mid (seen ++ [e]) _ hrest
    rw [List.append_assoc] at hrest'
    exact Machine.run_cons.mpr ⟨_, _, _, hlogged, hrest', rfl⟩

/-- What a live run says about the calls of `emit` behind its ring: which were
delivered, and how the others show. -/
structure Accounts (log : List Output) (counters : CaptureStats)
    (live : Report (σ × List Event)) : Prop where
  delivery : Delivery log live.stats live.consumer.2
  calls : counters.submitted + counters.completed + counters.submitErrors = (emissions log).length
  missing : (emissions log).length ≤ live.stats.complete +
    (counters.ringLosses + counters.readErrors + counters.unsupportedBuffers)
  losses : live.losses = live.stats.incomplete + (lossCounters counters).sum
  /-- Nothing lost, nothing missing. -/
  whole : live.losses = 0 → lossless log = emissions log

/-! ## Runs that go through -/

section

variable {record : S → Bytes → Result (S × Bool)} {s s' : S}

theorem drain_ok {items : List Bytes} {flags : List Bool}
    (htrim : ∀ item ∈ items, trim item = .ok (trimmed item))
    (hrun : Machine.run record s (items.map trimmed) = .ok (s', flags)) :
    ∃ reached, drain record s items = .ok (s', reached) := by
  induction items generalizing s flags with
  | nil =>
    cases hrun
    exact ⟨false, rfl⟩
  | cons item rest ih =>
    obtain ⟨mid, flag, flags', hstep, hrest, rfl⟩ := Machine.run_cons.mp hrun
    obtain ⟨reached, hdrain⟩ := ih (fun x hx => htrim x (List.mem_cons_of_mem _ hx)) hrest
    refine ⟨flag || reached, ?_⟩
    rw [drain, htrim item List.mem_cons_self, Result.ok_bind, hstep, Result.ok_bind]
    dsimp only
    rw [hdrain]
    rfl

theorem captureLoop_ok {rounds : List Round} {countReached stopping : Bool} {flags : List Bool}
    (htrim : ∀ item ∈ rounds.flatMap Round.items, trim item = .ok (trimmed item))
    (hrun : Machine.run record s ((rounds.flatMap Round.items).map trimmed) = .ok (s', flags)) :
    ∃ res, captureLoop record rounds countReached stopping s = .ok res := by
  induction rounds generalizing s flags countReached stopping with
  | nil => exact ⟨none, rfl⟩
  | cons round rest ih =>
    rw [List.flatMap_cons] at htrim hrun
    rw [List.map_append] at hrun
    obtain ⟨mid, flags₁, flags₂, hfirst, hrest, rfl⟩ := Machine.run_append.mp hrun
    obtain ⟨reached, hdrain⟩ := drain_ok (fun x hx => htrim x (List.mem_append_left _ hx)) hfirst
    rw [captureLoop, hdrain, Result.ok_bind]
    dsimp only
    split
    · exact ⟨_, rfl⟩
    · exact ih (fun x hx => htrim x (List.mem_append_right _ hx)) hrest

theorem capture_ok {rounds : List Round} {last : List Bytes} {flags : List Bool}
    (htrim : ∀ item ∈ itemsOf rounds last, trim item = .ok (trimmed item))
    (hrun : Machine.run record s ((itemsOf rounds last).map trimmed) = .ok (s', flags))
    (cpus : List CaptureStats) : ∃ res, capture record rounds last cpus s = .ok res := by
  rw [itemsOf] at htrim hrun
  rw [List.map_append] at hrun
  obtain ⟨mid, flags₁, flags₂, hrounds, hlast, rfl⟩ := Machine.run_append.mp hrun
  obtain ⟨res, hloop⟩ := @captureLoop_ok S record s mid rounds false false flags₁
    (fun x hx => htrim x (List.mem_append_left _ hx)) hrounds
  rw [capture, hloop, Result.ok_bind]
  cases res with
  | none => exact ⟨none, rfl⟩
  | some ended =>
    -- a loop that ends has drained all rounds
    obtain ⟨-, flags', hended⟩ := captureLoop_run hloop
    obtain ⟨rfl, -⟩ := Prod.mk.inj (Except.ok.inj (hended.symm.trans hrounds))
    obtain ⟨reached, hdrain⟩ := drain_ok (fun x hx => htrim x (List.mem_append_right _ hx)) hlast
    dsimp only
    rw [hdrain]
    exact ⟨_, rfl⟩

end

/-- The session goes through where the reassembler and the consumer do. -/
theorem consume_ok {consumeEvent : σ → Event → Result (σ × Bool)} {s : Session σ}
    {records : List Bytes} {next : Reassembler} {events : List (Option Event)} {t : σ}
    {stops : List Bool} (hrun : s.assembler.run records = .ok (next, events))
    (hconsumer : Machine.run consumeEvent s.consumer events.reduceOption = .ok (t, stops)) :
    ∃ s' flags, Machine.run (Session.consume consumeEvent) s records = .ok (s', flags) := by
  induction records generalizing s events stops with
  | nil => exact ⟨s, [], rfl⟩
  | cons r rest ih =>
    obtain ⟨mid, event, events', hstep, hrest, rfl⟩ := Machine.run_cons.mp hrun
    cases event with
    | none =>
      rw [List.reduceOption_cons_of_none] at hconsumer
      obtain ⟨s', flags, h⟩ := @ih ⟨s.raw.map (· ++ archived r), mid, s.consumer⟩ _ _ hrest hconsumer
      exact ⟨s', false :: flags, Machine.run_cons.mpr ⟨_, _, _, consume_none hstep, h, rfl⟩⟩
    | some e =>
      rw [List.reduceOption_cons_of_some] at hconsumer
      obtain ⟨u, stop, stops', hevent, hmore, rfl⟩ := Machine.run_cons.mp hconsumer
      obtain ⟨s', flags, h⟩ := @ih ⟨s.raw.map (· ++ archived r), mid, u⟩ _ _ hrest hmore
      refine ⟨s', stop :: flags, Machine.run_cons.mpr ⟨_, _, _, ?_, h, rfl⟩⟩
      rw [consume_some hstep, hevent]
      rfl

/-- Over a ring of the hooks neither trimming nor reassembly fails: with room
for the calls in progress and the lost `END`s, a live run goes through if its
consumer accepts the delivered events. -/
theorem runLive_hooks {log : List Output} {s : Tracker} (h : Ledger log s)
    (hid : s.probe.sequence < 2 ^ 64) {rounds : List Round} {last : List Bytes}
    (hitems : DrainedFrom s (itemsOf rounds last))
    (hroom : ∀ pre, pre <+: recordsOf rounds last → s.probe.stats.ringLosses +
      (Keys.inside recordId pre (recordsOf rounds last)).card < maxPendingEvents) :
    ∃ next evs, Reassembler.fresh.run (recordsOf rounds last) = .ok (next, evs) ∧
      ∀ (consumeEvent : σ → Event → Result (σ × Bool)) (consumer : σ) (rawOutput : Bool)
        (cpus : List CaptureStats) (res : σ × List Bool),
        Machine.run consumeEvent consumer evs.reduceOption = .ok res →
          ∃ report, runLive consumeEvent consumer rawOutput rounds last cpus = .ok report := by
  have hrecords := hitems.interleaved h
  have hperm : (itemsOf rounds last).Perm s.probe.events := Keys.perm_of_share hitems
  obtain ⟨next, evs, hrun⟩ := hrecords.run h hid hroom
  refine ⟨next, evs, hrun, ?_⟩
  intro consumeEvent consumer rawOutput cpus ⟨t, stops⟩ hconsumer
  obtain ⟨s', flags, hsession⟩ :=
    @consume_ok σ consumeEvent (Session.start rawOutput consumer) _ _ _ _ _ hrun hconsumer
  obtain ⟨res, hcapture⟩ := capture_ok
    (fun item hitem => (trim_of_sized (h.sized item (hperm.subset hitem))).1) hsession cpus
  rw [runLive, hcapture, Result.ok_bind]
  cases res with
  | none => exact ⟨none, rfl⟩
  | some captured => exact ⟨_, rfl⟩

/-- A loop that may end in its only round ends there. -/
theorem runLive_ends {consumeEvent : σ → Event → Result (σ × Bool)} {consumer : σ} {rawOutput : Bool}
    {round : Round} {last : List Bytes} {cpus : List CaptureStats} {report : Option (Report σ)}
    (hinterrupted : round.interrupted = true) (hexpired : round.expired = true)
    (h : runLive consumeEvent consumer rawOutput [round] last cpus = .ok report) :
    ∃ live, report = some live := by
  obtain ⟨captured, hcapture, h⟩ := Result.bind_eq_ok.mp h
  obtain ⟨ended, hloop, hcapture⟩ := Result.bind_eq_ok.mp hcapture
  obtain ⟨⟨s, reached⟩, hdrain, hloop⟩ := Result.bind_eq_ok.mp hloop
  rw [hinterrupted, hexpired] at hloop
  simp only [Bool.or_true, Bool.and_true, if_true, List.isEmpty_nil] at hloop
  cases hloop
  obtain ⟨⟨s', reached'⟩, hlast, hcapture⟩ := Result.bind_eq_ok.mp hcapture
  cases hcapture
  cases h
  exact ⟨_, rfl⟩

section

variable {log : List Output} {s : Tracker} {consumeEvent : σ → Event → Result (σ × Bool)}
  {consumer : σ} {rawOutput : Bool} {rounds : List Round} {last : List Bytes}
  {cpus : List CaptureStats} {live : Report (σ × List Event)}

theorem accounts_of_live (h : Ledger log s) (hid : s.probe.sequence < 2 ^ 64)
    (hitems : DrainedFrom s (itemsOf rounds last)) (hcpus : totalStats cpus = s.probe.stats)
    (hlive : runLive (logged consumeEvent) (consumer, []) rawOutput rounds last cpus =
      .ok (some live))
    (hsum : (totalStats cpus).submitted + (totalStats cpus).completed +
      (totalStats cpus).submitErrors + (lossCounters (totalStats cpus)).sum < 2 ^ 64) :
    Accounts log (totalStats cpus) live := by
  obtain ⟨final, events, stops, hrun, -, hconsumer, -, hstats, hlosses⟩ := runLive_eq_ok hlive
  have hdelivery := (hitems.interleaved h).delivery h hid hrun
  rw [← hstats] at hdelivery hlosses
  have hevents : live.consumer.2 = events.reduceOption := by
    rw [run_logged hconsumer, List.nil_append]
  rw [← hevents] at hdelivery
  have hmissing := h.missing
  have hcalls := h.counted
  rw [← hcpus] at hcalls
  have hpublished : (published log).length ≤ (emissions log).length := List.length_filter_le _ _
  have hincomplete := hdelivery.incomplete
  have htotal : live.losses = live.stats.incomplete + (lossCounters (totalStats cpus)).sum := by
    have horphans := hdelivery.orphans
    have hkernel := hdelivery.losses
    rw [hlosses, lossTotal]
    unfold saturatingAdd u64Max
    omega
  unfold Probe.losses at hmissing
  rw [← hcpus, ← hdelivery.complete] at hmissing
  refine ⟨hdelivery, hcalls, hmissing, htotal, fun hzero => ?_⟩
  have hnone : (lossless log).length = (emissions log).length := by
    have hle : (lossless log).length ≤ (emissions log).length := List.length_filter_le _ _
    have hcomplete := hdelivery.complete
    rw [htotal, lossCounters, List.sum_cons, List.sum_cons, List.sum_cons] at hzero
    omega
  exact List.filter_sublist.eq_of_length hnone

/-- In the order of the ring, the events are the images of their calls. -/
theorem ordered_of_live (h : Ledger log s) (hid : s.probe.sequence < 2 ^ 64)
    (hitems : itemsOf rounds last = s.probe.events)
    (hlive : runLive (logged consumeEvent) (consumer, []) rawOutput rounds last cpus =
      .ok (some live)) :
    List.Forall₂ (fun x e => x.call.image = some e) (lossless log) live.consumer.2 := by
  obtain ⟨final, events, stops, hrun, -, hconsumer, -⟩ := runLive_eq_ok hlive
  rw [recordsOf, hitems] at hrun
  rw [run_logged hconsumer, List.nil_append]
  exact h.ordered hid hrun

end

/-- A live run over a ring of the hooks accounts for every call of `emit`: those
that counted no loss are delivered, each once and as its image, and the others
are at most as many as the losses that the run reports. -/
theorem live_run_accounts {consumeEvent : σ → Event → Result (σ × Bool)} {consumer : σ}
    (faults : List Bool) {steps : List (Scene × Hook)} {rawOutput : Bool} {rounds : List Round}
    {last : List Bytes} {cpus : List CaptureStats} {live : Report (σ × List Event)}
    (haddr : ∀ x ∈ steps, x.1.Addressed)
    (hid : ((Tracker.fresh faults).run steps).1.probe.sequence < 2 ^ 64)
    (hitems : DrainedFrom ((Tracker.fresh faults).run steps).1 (itemsOf rounds last))
    (hcpus : totalStats cpus = ((Tracker.fresh faults).run steps).1.probe.stats)
    (hlive : runLive (logged consumeEvent) (consumer, []) rawOutput rounds last cpus =
      .ok (some live))
    (hsum : (totalStats cpus).submitted + (totalStats cpus).completed +
      (totalStats cpus).submitErrors + (lossCounters (totalStats cpus)).sum < 2 ^ 64) :
    Accounts ((Tracker.fresh faults).run steps).2 (totalStats cpus) live :=
  accounts_of_live (ledger_of_run faults haddr) hid hitems hcpus hlive hsum

/-- The round in which the loop finds the whole ring. -/
def wholeRing (s : Tracker) (h : s.probe.events.length ≤ 1024) : Round :=
  ⟨s.probe.events, h, true, true⟩

theorem itemsOf_wholeRing (s : Tracker) (h : s.probe.events.length ≤ 1024) :
    itemsOf [wholeRing s h] [] = s.probe.events := by
  simp [itemsOf, wholeRing]

theorem wholeRing_room {s : Tracker} (h : s.probe.events.length ≤ 1024)
    (hroom : s.probe.stats.ringLosses + s.probe.events.length < maxPendingEvents) :
    ∀ pre, pre <+: recordsOf [wholeRing s h] [] → s.probe.stats.ringLosses +
      (Keys.inside recordId pre (recordsOf [wholeRing s h] [])).card < maxPendingEvents := by
  have hlength : (recordsOf [wholeRing s h] []).length = s.probe.events.length := by
    rw [recordsOf, List.length_map, itemsOf_wholeRing]
  intro pre hpre
  have hle := (Keys.card_inside_le recordId pre (recordsOf [wholeRing s h] [])).trans hpre.length_le
  omega

/-- A loop with one round goes through, if the consumer does. -/
theorem live_of_run {log : List Output} {s : Tracker} (h : Ledger log s)
    (hid : s.probe.sequence < 2 ^ 64) (hlen : s.probe.events.length ≤ 1024)
    (hroom : s.probe.stats.ringLosses + s.probe.events.length < maxPendingEvents)
    {consumeEvent : σ → Event → Result (σ × Bool)} {consumer : σ}
    (haccepts : ∀ next evs, Reassembler.fresh.run (recordsOf [wholeRing s hlen] []) = .ok (next, evs) →
      ∃ res, Machine.run consumeEvent consumer evs.reduceOption = .ok res) :
    ∃ live, runLive (logged consumeEvent) (consumer, []) true [wholeRing s hlen] []
      [s.probe.stats] = .ok (some live) := by
  obtain ⟨next, evs, hrun, hok⟩ := @runLive_hooks (σ × List Event) _ _ h hid [wholeRing s hlen] []
    (fun id => congrArg (own id) (itemsOf_wholeRing s hlen)) (wholeRing_room hlen hroom)
  obtain ⟨⟨t, stops⟩, hconsumer⟩ := haccepts next evs hrun
  obtain ⟨report, hlive⟩ := hok _ _ true [s.probe.stats] _ (logged_of_run hconsumer)
  obtain ⟨live, rfl⟩ := runLive_ends rfl rfl hlive
  exact ⟨live, hlive⟩

/-- Two URBs are submitted and one completes, but its last record finds no room
in the ring. -/
def lossySteps : List (Scene × Hook) :=
  [(bulkScene 2, .submit 1), (bulkScene 2, .submit 2), (bulkScene 2, .giveback 1),
    (bulkScene 2, .complete 4 (some 1))]

def lossyFaults : List Bool := List.replicate 22 false ++ [true]

def lossyRun : Tracker := ((Tracker.fresh lossyFaults).run lossySteps).1

theorem length_lossyRun : lossyRun.probe.events.length = 7 := by decide +kernel

/-- The loop finds all of them in its only round. -/
def lossyRound : Round := wholeRing lossyRun (length_lossyRun.trans_le (by decide))

theorem lossySteps_addressed : ∀ x ∈ lossySteps, x.1.Addressed := by
  intro x hx
  simp only [lossySteps, List.mem_cons, List.not_mem_nil, or_false] at hx
  rcases hx with rfl | rfl | rfl | rfl <;> exact Nat.le_of_ble_eq_true rfl

theorem lossyRun_items : itemsOf [lossyRound] [] = lossyRun.probe.events := itemsOf_wholeRing _ _

theorem lossyRun_small :
    lossyRun.probe.stats.ringLosses + lossyRun.probe.events.length < maxPendingEvents := by
  have hone : lossyRun.probe.stats.ringLosses = 1 := by decide +kernel
  rw [hone, length_lossyRun]
  decide

/-- A consumer that takes everything. -/
def takeAll (_ : Unit) (_ : Event) : Result (Unit × Bool) := .ok ((), false)

theorem run_takeAll (events : List Event) : ∃ res, Machine.run takeAll () events = .ok res := by
  induction events with
  | nil => exact ⟨_, rfl⟩
  | cons e rest ih =>
    obtain ⟨⟨t, stops⟩, h⟩ := ih
    exact ⟨_, Machine.run_cons.mpr ⟨_, _, _, rfl, h, rfl⟩⟩

theorem lossyRun_live : ∃ live, runLive (logged takeAll) ((), []) true [lossyRound] []
    [lossyRun.probe.stats] = .ok (some live) :=
  live_of_run (ledger_of_run lossyFaults lossySteps_addressed) (by decide +kernel) _ lossyRun_small
    fun _ evs _ => run_takeAll evs.reduceOption

theorem live_run_accounts_lossy : ∃ live : Report (Unit × List Event),
    Accounts ((Tracker.fresh lossyFaults).run lossySteps).2 lossyRun.probe.stats live ∧
      (emissions ((Tracker.fresh lossyFaults).run lossySteps).2).length = 3 := by
  obtain ⟨live, hlive⟩ := lossyRun_live
  have hstats : totalStats [lossyRun.probe.stats] = lossyRun.probe.stats := by decide +kernel
  have h := live_run_accounts lossyFaults lossySteps_addressed (by decide +kernel)
    (fun id => congrArg (own id) lossyRun_items) hstats hlive (by decide +kernel)
  exact ⟨live, hstats ▸ h, by decide +kernel⟩

/-- A live run over a ring of the hooks fails only where its consumer does, on
the events of the calls that counted no loss, as long as the table of unfinished
events has room for the calls in progress and the lost `END`s. -/
theorem live_run_succeeds (faults : List Bool) {steps : List (Scene × Hook)} {rounds : List Round}
    {last : List Bytes} (haddr : ∀ x ∈ steps, x.1.Addressed)
    (hid : ((Tracker.fresh faults).run steps).1.probe.sequence < 2 ^ 64)
    (hitems : DrainedFrom ((Tracker.fresh faults).run steps).1 (itemsOf rounds last))
    (hroom : ∀ pre, pre <+: recordsOf rounds last →
      ((Tracker.fresh faults).run steps).1.probe.stats.ringLosses +
        (Keys.inside recordId pre (recordsOf rounds last)).card < maxPendingEvents) :
    ∃ events stats, Delivery ((Tracker.fresh faults).run steps).2 stats events ∧
      ∀ (consumeEvent : σ → Event → Result (σ × Bool)) (consumer : σ) (rawOutput : Bool)
        (cpus : List CaptureStats) (res : σ × List Bool),
        Machine.run consumeEvent consumer events = .ok res →
          ∃ report, runLive consumeEvent consumer rawOutput rounds last cpus = .ok report := by
  have hledger := ledger_of_run faults haddr
  obtain ⟨next, evs, hrun, hok⟩ := runLive_hooks hledger hid hitems hroom
  exact ⟨evs.reduceOption, _, (hitems.interleaved hledger).delivery hledger hid hrun, hok⟩

theorem live_run_succeeds_lossy : ∃ report,
    runLive (logged takeAll) ((), []) true [lossyRound] [] [lossyRun.probe.stats] = .ok report := by
  obtain ⟨events, -, -, hok⟩ := @live_run_succeeds (Unit × List Event) lossyFaults lossySteps
    [lossyRound] [] lossySteps_addressed (by decide +kernel)
    (fun id => congrArg (own id) lossyRun_items) (wholeRing_room _ lossyRun_small)
  obtain ⟨⟨t, stops⟩, hconsumer⟩ := run_takeAll events
  exact hok (logged takeAll) ((), []) true [lossyRun.probe.stats] _ (logged_of_run hconsumer)

end UsbScope.App
