import UsbScope.Ebpf.Image
import UsbScope.Ebpf.Tracking

/-! # What a run of the hooks publishes

A call of `emit` publishes nothing, or the stream of one event, cut short only
where the ring lost its `END`. The ring of a run is the streams of its calls,
one after another, and the loss counters are at least the losses of the calls. -/
namespace UsbScope.Ebpf
open UsbScope.Lib UsbScope.Common UsbScope.Capture

/-! ## One call -/

/-- The records of an event, up to `END` unless the ring had no room for that. -/
inductive Stream (call : Call) (m : EventMeta) (sg : UInt32) (iso : IsoContext) (st st' : Probe) :
    List Bytes → Prop where
  | cut {parts : List Part} (body : Body m parts)
      (ring : st.stats.ringLosses < st'.stats.ringLosses) :
      Stream call m sg iso st st'
        (beginRecord iso.copy.eventId m :: parts.map (Part.record iso.copy.eventId))
  | whole {parts : List Part} {e : EventEnd} {lost : Nat}
      (closed : Sealed call.kernel call.config.memory call.urb m sg iso parts e lost)
      (losses : st'.losses = st.losses + lost) :
      Stream call m sg iso st st' (beginRecord iso.copy.eventId m ::
        (parts.map (Part.record iso.copy.eventId) ++ [endRecord iso.copy.eventId e]))

/-- The losses that a call counted. -/
def Emission.lost (x : Emission) : Nat := x.final.losses - x.start.losses

/-- The ring items that a call submitted. -/
def Emission.items (x : Emission) : List Bytes := x.final.events.drop x.start.events.length

theorem Emission.emits (x : Emission) :
    Emits { x.start with sequence := x.final.sequence } x.final x.records x.lost := by
  obtain ⟨records, lost, hem, -⟩ := emit_agrees x.call x.start
  obtain ⟨items, hev, hitems⟩ := hem.published
  have hrecords : x.records = records := by
    rw [Emission.records, Emission.final, hev, List.drop_left, hitems]
  have hlost : x.lost = lost := by
    have htotal : x.final.losses = x.start.losses + lost := hem.total
    rw [Emission.lost, htotal, Nat.add_sub_cancel_left]
  rw [hrecords, hlost]
  exact hem

theorem Emission.events_final (x : Emission) : x.final.events = x.start.events ++ x.items := by
  obtain ⟨items, hev, -⟩ := x.emits.published
  have hev' : x.final.events = x.start.events ++ items := hev
  rw [Emission.items, hev', List.drop_left]

/-- A call is lossy exactly when it counted a loss. -/
theorem Emission.lossy_iff {x : Emission} : x.Lossy ↔ x.lost ≠ 0 := by
  have hring : x.start.stats.ringLosses ≤ x.final.stats.ringLosses := x.emits.ring
  have hread : x.start.stats.readErrors ≤ x.final.stats.readErrors := x.emits.read
  have hunsupported : x.start.stats.unsupportedBuffers ≤ x.final.stats.unsupportedBuffers :=
    x.emits.unsupported
  unfold Emission.Lossy Emission.lost Probe.losses
  omega

theorem Emission.recordId_eq {x : Emission} {b : Bytes} (hb : b ∈ x.records) :
    recordId b = x.eventId := by
  obtain ⟨records, lost, hem, -, hids, -⟩ := emit_agrees x.call x.start
  obtain ⟨items, hev, hitems⟩ := hem.published
  rw [Emission.records, Emission.final, hev, List.drop_left, hitems] at hb
  exact hids b hb

/-- A call that publishes: what it has read, and its stream. -/
structure Emission.Streams (x : Emission) (m : EventMeta) (buffer : UInt64) (sg : UInt32)
    (iso : IsoContext) : Prop where
  read : coreReadUrb x.call.urb x.call.base = some (m, buffer, sg)
  ready : Ready x.call.urb (Call.declare { m with status := x.call.status } iso.span) buffer iso
  submission : iso.submission = decide (x.call.eventType = submitType)
  id : iso.copy.eventId = x.eventId
  valid : x.Valid → ValidMeta (Call.declare { m with status := x.call.status } iso.span)
  allocated : x.allocated = some (x.start.sequence + 1)
  stream : Stream x.call (Call.declare { m with status := x.call.status } iso.span) sg iso x.start
    x.final x.records

/-- A call publishes nothing and counts a loss, or the stream of one event. -/
theorem Emission.stream (x : Emission) : (x.records = [] ∧ x.Lossy) ∨
    ∃ m buffer sg iso, x.Streams m buffer sg iso := by
  have hrecords : ∀ {n records lost}, Emits { x.start with sequence := n } x.final records lost →
      x.records = records ∧ x.lost = lost ∧ x.final.sequence = n := by
    intro n records lost hem
    obtain ⟨items, hev, hitems⟩ := hem.published
    have hev' : x.final.events = x.start.events ++ items := hev
    have htotal : x.final.losses = x.start.losses + lost := hem.total
    refine ⟨?_, ?_, hem.sequence⟩
    · rw [Emission.records, hev', List.drop_left, hitems]
    · rw [Emission.lost, htotal, Nat.add_sub_cancel_left]
  have hnothing : ∀ {n lost}, Emits { x.start with sequence := n } x.final [] lost → lost ≠ 0 →
      x.records = [] ∧ x.Lossy := by
    intro n lost hem hne
    obtain ⟨h1, h2, -⟩ := hrecords hem
    exact ⟨h1, Emission.lossy_iff.mpr (h2 ▸ hne)⟩
  rcases emit_cases x.call x.start with ⟨n, -, -, hem⟩ |
    ⟨m, buffer, sg, iso, t, hread, hready, hid, hsub, hfits, hem, hemit⟩
  · exact .inl (hnothing hem (by decide))
  have hfinal : x.final = x.call.publish _ buffer sg iso t := hemit
  have hring : x.start.stats.ringLosses ≤ t.stats.ringLosses := hem.ring
  have hstream : ∀ {records lost}, Emits { x.start with sequence := x.start.sequence + 1 } x.final
      records lost → Stream x.call (Call.declare { m with status := x.call.status } iso.span) sg iso
        x.start x.final records → ∃ m buffer sg iso, x.Streams m buffer sg iso := by
    intro records lost hall hs
    obtain ⟨h1, -, h3⟩ := hrecords hall
    refine ⟨m, buffer, sg, iso, hread, hready, hsub, hid, fun hv => ?_, ?_, h1 ▸ hs⟩
    · exact validMeta_declare hread hv.1 hv.2 hfits
    · rw [Emission.allocated, if_neg (by omega)]
  rcases publish_cases hready with hpub | ⟨parts, e, lost, hsealed, ⟨hpub, hcut⟩ | hpub⟩
  · have hall := hem.trans hpub
    rw [← hfinal] at hall
    exact .inl (hnothing hall (by decide))
  · have hall := hem.trans hpub
    rw [← hfinal, List.nil_append] at hall
    rw [← hfinal] at hcut
    exact .inr (hstream hall (.cut hsealed.body (hring.trans_lt hcut)))
  · have hall := hem.trans hpub
    rw [← hfinal, List.nil_append, Nat.zero_add] at hall
    exact .inr (hstream hall (.whole hsealed hall.total))

/-! ## One step -/

def Output.emission : Output → Option Emission
  | .emitted _ x => some x
  | _ => none

def emissions (log : List Output) : List Emission := log.filterMap Output.emission

theorem emissions_append (log outputs : List Output) :
    emissions (log ++ outputs) = emissions log ++ emissions outputs := List.filterMap_append

/-- The event ids of a trace are those its calls took. -/
theorem eventIds_eq (log : List Output) :
    eventIds log = (emissions log).filterMap Emission.allocated := by
  rw [eventIds, emissions, List.filterMap_filterMap]
  refine congrArg (fun f => log.filterMap f) (funext fun o => ?_)
  cases o <;> rfl

/-- Nothing is published, and no loss counter goes back. -/
structure Silent (st st' : Probe) : Prop where
  events : st'.events = st.events
  ring : st.stats.ringLosses ≤ st'.stats.ringLosses
  losses : st.losses ≤ st'.losses

theorem Silent.refl (st : Probe) : Silent st st := ⟨rfl, le_rfl, le_rfl⟩

theorem Silent.trans {st st' st'' : Probe} (h : Silent st st') (h' : Silent st' st'') :
    Silent st st'' :=
  ⟨h'.events.trans h.events, h.ring.trans h'.ring, h.losses.trans h'.losses⟩

theorem Silent.count (st : Probe) (field : Nat) : Silent st (st.count field) := by
  refine ⟨rfl, ?_, ?_⟩
  · unfold Probe.count bump
    split <;> simp
  · unfold Probe.losses Probe.count bump
    split <;> dsimp only <;> omega

theorem Emits.silent {st st' : Probe} {lost : Nat} (h : Emits st st' [] lost) : Silent st st' := by
  obtain ⟨items, hev, hitems⟩ := h.published
  rw [List.map_eq_nil_iff] at hitems
  have htotal := h.total
  exact ⟨by rw [hev, hitems, List.append_nil], h.ring, by omega⟩

/-- What a step publishes: nothing, or one call of `emit` in its scene. -/
inductive Publishes (scene : Scene) (st st' : Probe) (outputs : List Output) : Prop where
  | nothing (none : emissions outputs = []) (silent : Silent st st')
  | event {x : Emission} (one : emissions outputs = [x]) (silent : Silent st x.start)
      (final : st' = x.final)
      (call : ∃ id eventType status, x.call = scene.call id eventType status ∧
        (eventType = submitType ∨ eventType = completeType ∨ eventType = errorType))

theorem track_publishes {scene : Scene} {address : UInt64} {s : Tracker} {st : Probe}
    (h : Silent s.probe st) : Publishes scene s.probe (Tracker.track scene address s st).1.probe
      (Tracker.track scene address s st).2 := by
  unfold Tracker.track
  dsimp only [Probe.nextId]
  generalize hu : (if address ∈ s.inflight then Probe.count 6 _ else _ : Probe) = u
  have hsilent : Silent s.probe u := by
    rw [← hu]
    split
    · exact ⟨h.events, h.ring, h.losses⟩
    · exact ⟨h.events, h.ring, h.losses⟩
  unfold Tracker.insert
  generalize hf : u.fails = f
  obtain ⟨fault, v⟩ := f
  have hv := hsilent.trans (Emits.fails hf).silent
  cases fault with
  | true => exact .nothing rfl (hv.trans (Silent.count v 6))
  | false =>
    dsimp only
    by_cases hfull : address ∉ s.inflight ∧ maxInflight ≤ s.inflight.size
    · rw [if_pos hfull]
      exact .nothing rfl (hv.trans (Silent.count v 6))
    · rw [if_neg hfull]
      exact .event rfl (hv.trans (Silent.count v 0)) rfl ⟨_, _, _, rfl, .inl rfl⟩

theorem submit_publishes {scene : Scene} {address : UInt64} {s : Tracker} :
    Publishes scene s.probe (Tracker.submit scene address s).1.probe
      (Tracker.submit scene address s).2 := by
  unfold Tracker.submit
  split
  · exact .nothing rfl (Silent.refl _)
  generalize hf : s.probe.fails = f
  obtain ⟨fault, t⟩ := f
  have ht := (Emits.fails hf).silent
  cases fault with
  | true => exact .nothing rfl (ht.trans (Silent.count t 4))
  | false =>
    dsimp only
    cases coreReadUrb scene.urb { EventMeta.zero with eventType := submitType } with
    | none => exact .nothing rfl (ht.trans (Silent.count t 4))
    | some r =>
      dsimp only
      split
      · exact .nothing rfl ht
      generalize hp : prefilter _ _ _ _ = r
      obtain ⟨accepted, u⟩ := r
      have hu := ht.trans (prefilter_emits hp).silent
      cases accepted with
      | false => exact .nothing rfl hu
      | true => exact track_publishes hu

theorem step_publishes (s : Tracker) (x : Scene × Hook) :
    Publishes x.1 s.probe (s.step x).1.probe (s.step x).2 := by
  obtain ⟨scene, hook⟩ := x
  cases hook with
  | submit address => exact submit_publishes
  | submitError address ret =>
    change Publishes scene s.probe (Tracker.submitError scene address ret s).1.probe
      (Tracker.submitError scene address ret s).2
    unfold Tracker.submitError
    cases ret with
    | none => exact .nothing rfl (Silent.count _ 6)
    | some status =>
      dsimp only
      split
      · cases s.inflight[address]? with
        | none => exact .nothing rfl (Silent.refl _)
        | some state =>
          exact .event rfl (Silent.count _ 2) rfl ⟨_, _, _, rfl, .inr (.inr rfl)⟩
      · exact .nothing rfl (Silent.refl _)
  | giveback address =>
    change Publishes scene s.probe (Tracker.giveback scene address s).1.probe
      (Tracker.giveback scene address s).2
    unfold Tracker.giveback
    cases s.inflight[address]? with
    | none => exact .nothing rfl (Silent.refl _)
    | some state =>
      dsimp only
      generalize hf : s.probe.fails = f
      obtain ⟨fault, t⟩ := f
      have ht := (Emits.fails hf).silent
      cases fault with
      | true => exact .nothing rfl (ht.trans (Silent.count t 4))
      | false => exact .nothing rfl ht
  | complete caller address =>
    change Publishes scene s.probe (Tracker.complete scene caller address s).1.probe
      (Tracker.complete scene caller address s).2
    unfold Tracker.complete
    split
    · exact .nothing rfl (Silent.refl _)
    cases address with
    | none => exact .nothing rfl (Silent.count _ 6)
    | some address =>
      dsimp only
      cases s.inflight[address]? with
      | none => exact .nothing rfl (Silent.refl _)
      | some state =>
        dsimp only
        split
        · exact .nothing rfl (Silent.count _ 6)
        · exact .event rfl (Silent.count _ 1) rfl ⟨_, _, _, rfl, .inr (.inl rfl)⟩

/-! ## Runs -/

/-- The device of the URB has a USB address. -/
def Scene.Addressed (scene : Scene) : Prop := scene.urb.devnum.toUInt32.toUInt8.toNat ≤ 127

/-- The ring items that a call lost. -/
def Emission.ringLost (x : Emission) : Nat := x.final.stats.ringLosses - x.start.stats.ringLosses

/-- What the trace of a run says about the ring, the ids and the counters. -/
structure Ledger (log : List Output) (s : Tracker) : Prop where
  ring : s.probe.events = (emissions log).flatMap Emission.items
  lost : ((emissions log).map Emission.lost).sum ≤ s.probe.losses
  ringLost : ((emissions log).map Emission.ringLost).sum ≤ s.probe.stats.ringLosses
  ids : (eventIds log).Nodup
  bounded : ∀ id ∈ eventIds log, id ≤ s.probe.sequence
  counted : s.probe.stats.submitted + s.probe.stats.completed + s.probe.stats.submitErrors =
    (emissions log).length
  valid : ∀ x ∈ emissions log, x.Valid

theorem Move.emissions_length {s s' : Tracker} {outputs : List Output} (h : Move s s' outputs) :
    s'.probe.stats.submitted + s'.probe.stats.completed + s'.probe.stats.submitErrors =
      s.probe.stats.submitted + s.probe.stats.completed + s.probe.stats.submitErrors +
        (emissions outputs).length := by
  cases h with
  | idle ho hseq hc =>
    obtain ⟨h1, h2, h3, -⟩ := hc
    have hnone : emissions outputs = [] := by rcases ho with rfl | ⟨a, rfl⟩ <;> rfl
    rw [hnone, h1, h2, h3]
    rfl
  | @tracked a x htype hnew hseq hc =>
    obtain ⟨h1, h2, h3, -⟩ := hc.trans x.steady.2.2
    change _ = _ + 1
    dsimp only
    omega
  | stored hget hseq hc =>
    obtain ⟨h1, h2, h3, -⟩ := hc
    change _ = _ + 0
    dsimp only
    omega
  | dropped hget hseq hc =>
    obtain ⟨h1, h2, h3, -⟩ := hc
    change _ = _ + 0
    dsimp only
    omega
  | @completed a state x hget hready htype hid hstatus hseq hc =>
    obtain ⟨h1, h2, h3, -⟩ := hc.trans x.steady.2.2
    change _ = _ + 1
    dsimp only
    omega
  | @failed a state x hget htype hid hseq hc =>
    obtain ⟨h1, h2, h3, -⟩ := hc.trans x.steady.2.2
    change _ = _ + 1
    dsimp only
    omega

theorem Ledger.step {log : List Output} {s : Tracker} {x : Scene × Hook} (h : Ledger log s)
    (haddr : x.1.Addressed) : Ledger (log ++ (s.step x).2) (s.step x).1 := by
  have hmove := step_move s x
  obtain ⟨hseq, hnew, -, -⟩ := hmove.newIds
  have hcounted := hmove.emissions_length
  have hbounded : ∀ id ∈ eventIds (log ++ (s.step x).2), id ≤ (s.step x).1.probe.sequence := by
    intro id hid
    rw [eventIds_append, List.mem_append] at hid
    rcases hid with hid | hid
    · exact (h.bounded id hid).trans hseq
    · exact (hnew id (.inr hid)).2
  have hids : ((eventIds (s.step x).2).Nodup) → (eventIds (log ++ (s.step x).2)).Nodup := by
    intro hnodup
    rw [eventIds_append, List.nodup_append]
    refine ⟨h.ids, hnodup, fun id hid id' hid' heq => ?_⟩
    have h1 := h.bounded id hid
    have h2 := (hnew id' (.inr hid')).1
    omega
  have hcounted' : (s.step x).1.probe.stats.submitted + (s.step x).1.probe.stats.completed +
      (s.step x).1.probe.stats.submitErrors = (emissions (log ++ (s.step x).2)).length := by
    rw [hcounted, h.counted, emissions_append, List.length_append]
  cases step_publishes s x with
  | nothing hnone hsilent =>
    have hsame : emissions (log ++ (s.step x).2) = emissions log := by
      rw [emissions_append, hnone, List.append_nil]
    refine ⟨?_, ?_, ?_, hids ?_, hbounded, hcounted', ?_⟩
    · rw [hsame, hsilent.events, h.ring]
    · rw [hsame]
      exact h.lost.trans hsilent.losses
    · rw [hsame]
      exact h.ringLost.trans hsilent.ring
    · rw [eventIds_eq, hnone]
      exact List.nodup_nil
    · rw [hsame]
      exact h.valid
  | @event y hone hsilent hfinal hcall =>
    have hmore : emissions (log ++ (s.step x).2) = emissions log ++ [y] := by
      rw [emissions_append, hone]
    have hlost : y.final.losses = y.start.losses + y.lost := y.emits.total
    have hring : y.start.stats.ringLosses ≤ y.final.stats.ringLosses := y.emits.ring
    have hsl := hsilent.losses
    have hsr := hsilent.ring
    have hl := h.lost
    have hr := h.ringLost
    refine ⟨?_, ?_, ?_, hids ?_, hbounded, hcounted', ?_⟩
    · rw [hmore, hfinal, y.events_final, hsilent.events, h.ring, List.flatMap_append,
        List.flatMap_singleton]
    · rw [hmore, hfinal, List.map_append, List.sum_append, List.map_singleton, List.sum_singleton]
      omega
    · rw [hmore, hfinal, List.map_append, List.sum_append, List.map_singleton, List.sum_singleton,
        Emission.ringLost]
      omega
    · rw [eventIds_eq, hone]
      cases hy : y.allocated <;> simp [hy]
    · rw [hmore]
      intro z hz
      rcases List.mem_append.mp hz with hz | hz
      · exact h.valid z hz
      · obtain rfl := List.mem_singleton.mp hz
        obtain ⟨id, eventType, status, hcall, htype⟩ := hcall
        rw [Emission.Valid, hcall]
        exact ⟨htype, haddr⟩

/-- Every run of the hooks keeps its ledger. -/
theorem ledger_of_run (faults : List Bool) {steps : List (Scene × Hook)}
    (haddr : ∀ x ∈ steps, x.1.Addressed) :
    Ledger ((Tracker.fresh faults).run steps).2 ((Tracker.fresh faults).run steps).1 := by
  refine Trace.run_guarded (G := fun _ x => x.1.Addressed) ?_ (fun log s x h hx => h.step hx) ?_
  · exact ⟨rfl, le_rfl, le_rfl, List.nodup_nil, by simp [eventIds], rfl, by simp [emissions]⟩
  · intro before x after hsplit
    exact haddr x (by simp [hsplit])

end UsbScope.Ebpf
