import UsbScope.App.Alike
import UsbScope.App.Losses
import UsbScope.Ebpf.Shadow

/-! # Selecting in the kernel

The bus, the device and the predicates of a filter are also given to the
kernel, which then tracks fewer URBs. Unless something is lost, this changes
nothing but the ids of the URBs: the events kept of such a capture are those
kept of a capture of everything. -/
namespace UsbScope.Filter
open UsbScope.Common UsbScope.Capture

/-! ## Filters and URB ids -/

/-- The expression compares the field. -/
def Expr.reads (field : Field) : Expr → Bool
  | .predicate p => p.field = field
  | .not inner => inner.reads field
  | .and a b => a.reads field || b.reads field
  | .or a b => a.reads field || b.reads field
  | .all => false
  | .contains _ => false

theorem value_renamed {field : Field} (h : field ≠ .urbId) (id : UInt64) (e : Event)
    (latency : Option UInt64) : value field (Ebpf.renamed id e) latency = value field e latency := by
  cases field with
  | urbId => exact absurd rfl h
  | _ => rfl

/-- An expression that does not compare URB ids does not see them. -/
theorem evaluate_renamed {x : Expr} (h : x.reads .urbId = false) (id : UInt64) (e : Event)
    (latency : Option UInt64) : x.evaluate (Ebpf.renamed id e) latency = x.evaluate e latency := by
  induction x with
  | all => rfl
  | contains needle => rfl
  | predicate p =>
    rw [Expr.evaluate, Expr.evaluate, Predicate.evaluate, Predicate.evaluate,
      value_renamed (of_decide_eq_false h)]
  | not inner ih => rw [Expr.evaluate, Expr.evaluate, ih h]
  | and a b iha ihb =>
    rw [Expr.reads, Bool.or_eq_false_iff] at h
    rw [Expr.evaluate, Expr.evaluate, iha h.1, ihb h.2]
  | or a b iha ihb =>
    rw [Expr.reads, Bool.or_eq_false_iff] at h
    rw [Expr.evaluate, Expr.evaluate, iha h.1, ihb h.2]

end UsbScope.Filter

namespace UsbScope.App
open UsbScope.Lib UsbScope.Common UsbScope.Capture UsbScope.Pcapng UsbScope.Ebpf UsbScope.Filter

variable {σ : Type} {args : Options}

/-! ## What the kernel refuses -/

/-- The scene as `capture` configures it for the arguments. -/
def Options.load (args : Options) (scene : Scene) : Scene :=
  scene.load args.bus (args.device.elim 0xffffffff UInt8.toUInt32) args.filter.kernelPredicates

/-- No event of the URB passes. -/
def Options.Rejects (args : Options) (urb : Urb) : Prop :=
  ∃ m buffer sg, urb.submission = some (m, buffer, sg) ∧
    ∀ e : Event, SameUrb m e.metadata → ∀ before, ¬ Passes args before e

/-- The kernel selects the events that userspace selects. -/
theorem selected_load {m : EventMeta} {e : Event} {scene : Scene} (hs : SameUrb m e.metadata)
    (h : args.selected e = true) : Ebpf.selected m (args.load scene).config = true := by
  unfold Options.selected at h
  rw [Bool.and_eq_true, Bool.or_eq_true] at h
  obtain ⟨hbus, hdevice⟩ := h
  unfold Ebpf.selected
  refine decide_eq_true ⟨?_, ?_⟩
  · rcases hbus with hany | hbus
    · exact .inl (of_decide_eq_true hany)
    · refine .inr (UInt32.toNat_inj.mp ?_)
      rw [UInt16.toNat_toUInt32, hs.bus]
      exact of_decide_eq_true hbus
  · change args.device.elim 0xffffffff UInt8.toUInt32 = 0xffffffff ∨
      args.device.elim 0xffffffff UInt8.toUInt32 = m.device.toUInt32
    cases hd : args.device with
    | none => exact .inl rfl
    | some device =>
      rw [hd] at hdevice
      have heq : device = e.metadata.device := of_decide_eq_true hdevice
      exact .inr (by rw [heq, hs.device, Option.elim_some])

/-- The predicates in the kernel accept what the filter matches. -/
theorem prefilter_load {m : EventMeta} {e : Event} {scene : Scene} {latency : Option UInt64}
    (hs : SameUrb m e.metadata) (h : args.filter.expression.evaluate e latency = .ok .true)
    (st : Probe) :
    (prefilter (args.load scene).filters m (args.load scene).config.filterCount st).1 = true := by
  refine prefilter_of_all (fun i k hi hk => ?_) st
  have hlen : args.filter.kernelPredicates.length ≤ maxKernelPredicates := List.length_take_le _ _
  have hcount : ((args.load scene).config.filterCount).toNat =
      args.filter.kernelPredicates.length :=
    UInt32.toNat_ofNat_of_lt' (Nat.lt_of_le_of_lt hlen (by decide))
  rw [hcount] at hi
  have hmem : args.filter.kernelPredicates[i]? = some k :=
    (List.getElem?_append_left hi).symm.trans hk
  obtain ⟨p, hp, hkernel⟩ := List.mem_filterMap.mp (List.mem_of_mem_take (List.mem_of_getElem? hmem))
  exact Predicate.kernel_sound (Expr.required_sound false h p hp) hkernel hs

theorem rejects_of_refuses (scene : Scene) (m : EventMeta) (buffer : UInt64) (sg : UInt32)
    (hread : scene.urb.submission = some (m, buffer, sg)) (h : (args.load scene).Refuses m) :
    args.Rejects scene.urb := by
  refine ⟨m, buffer, sg, hread, fun e hs before hpasses => ?_⟩
  rcases h with hselected | ⟨st, hprefilter⟩
  · rw [selected_load hs hpasses.1] at hselected
    cases hselected
  · rw [prefilter_load hs hpasses.2] at hprefilter
    cases hprefilter

/-! ## Fewer events, other ids -/

/-- The event under the id that `ρ` gives it. -/
def relabel (ρ : UInt64 → UInt64) (e : Event) : Event := renamed (ρ e.metadata.urbId) e

/-- The events with an id of `ids`, relabelled. -/
def shadowOf (ids : List UInt64) (ρ : UInt64 → UInt64) (events : List Event) : List Event :=
  (events.filter fun e => e.metadata.urbId ∈ ids).map (relabel ρ)

section

variable {ids : List UInt64} {ρ : UInt64 → UInt64}

theorem shadowOf_concat (events : List Event) (e : Event) : shadowOf ids ρ (events ++ [e]) =
    shadowOf ids ρ events ++ if e.metadata.urbId ∈ ids then [relabel ρ e] else [] := by
  rw [shadowOf, List.filter_append, List.map_append]
  split
  · rename_i h
    simp [shadowOf, h]
  · rename_i h
    simp [shadowOf, h]

theorem shadowOf_cons (events : List Event) (e : Event) : shadowOf ids ρ (e :: events) =
    (if e.metadata.urbId ∈ ids then [relabel ρ e] else []) ++ shadowOf ids ρ events := by
  unfold shadowOf
  split
  · rename_i h
    simp [h]
  · rename_i h
    simp [h]

/-- The open submission of a relabelled URB. -/
theorem unmatched_shadowOf (hinj : Set.InjOn ρ {id | id ∈ ids}) {before : List Event}
    (hsource : ∀ e ∈ before, e.sourceId = 0) {id : UInt64} (hid : id ∈ ids) :
    unmatched (shadowOf ids ρ before) (0, ρ id) = (unmatched before (0, id)).map (relabel ρ) := by
  induction before using List.reverseRecOn with
  | nil => rfl
  | append_singleton before e ih =>
    have hrest := ih fun x hx => hsource x (List.mem_append_left _ hx)
    have hkey : requestKey e = (0, e.metadata.urbId) :=
      Prod.ext (hsource e (by simp)) rfl
    rw [shadowOf_concat, unmatched_concat, hkey]
    by_cases hmem : e.metadata.urbId ∈ ids
    · rw [if_pos hmem, unmatched_concat]
      have hkey' : requestKey (relabel ρ e) = (0, ρ e.metadata.urbId) :=
        Prod.ext (hsource e (by simp)) rfl
      have htype : (relabel ρ e).metadata.eventType = e.metadata.eventType := rfl
      rw [hkey', htype]
      by_cases heq : e.metadata.urbId = id
      · rw [heq, if_pos rfl, if_pos rfl]
        split <;> rfl
      · have hne : ρ e.metadata.urbId ≠ ρ id := fun h => heq (hinj hmem hid h)
        rw [if_neg (by simpa using hne), if_neg (by simpa using heq), hrest]
    · have hne : e.metadata.urbId ≠ id := fun h => hmem (h ▸ hid)
      rw [if_neg hmem, List.append_nil, if_neg (by simpa using hne), hrest]

theorem latencyOf_relabel (hinj : Set.InjOn ρ {id | id ∈ ids}) {before : List Event} {e : Event}
    (hsource : ∀ x ∈ before, x.sourceId = 0) (he : e.sourceId = 0) (hid : e.metadata.urbId ∈ ids) :
    latencyOf (shadowOf ids ρ before) (relabel ρ e) = latencyOf before e := by
  have hkey : requestKey e = (0, e.metadata.urbId) := Prod.ext he rfl
  have hkey' : requestKey (relabel ρ e) = (0, ρ e.metadata.urbId) := Prod.ext he rfl
  have htype : (relabel ρ e).metadata.eventType = e.metadata.eventType := rfl
  have htime : (relabel ρ e).metadata.timestampNs = e.metadata.timestampNs := rfl
  rw [latencyOf, latencyOf, hkey, hkey', htype, htime, unmatched_shadowOf hinj hsource hid]
  cases unmatched before (0, e.metadata.urbId) <;> rfl

/-- What passes does not depend on the ids, nor on the events left out, if these
do not pass. -/
theorem passing_shadowOf (hinj : Set.InjOn ρ {id | id ∈ ids})
    (hreads : args.filter.expression.reads .urbId = false) {before events : List Event}
    (hbefore : ∀ e ∈ before, e.sourceId = 0) (hsource : ∀ e ∈ events, e.sourceId = 0)
    (hrejects : ∀ e ∈ events, e.metadata.urbId ∉ ids → ∀ past, ¬ Passes args past e) :
    passing args (shadowOf ids ρ before) (shadowOf ids ρ events) =
      (passing args before events).map (relabel ρ) := by
  induction events generalizing before with
  | nil => rfl
  | cons e rest ih =>
    have he := hsource e List.mem_cons_self
    have hnext : ∀ x ∈ before ++ [e], x.sourceId = 0 := by
      intro x hx
      rcases List.mem_append.mp hx with hx | hx
      · exact hbefore x hx
      · rwa [List.mem_singleton.mp hx]
    have hrest := ih hnext (fun x hx => hsource x (List.mem_cons_of_mem _ hx))
      fun x hx => hrejects x (List.mem_cons_of_mem _ hx)
    rw [shadowOf_concat] at hrest
    rw [shadowOf_cons, passing, List.map_append]
    by_cases hmem : e.metadata.urbId ∈ ids
    · rw [if_pos hmem] at hrest ⊢
      have hsame : Passes args (shadowOf ids ρ before) (relabel ρ e) ↔ Passes args before e := by
        unfold Passes
        rw [latencyOf_relabel hinj hbefore he hmem, relabel, evaluate_renamed hreads]
        rfl
      rw [List.singleton_append, passing, hrest]
      congr 1
      by_cases hp : Passes args before e
      · rw [if_pos (hsame.mpr hp), if_pos hp]
        rfl
      · rw [if_neg fun h => hp (hsame.mp h), if_neg hp]
        rfl
    · rw [if_neg hmem, List.append_nil] at hrest
      rw [if_neg hmem, if_neg (hrejects e List.mem_cons_self hmem before), List.nil_append, hrest]
      rfl

theorem mem_passing {before events : List Event} {e : Event} (h : e ∈ passing args before events) :
    e ∈ events ∧ ∃ past, Passes args past e := by
  induction events generalizing before with
  | nil => cases h
  | cons x rest ih =>
    rw [passing, List.mem_append] at h
    rcases h with h | h
    · split at h
      · rename_i hp
        obtain rfl := List.mem_singleton.mp h
        exact ⟨List.mem_cons_self, before, hp⟩
      · cases h
    · obtain ⟨hmem, hp⟩ := ih h
      exact ⟨List.mem_cons_of_mem _ hmem, hp⟩

end

/-! ## The events of two runs -/

/-- The id in the selecting run, for an id of the full run. -/
def idOf (ids : List (Nat × Nat)) (id : UInt64) : UInt64 :=
  ((ids.find? fun p => UInt64.ofNat p.2 = id).map fun p => UInt64.ofNat p.1).getD 0

/-- The ids of the full run that the selecting run has as well. -/
def sharedIds (ids : List (Nat × Nat)) : List UInt64 := ids.map fun p => UInt64.ofNat p.2

section

variable {ids : List (Nat × Nat)}

theorem ofNat_inj {i j : Nat} (hi : i < 2 ^ 64) (hj : j < 2 ^ 64)
    (h : UInt64.ofNat i = UInt64.ofNat j) : i = j := by
  have hnat := congrArg UInt64.toNat h
  rwa [UInt64.toNat_ofNat_of_lt' hi, UInt64.toNat_ofNat_of_lt' hj] at hnat

theorem mem_sharedIds (hbound : ∀ p ∈ ids, p.2 < 2 ^ 64) {j : Nat} (hj : j < 2 ^ 64) :
    UInt64.ofNat j ∈ sharedIds ids ↔ j ∈ ids.map Prod.snd := by
  constructor
  · intro h
    obtain ⟨p, hp, heq⟩ := List.mem_map.mp h
    exact List.mem_map.mpr ⟨p, hp, ofNat_inj (hbound p hp) hj heq⟩
  · intro h
    obtain ⟨p, hp, rfl⟩ := List.mem_map.mp h
    exact List.mem_map.mpr ⟨p, hp, rfl⟩

theorem idOf_pair (hbound : ∀ p ∈ ids, p.2 < 2 ^ 64) (hright : (ids.map Prod.snd).Nodup) {i j : Nat}
    (h : (i, j) ∈ ids) : idOf ids (UInt64.ofNat j) = UInt64.ofNat i := by
  unfold idOf
  cases hfind : ids.find? fun p => UInt64.ofNat p.2 = UInt64.ofNat j with
  | none =>
    have hnone := List.find?_eq_none.mp hfind (i, j) h
    simp at hnone
  | some p =>
    have hp := List.mem_of_find?_eq_some hfind
    have heq : UInt64.ofNat p.2 = UInt64.ofNat j := by simpa using List.find?_some hfind
    have hpj : p.2 = j := ofNat_inj (hbound p hp) (hbound _ h) heq
    have hpair : p = (i, j) := List.inj_on_of_nodup_map hright hp h hpj
    rw [hpair]
    rfl

theorem injOn_idOf (hbound : ∀ p ∈ ids, p.1 < 2 ^ 64 ∧ p.2 < 2 ^ 64)
    (hleft : (ids.map Prod.fst).Nodup) (hright : (ids.map Prod.snd).Nodup) :
    Set.InjOn (idOf ids) {id | id ∈ sharedIds ids} := by
  intro a ha b hb hab
  obtain ⟨p, hp, rfl⟩ := List.mem_map.mp ha
  obtain ⟨q, hq, rfl⟩ := List.mem_map.mp hb
  have hsnd : ∀ r ∈ ids, r.2 < 2 ^ 64 := fun r hr => (hbound r hr).2
  rw [idOf_pair hsnd hright hp, idOf_pair hsnd hright hq] at hab
  have hfst := ofNat_inj (hbound p hp).1 (hbound q hq).1 hab
  rw [List.inj_on_of_nodup_map hleft hp hq hfst]

/-- The events of two runs side by side: those of the selecting run are events
of the full run under other ids, and the others do not pass. -/
theorem shadowOf_images {bound : Nat} (hids : bound < 2 ^ 64) (hbound : ∀ p ∈ ids, p.2 < 2 ^ 64)
    (hright : (ids.map Prod.snd).Nodup) {pairs : List (Option Call × Call)}
    (hpairs : ∀ p ∈ pairs, Beside args.Rejects ids bound p.1 p.2) {events events' : List Event}
    (h : List.Forall₂ (fun c e => c.image = some e) (pairs.filterMap Prod.fst) events)
    (h' : List.Forall₂ (fun c e => c.image = some e) (pairs.map Prod.snd) events') :
    events = shadowOf (sharedIds ids) (idOf ids) events' ∧ ∀ e ∈ events', e.sourceId = 0 ∧
      (e.metadata.urbId ∉ sharedIds ids → ∀ past, ¬ Passes args past e) := by
  induction pairs generalizing events events' with
  | nil =>
    cases h
    cases h'
    exact ⟨rfl, nofun⟩
  | cons p rest ih =>
    obtain ⟨first, b⟩ := p
    have hrest : ∀ p ∈ rest, Beside args.Rejects ids bound p.1 p.2 :=
      fun p hp => hpairs p (List.mem_cons_of_mem _ hp)
    rw [List.map_cons] at h'
    cases h' with
    | @cons _ e _ events' himage' h' =>
      obtain ⟨hsource, hurbId, -⟩ := image_read himage'
      have hbeside : Beside args.Rejects ids bound first b := hpairs _ List.mem_cons_self
      cases hbeside with
      | @both a b paired twin =>
        have hfirst : ((some a, b) :: rest).filterMap Prod.fst = a :: rest.filterMap Prod.fst := rfl
        rw [hfirst] at h
        cases h with
        | @cons _ e' _ events himage h =>
          obtain ⟨hevents, hothers⟩ := ih hrest h h'
          rw [twin.image, himage', Option.map_some, Option.some.injEq] at himage
          have hmem : e.metadata.urbId ∈ sharedIds ids :=
            hurbId ▸ List.mem_map.mpr ⟨_, paired, rfl⟩
          refine ⟨?_, ?_⟩
          · rw [shadowOf_cons, if_pos hmem, List.singleton_append, ← hevents, ← himage, relabel, hurbId,
              idOf_pair hbound hright paired]
          · intro x hx
            rcases List.mem_cons.mp hx with rfl | hx
            · exact ⟨hsource, fun hno => absurd hmem hno⟩
            · exact hothers x hx
      | @only b urb rejects keeps foreign bounded =>
        have hfirst : ((none, b) :: rest).filterMap Prod.fst = rest.filterMap Prod.fst := rfl
        rw [hfirst] at h
        obtain ⟨hevents, hothers⟩ := ih hrest h h'
        have hno : e.metadata.urbId ∉ sharedIds ids := by
          rw [hurbId, mem_sharedIds hbound (Nat.lt_of_le_of_lt bounded hids)]
          exact foreign
        refine ⟨?_, ?_⟩
        · rw [shadowOf_cons, if_neg hno, List.nil_append, ← hevents]
        · intro x hx
          rcases List.mem_cons.mp hx with rfl | hx
          · obtain ⟨m, buffer, sg, hread, hnever⟩ := rejects
            exact ⟨hsource, fun _ => hnever x (image_keeps hread keeps himage')⟩
          · exact hothers x hx

end

/-! ## Two captures -/

/-- A live run over the ring of a run of the hooks, in the order of the ring. -/
structure Captured (faults : List Bool) (steps : List (Scene × Hook))
    (consumeEvent : σ → Event → Result (σ × Bool)) (consumer : σ) (live : Report (σ × List Event)) :
    Prop where
  ids : ((Tracker.fresh faults).run steps).1.probe.sequence < 2 ^ 64
  run : ∃ rawOutput rounds last cpus,
    itemsOf rounds last = ((Tracker.fresh faults).run steps).1.probe.events ∧
    totalStats cpus = ((Tracker.fresh faults).run steps).1.probe.stats ∧
    (totalStats cpus).submitted + (totalStats cpus).completed + (totalStats cpus).submitErrors +
      (lossCounters (totalStats cpus)).sum < 2 ^ 64 ∧
    runLive (logged consumeEvent) (consumer, []) rawOutput rounds last cpus = .ok (some live)

/-- A capture that reports no loss: the probes counted none, and every call was
delivered, in order. -/
theorem Captured.lossless {faults : List Bool} {steps : List (Scene × Hook)}
    {consumeEvent : σ → Event → Result (σ × Bool)} {consumer : σ} {live : Report (σ × List Event)}
    (h : Captured faults steps consumeEvent consumer live) (haddr : ∀ x ∈ steps, x.1.Addressed)
    (hlosses : live.losses = 0) :
    ((Tracker.fresh faults).run steps).1.probe.Clean ∧
      List.Forall₂ (fun c e => c.image = some e)
        (callsOf ((Tracker.fresh faults).run steps).2) live.consumer.2 ∧
      ∃ stops, Machine.run consumeEvent consumer live.consumer.2 = .ok (live.consumer.1, stops) := by
  obtain ⟨rawOutput, rounds, last, cpus, hitems, hcpus, hsum, hlive⟩ := h.run
  have hledger := ledger_of_run faults haddr
  have haccounts := accounts_of_live hledger h.ids (fun id => congrArg (own id) hitems) hcpus hlive hsum
  have hordered := ordered_of_live hledger h.ids hitems hlive
  rw [haccounts.whole hlosses] at hordered
  have hzero := haccounts.losses
  rw [hlosses, hcpus, lossCounters, List.sum_cons, List.sum_cons, List.sum_cons, List.sum_cons,
    List.sum_nil] at hzero
  refine ⟨⟨?_, by omega⟩, ?_, ?_⟩
  · unfold Probe.losses
    omega
  · rwa [callsOf, List.forall₂_map_left_iff]
  · obtain ⟨final, events, stops, -, -, hconsumer, -⟩ := runLive_eq_ok hlive
    refine ⟨stops, ?_⟩
    rw [run_logged hconsumer, List.nil_append]
    exact run_unlogged hconsumer

theorem images_eq {calls : List Call} {events : List Event}
    (h : List.Forall₂ (fun c e => c.image = some e) calls events) :
    events = calls.filterMap Call.image := by
  induction h with
  | nil => rfl
  | cons himage _ ih => rw [List.filterMap_cons_some himage, ih]

/-- Where the probes lost nothing, the ring holds one event for each call. -/
theorem images_of_ring {log : List Output} {s : Tracker} (h : Ledger log s)
    (hid : s.probe.sequence < 2 ^ 64) (hlosses : s.probe.losses = 0) {rounds : List Round}
    {last : List Bytes} (hitems : itemsOf rounds last = s.probe.events) {next : Reassembler}
    {evs : List (Option Event)} (hrun : Reassembler.fresh.run (recordsOf rounds last) = .ok (next, evs)) :
    List.Forall₂ (fun c e => c.image = some e) (callsOf log) evs.reduceOption := by
  rw [recordsOf, hitems] at hrun
  have hwhole : lossless log = emissions log := by
    have hmissing := h.missing
    rw [hlosses, Nat.add_zero] at hmissing
    exact List.filter_sublist.eq_of_length_le hmissing
  rw [callsOf, List.forall₂_map_left_iff, ← hwhole]
  exact h.ordered hid hrun

/-- A small run of the hooks that counted no loss can be captured without. -/
theorem captured_of_run {faults : List Bool} {steps : List (Scene × Hook)}
    (haddr : ∀ x ∈ steps, x.1.Addressed) {s : Tracker} {log : List Output}
    (hrun : (Tracker.fresh faults).run steps = (s, log)) (hid : s.probe.sequence < 2 ^ 64)
    (hlen : s.probe.events.length ≤ 1024) (hclean : lossCounters s.probe.stats = [0, 0, 0, 0])
    (hsmall : s.probe.stats.submitted + s.probe.stats.completed + s.probe.stats.submitErrors < 2 ^ 64)
    {consumeEvent : σ → Event → Result (σ × Bool)} {consumer : σ}
    (haccepts : ∀ events, List.Forall₂ (fun c e => c.image = some e) (callsOf log) events →
      ∃ res, Machine.run consumeEvent consumer events = .ok res) :
    ∃ live, Captured faults steps consumeEvent consumer live ∧ live.losses = 0 := by
  have hledger := ledger_of_run faults haddr
  rw [hrun] at hledger
  dsimp only at hledger
  have hzero : s.probe.stats.ringLosses = 0 ∧ s.probe.stats.readErrors = 0 ∧
      s.probe.stats.unsupportedBuffers = 0 := by
    simp only [lossCounters, List.cons.injEq] at hclean
    exact ⟨hclean.1, hclean.2.1, hclean.2.2.1⟩
  have hroom : s.probe.stats.ringLosses + s.probe.events.length < maxPendingEvents := by
    unfold maxPendingEvents
    omega
  have hlosses : s.probe.losses = 0 := by
    unfold Probe.losses
    omega
  obtain ⟨live, hlive⟩ := live_of_run hledger hid hlen hroom fun next evs hring =>
    haccepts _ (images_of_ring hledger hid hlosses (itemsOf_wholeRing s hlen) hring)
  have hcpus : totalStats [s.probe.stats] = s.probe.stats := by
    simp [totalStats, addStats]
  have hsum : (totalStats [s.probe.stats]).submitted + (totalStats [s.probe.stats]).completed +
      (totalStats [s.probe.stats]).submitErrors +
      (lossCounters (totalStats [s.probe.stats])).sum < 2 ^ 64 := by
    rw [hcpus, hclean]
    exact hsmall
  have haccounts := accounts_of_live hledger hid
    (fun id => congrArg (own id) (itemsOf_wholeRing s hlen)) hcpus hlive hsum
  refine ⟨live, ⟨by rw [hrun]; exact hid, true, [wholeRing s hlen], [], [s.probe.stats], ?_, ?_, hsum, hlive⟩, ?_⟩
  · rw [hrun, itemsOf_wholeRing]
  · rw [hrun, hcpus]
  · -- as many events are complete as there are calls
    have hmissing := haccounts.missing
    have hincomplete := haccounts.delivery.incomplete
    have hpublished : (published log).length ≤ (emissions log).length := List.length_filter_le _ _
    rw [haccounts.losses, hcpus, hclean]
    rw [hcpus] at hmissing
    change _ + 0 = 0
    omega

theorem addressed_loaded (load : Scene → Scene) (hurb : ∀ scene, (load scene).urb = scene.urb)
    {steps : List (Scene × Hook)} (haddr : ∀ x ∈ steps, x.1.Addressed) :
    ∀ x ∈ loaded load steps, x.1.Addressed := by
  intro x hx
  obtain ⟨y, hy, rfl⟩ := List.mem_map.mp hx
  have haddress := haddr y hy
  unfold Scene.Addressed at haddress ⊢
  rwa [hurb]

/-- **Selecting in the kernel is transparent.** A capture that selects in the
kernel and one that captures everything watch the same steps, and neither
reports a loss. Then the events that are kept of the first are those that are
kept of the second, in the same order and under other URB ids, if the filter
does not compare these. An event count may end either run, and the limits of the
files, which are then the same for both outputs. -/
theorem kernel_selection_transparent
    (hreads : args.filter.expression.reads .urbId = false) {steps : List (Scene × Hook)}
    (haddr : ∀ x ∈ steps, x.1.Addressed) (hsteady : Steady steps) {faults faults' : List Bool}
    {output output' : Option CaptureOutput} {selecting : Report (Consumer × List Event)}
    {consumeEvent : σ → Event → Result (σ × Bool)} {consumer : σ} {full : Report (σ × List Event)}
    (hselecting : Captured faults (loaded args.load steps) args.consumeEvent (.start output) selecting)
    (hfull : Captured faults' (loaded Scene.loadAll steps) consumeEvent consumer full)
    (hlosses : selecting.losses = 0) (hlosses' : full.losses = 0) {t : Consumer} {stops : List Bool}
    (hreplay : Machine.run args.consumeEvent (.start output') full.consumer.2 = .ok (t, stops))
    (houtput : Option.Rel CaptureOutput.Alike output output' ∨
      (selecting.consumer.1.outputFull = false ∧ t.outputFull = false)) :
    ∃ ρ : UInt64 → UInt64,
      Set.InjOn ρ {id | ∃ e ∈ kept args (.start output') full.consumer.2, e.metadata.urbId = id} ∧
      kept args (.start output) selecting.consumer.2 =
        (kept args (.start output') full.consumer.2).map (relabel ρ) := by
  obtain ⟨hclean, himages, stops', hrun⟩ :=
    hselecting.lossless (addressed_loaded args.load (fun _ => rfl) haddr) hlosses
  obtain ⟨hclean', himages', -⟩ :=
    hfull.lossless (addressed_loaded Scene.loadAll (fun _ => rfl) haddr) hlosses'
  obtain ⟨ids, pairs, hshadow, hcalls, hcalls'⟩ :=
    shadow_of_runs faults faults' (@rejects_of_refuses args) hsteady hclean hclean'
  rw [List.nil_append] at hshadow
  have hbound : ∀ p ∈ ids, p.1 < 2 ^ 64 ∧ p.2 < 2 ^ 64 := by
    intro p hp
    obtain ⟨h1, h2⟩ := hshadow.bounded p hp
    exact ⟨h1.trans_lt hselecting.ids, h2.trans_lt hfull.ids⟩
  have hinj := injOn_idOf hbound hshadow.left hshadow.right
  obtain ⟨hevents, hothers⟩ := shadowOf_images hfull.ids (fun p hp => (hbound p hp).2) hshadow.right
    hshadow.calls (hcalls ▸ himages) (hcalls' ▸ himages')
  have hpassing : passing args [] selecting.consumer.2 =
      (passing args [] full.consumer.2).map (relabel (idOf ids)) := by
    rw [hevents]
    exact @passing_shadowOf args _ _ hinj hreads [] _ (by simp) (fun e he => (hothers e he).1)
      fun e he => (hothers e he).2
  obtain ⟨n, hkept⟩ := kept_takes hrun rfl fun _ => tracks_nil
  obtain ⟨m, hkept'⟩ := kept_takes hreplay rfl fun _ => tracks_nil
  -- both runs keep equally many
  have htwins : List.Forall₂ Twins (passing args [] selecting.consumer.2)
      (passing args [] full.consumer.2) := by
    rw [hpassing, List.forall₂_map_left_iff]
    exact List.forall₂_same.mpr fun e _ => ⟨rfl, rfl, rfl, rfl⟩
  have hsame : n = m := by
    rcases houtput with halike | ⟨hfree, hfree'⟩
    · exact hkept.takes.unique hkept'.takes halike htwins
    · exact (hkept.free hfree).unique (hkept'.free hfree') .none htwins
  refine ⟨idOf ids, hinj.mono ?_, ?_⟩
  · rintro id ⟨e, he, rfl⟩
    rw [hkept'.first] at he
    obtain ⟨hmem, past, hpasses⟩ := mem_passing (List.mem_of_mem_take he)
    by_contra hno
    exact (hothers e hmem).2 hno past hpasses
  · rw [hkept.first, hkept'.first, hpassing, hsame, List.map_take]

/-- Two URBs in flight, of devices 2 and 3. -/
def selectionSteps : List (Scene × Hook) :=
  [(bulkScene 2, .submit 1), (bulkScene 3, .submit 2), (bulkScene 2, .giveback 1),
    (bulkScene 3, .giveback 2), (bulkScene 3, .complete 4 (some 2)),
    (bulkScene 2, .complete 4 (some 1))]

/-- Device 2 on bus 1. -/
def deviceTwo : Options :=
  { everything with device := some 2, filter := ⟨.predicate ⟨.bus, none, .eq, 1⟩⟩ }

theorem steady_selectionSteps : Steady selectionSteps := by
  refine ⟨?_, ?_, nofun, nofun, nofun, nofun, trivial⟩
  · rintro a ⟨⟩
    refine .later nofun (.later nofun (.later nofun (.later ?_ (.finished rfl (.refl _)))))
    intro call hcall
    cases hcall
  · rintro a ⟨⟩
    exact .later nofun (.later nofun (.finished rfl (.refl _)))

/-- A run over the images of the calls of a run of the hooks. -/
def runImages (args : Options) (output : Option CaptureOutput) (steps : List (Scene × Hook)) :
    Result (Consumer × List Bool) :=
  Machine.run args.consumeEvent (.start output)
    ((callsOf ((Tracker.fresh []).run steps).2).filterMap Call.image)

/-- Both outputs have room for one event of the submission and the completion. -/
theorem kernel_selection_transparent_deviceTwo :
    ∃ (out out' : CaptureOutput) (selecting : Report (Consumer × List Event))
      (full : Report (Unit × List Event)) (ρ : UInt64 → UInt64),
      CaptureOutput.new [] "selected" (some 1) none (some 1) = .ok out ∧
      CaptureOutput.new [] "replayed" (some 1) none (some 1) = .ok out' ∧
      selecting.consumer.1.outputFull = true ∧ full.consumer.2.length = 4 ∧
      selecting.consumer.2.length = 2 ∧
      kept deviceTwo (.start (some out)) selecting.consumer.2 =
        (kept deviceTwo (.start (some out')) full.consumer.2).map (relabel ρ) := by
  have haddr : ∀ x ∈ selectionSteps, x.1.Addressed := by
    intro x hx
    simp only [selectionSteps, List.mem_cons, List.not_mem_nil, or_false] at hx
    rcases hx with rfl | rfl | rfl | rfl | rfl | rfl <;> exact Nat.le_of_ble_eq_true rfl
  have hloaded : ∀ load : Scene → Scene, (∀ scene, (load scene).urb = scene.urb) →
      ∀ x ∈ loaded load selectionSteps, x.1.Addressed := fun load hurb => addressed_loaded load hurb haddr
  obtain ⟨out, hnew⟩ : ∃ out, CaptureOutput.new [] "selected" (some 1) none (some 1) = .ok out :=
    ⟨_, rfl⟩
  obtain ⟨out', hnew'⟩ : ∃ out, CaptureOutput.new [] "replayed" (some 1) none (some 1) = .ok out :=
    ⟨_, rfl⟩
  have hruns : (runImages deviceTwo (some out) (loaded deviceTwo.load selectionSteps)).toOption.any
      (fun res => res.1.outputFull) = true := by
    cases hnew
    decide +kernel
  have hreplays : (runImages deviceTwo (some out')
      (loaded Scene.loadAll selectionSteps)).toOption.isSome = true := by
    cases hnew'
    decide +kernel
  obtain ⟨res, hres, hrefused⟩ := (Option.any_eq_true _ _).mp hruns
  obtain ⟨⟨t, stops⟩, hreplays⟩ := Option.isSome_iff_exists.mp hreplays
  have hrun := Result.eq_ok_of_toOption hres
  have hreplay := Result.eq_ok_of_toOption hreplays
  unfold runImages at hrun hreplay
  obtain ⟨selecting, hselecting, hlosses⟩ := captured_of_run (hloaded deviceTwo.load fun _ => rfl)
    (Prod.eta ((Tracker.fresh []).run (loaded deviceTwo.load selectionSteps))).symm
    (by decide +kernel) (by decide +kernel) (by decide +kernel) (by decide +kernel)
    fun events himages => ⟨res, images_eq himages ▸ hrun⟩
  obtain ⟨full, hfull, hlosses'⟩ := captured_of_run (hloaded Scene.loadAll fun _ => rfl)
    (Prod.eta ((Tracker.fresh []).run (loaded Scene.loadAll selectionSteps))).symm
    (by decide +kernel) (by decide +kernel) (by decide +kernel) (by decide +kernel)
    fun events _ => run_takeAll events
  obtain ⟨-, himages, stops', hrun'⟩ := hselecting.lossless (hloaded _ fun _ => rfl) hlosses
  obtain ⟨-, himages', -⟩ := hfull.lossless (hloaded _ fun _ => rfl) hlosses'
  rw [images_eq himages, hrun] at hrun'
  cases hrun'
  obtain ⟨ρ, -, hkept⟩ := kernel_selection_transparent rfl haddr steady_selectionSteps hselecting
    hfull hlosses hlosses' (images_eq himages' ▸ hreplay)
    (.inl (.some (CaptureOutput.alike_new hnew hnew')))
  refine ⟨out, out', selecting, full, ρ, hnew, hnew', hrefused, ?_, ?_, hkept⟩
  · exact himages'.length_eq.symm.trans (by decide +kernel)
  · exact himages.length_eq.symm.trans (by decide +kernel)

end UsbScope.App
