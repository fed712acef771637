import UsbScope.Ebpf.Agreement

/-! # What the hooks keep track of

`Move` says once what a step can do to the table of tracked URBs, the ids and
the counters. Every law of whole runs follows from it: ids are never reused, an
id ends at most once and on the address it was submitted on, and the counters
account for every tracked URB. -/
namespace UsbScope.Ebpf
open UsbScope.Lib UsbScope.Common UsbScope.Capture

/-! ## Counters -/

/-- What a step adds to the counters of the hooks. -/
structure Counts (s s' : CaptureStats) (submitted completed submitErrors stateErrors : Nat) :
    Prop where
  submitted : s'.submitted = s.submitted + submitted
  completed : s'.completed = s.completed + completed
  submitErrors : s'.submitErrors = s.submitErrors + submitErrors
  stateErrors : s'.stateErrors = s.stateErrors + stateErrors

theorem Counts.trans {s s' s'' : CaptureStats} {a b c d a' b' c' d' : Nat}
    (h : Counts s s' a b c d) (h' : Counts s' s'' a' b' c' d') :
    Counts s s'' (a + a') (b + b') (c + c') (d + d') :=
  ⟨by rw [h'.submitted, h.submitted, Nat.add_assoc],
    by rw [h'.completed, h.completed, Nat.add_assoc],
    by rw [h'.submitErrors, h.submitErrors, Nat.add_assoc],
    by rw [h'.stateErrors, h.stateErrors, Nat.add_assoc]⟩

theorem Counts.refl (s : CaptureStats) : Counts s s 0 0 0 0 := ⟨rfl, rfl, rfl, rfl⟩

theorem Emits.counts {st st' : Probe} {records : List Bytes} {lost : Nat}
    (h : Emits st st' records lost) : Counts st.stats st'.stats 0 0 0 0 :=
  ⟨h.hooks.1, h.hooks.2.1, h.hooks.2.2.1, h.hooks.2.2.2⟩

theorem counts_submitted (s : CaptureStats) : Counts s (bump s 0) 1 0 0 0 := ⟨rfl, rfl, rfl, rfl⟩
theorem counts_completed (s : CaptureStats) : Counts s (bump s 1) 0 1 0 0 := ⟨rfl, rfl, rfl, rfl⟩
theorem counts_submitErrors (s : CaptureStats) : Counts s (bump s 2) 0 0 1 0 := ⟨rfl, rfl, rfl, rfl⟩
theorem counts_readErrors (s : CaptureStats) : Counts s (bump s 4) 0 0 0 0 := ⟨rfl, rfl, rfl, rfl⟩
theorem counts_stateErrors (s : CaptureStats) : Counts s (bump s 6) 0 0 0 1 := ⟨rfl, rfl, rfl, rfl⟩

theorem filterPredicate_state {filters : List KernelPredicate} {m : EventMeta} {i : Nat}
    {accepted : Bool} {st : Probe} :
    (filterPredicate filters m i (accepted, st)).2.2 = st := by
  unfold filterPredicate
  dsimp only
  split
  · split <;> rfl
  · rfl

theorem prefilter_emits {filters : List KernelPredicate} {m : EventMeta} {count : UInt32}
    {st st' : Probe} {accepted : Bool} (h : prefilter filters m count st = (accepted, st')) :
    Emits st st' [] 0 := by
  unfold prefilter at h
  split at h
  · cases h
    exact Emits.refl st
  · unfold bpfLoop at h
    generalize hf : st.fails = f at h
    obtain ⟨fault, t⟩ := f
    have hem := Emits.fails hf
    cases fault with
    | true =>
      cases h
      exact hem
    | false =>
      have hstate := Loop.run_rule (filterPredicate filters m)
        (I := fun _ s => s.2 = t) (Q := fun s => s.2 = t) (n := min count.toNat maxKernelPredicates)
        (i := 0) (s := (true, t)) rfl fun j s b s' _ _ hI hb => by
          have : s'.2 = s.2 := by
            rw [show s' = (filterPredicate filters m j s).2 by rw [hb]]
            exact filterPredicate_state
          cases b with
          | false => exact .inl ⟨rfl, this.trans hI⟩
          | true => exact .inr ⟨rfl, this.trans hI⟩
      dsimp only at h
      generalize hrun : Loop.run _ _ _ _ = r at h hstate
      obtain ⟨a, u⟩ := r
      cases h
      have hu : u = t := hstate.elim id id
      rw [hu]
      exact hem

/-- A call of `emit` takes at most one id and leaves the counters of the hooks
alone. -/
theorem Emission.steady (x : Emission) :
    x.start.sequence ≤ x.final.sequence ∧ x.final.sequence ≤ x.start.sequence + 1 ∧
      Counts x.start.stats x.final.stats 0 0 0 0 := by
  obtain ⟨records, lost, hem, ⟨h1, h2⟩, _⟩ := emit_agrees x.call x.start
  exact ⟨h1, h2, hem.counts⟩

/-! ## Moves -/

/-- What a step can do. -/
inductive Move (s : Tracker) : Tracker → List Output → Prop
  /-- Nothing is tracked, stored or published. -/
  | idle {st : Probe} {outputs : List Output} {errors : Nat}
      (ho : outputs = [] ∨ ∃ a, outputs = [.submission a none])
      (hseq : s.probe.sequence ≤ st.sequence) (hc : Counts s.probe.stats st.stats 0 0 0 errors) :
      Move s ⟨s.inflight, st⟩ outputs
  /-- A submission is tracked under a new id; an old entry of its address is an
  error. -/
  | tracked {a : UInt64} {x : Emission} (htype : x.call.eventType = submitType)
      (hnew : s.probe.sequence < x.call.urbId) (hseq : x.start.sequence = x.call.urbId)
      (hc : Counts s.probe.stats x.start.stats 1 0 0 (if a ∈ s.inflight then 1 else 0)) :
      Move s ⟨s.inflight.insert a ⟨x.call.urbId, 0, 0⟩, x.final⟩
        [.submission a (some x.call.urbId), .emitted a x]
  /-- The giveback of a tracked URB stores its status. -/
  | stored {a : UInt64} {state : State} {status : Int32} {st : Probe}
      (hget : s.inflight[a]? = some state) (hseq : st.sequence = s.probe.sequence)
      (hc : Counts s.probe.stats st.stats 0 0 0 0) :
      Move s ⟨s.inflight.insert a { state with status := status, ready := 1 }, st⟩
        [.stored a status]
  /-- A completion without a giveback drops the entry. -/
  | dropped {a : UInt64} {state : State} {st : Probe} (hget : s.inflight[a]? = some state)
      (hseq : st.sequence = s.probe.sequence) (hc : Counts s.probe.stats st.stats 0 0 0 1) :
      Move s ⟨s.inflight.erase a, st⟩ []
  | completed {a : UInt64} {state : State} {x : Emission} (hget : s.inflight[a]? = some state)
      (hready : state.ready ≠ 0) (htype : x.call.eventType = completeType)
      (hid : x.call.urbId = state.id) (hstatus : x.call.status = state.status)
      (hseq : x.start.sequence = s.probe.sequence) (hc : Counts s.probe.stats x.start.stats 0 1 0 0) :
      Move s ⟨s.inflight.erase a, x.final⟩ [.emitted a x]
  | failed {a : UInt64} {state : State} {x : Emission} (hget : s.inflight[a]? = some state)
      (htype : x.call.eventType = errorType) (hid : x.call.urbId = state.id)
      (hseq : x.start.sequence = s.probe.sequence) (hc : Counts s.probe.stats x.start.stats 0 0 1 0) :
      Move s ⟨s.inflight.erase a, x.final⟩ [.emitted a x]

namespace Move

theorem nothing (s : Tracker) : Move s s [] := idle (.inl rfl) le_rfl (Counts.refl _)

/-- A submission that is not tracked. -/
theorem ignored {s : Tracker} {a : UInt64} {st : Probe} {errors : Nat}
    (hseq : s.probe.sequence ≤ st.sequence) (hc : Counts s.probe.stats st.stats 0 0 0 errors) :
    Move s ⟨s.inflight, st⟩ [.submission a none] := idle (.inr ⟨a, rfl⟩) hseq hc

end Move

theorem track_move {s : Tracker} {scene : Scene} {a : UInt64} {st : Probe} {records : List Bytes}
    {lost : Nat} (hem : Emits s.probe st records lost) :
    Move s (Tracker.track scene a s st).1 (Tracker.track scene a s st).2 := by
  unfold Tracker.track
  dsimp only [Probe.nextId]
  -- the id is taken, and an old entry counted
  generalize hu : (if a ∈ s.inflight then Probe.count 6 _ else _ : Probe) = u
  have huseq : u.sequence = s.probe.sequence + 1 := by
    rw [← hu, ← hem.sequence]
    split <;> rfl
  have huc : Counts s.probe.stats u.stats 0 0 0 (if a ∈ s.inflight then 1 else 0) := by
    rw [← hu]
    split
    · exact hem.counts.trans (counts_stateErrors st.stats)
    · exact hem.counts
  unfold Tracker.insert
  generalize hf : u.fails = f
  obtain ⟨fault, v⟩ := f
  have hv := Emits.fails hf
  have hvseq : v.sequence = s.probe.sequence + 1 := hv.sequence.trans huseq
  have hvc := huc.trans hv.counts
  have hfail : Move s ⟨s.inflight, v.count 6⟩ [.submission a none] := by
    refine Move.ignored ?_ (hvc.trans (counts_stateErrors v.stats))
    change _ ≤ v.sequence
    omega
  cases fault with
  | true => exact hfail
  | false =>
    dsimp only
    by_cases hfull : a ∉ s.inflight ∧ maxInflight ≤ s.inflight.size
    · rw [if_pos hfull]
      exact hfail
    · rw [if_neg hfull]
      have hst := hem.sequence
      have hc := hvc.trans (counts_submitted v.stats)
      rw [Nat.add_zero] at hc
      refine Move.tracked (x := ⟨scene.call (st.sequence + 1) submitType (-115), v.count 0⟩) rfl
        ?_ ?_ hc
      · change _ < st.sequence + 1
        omega
      · change v.sequence = st.sequence + 1
        omega

theorem submit_move {s : Tracker} {scene : Scene} {a : UInt64} :
    Move s (Tracker.submit scene a s).1 (Tracker.submit scene a s).2 := by
  unfold Tracker.submit
  split
  · exact Move.ignored le_rfl (Counts.refl _)
  generalize hf : s.probe.fails = f
  obtain ⟨fault, t⟩ := f
  have ht := Emits.fails hf
  have hread : Move s ⟨s.inflight, t.count 4⟩ [.submission a none] :=
    Move.ignored ht.sequence.ge (ht.counts.trans (counts_readErrors t.stats))
  cases fault with
  | true => exact hread
  | false =>
    dsimp only
    cases coreReadUrb scene.urb { EventMeta.zero with eventType := submitType } with
    | none => exact hread
    | some r =>
      obtain ⟨m, buffer, sg⟩ := r
      dsimp only
      split
      · exact Move.ignored ht.sequence.ge ht.counts
      generalize hp : prefilter _ _ _ _ = r
      obtain ⟨accepted, u⟩ := r
      have hu := ht.trans (prefilter_emits hp)
      cases accepted with
      | false => exact Move.ignored hu.sequence.ge hu.counts
      | true => exact track_move hu

theorem submitError_move {s : Tracker} {scene : Scene} {a : UInt64} {ret : Option Int32} :
    Move s (Tracker.submitError scene a ret s).1 (Tracker.submitError scene a ret s).2 := by
  unfold Tracker.submitError
  cases ret with
  | none => exact Move.idle (.inl rfl) le_rfl (counts_stateErrors _)
  | some status =>
    dsimp only
    split
    · cases hget : s.inflight[a]? with
      | none => exact Move.nothing s
      | some state => exact Move.failed (x := ⟨_, s.probe.count 2⟩) hget rfl rfl rfl (counts_submitErrors _)
    · exact Move.nothing s

theorem giveback_move {s : Tracker} {scene : Scene} {a : UInt64} :
    Move s (Tracker.giveback scene a s).1 (Tracker.giveback scene a s).2 := by
  unfold Tracker.giveback
  cases hget : s.inflight[a]? with
  | none => exact Move.nothing s
  | some state =>
    dsimp only
    generalize hf : s.probe.fails = f
    obtain ⟨fault, t⟩ := f
    have ht := Emits.fails hf
    cases fault with
    | true =>
      exact Move.idle (.inl rfl) ht.sequence.ge (ht.counts.trans (counts_readErrors t.stats))
    | false => exact Move.stored hget ht.sequence ht.counts

theorem complete_move {s : Tracker} {scene : Scene} {caller : UInt64} {address : Option UInt64} :
    Move s (Tracker.complete scene caller address s).1
      (Tracker.complete scene caller address s).2 := by
  unfold Tracker.complete
  split
  · exact Move.nothing s
  cases address with
  | none => exact Move.idle (.inl rfl) le_rfl (counts_stateErrors _)
  | some a =>
    dsimp only
    cases hget : s.inflight[a]? with
    | none => exact Move.nothing s
    | some state =>
      dsimp only
      split
      · exact Move.dropped hget rfl (counts_stateErrors _)
      · rename_i hready
        exact Move.completed (x := ⟨_, s.probe.count 1⟩) hget hready rfl rfl rfl rfl
          (counts_completed _)

theorem step_move (s : Tracker) (x : Scene × Hook) : Move s (s.step x).1 (s.step x).2 := by
  obtain ⟨scene, hook⟩ := x
  cases hook with
  | submit address => exact submit_move
  | submitError address ret => exact submitError_move
  | giveback address => exact giveback_move
  | complete caller address => exact complete_move

/-! ## Counting tracked URBs -/

/-- Every counted submission is completed, failed, in flight or an error. -/
def Balanced (s : Tracker) : Prop :=
  s.probe.stats.completed + s.probe.stats.submitErrors + s.inflight.size ≤ s.probe.stats.submitted ∧
    s.probe.stats.submitted ≤ s.probe.stats.completed + s.probe.stats.submitErrors +
      s.inflight.size + s.probe.stats.stateErrors

theorem size_erase {s : Tracker} {a : UInt64} {state : State} (h : s.inflight[a]? = some state) :
    (s.inflight.erase a).size + 1 = s.inflight.size := by
  have hmem : a ∈ s.inflight := Std.ExtTreeMap.mem_iff_isSome_getElem?.mpr (by rw [h]; rfl)
  have hpos : s.inflight.size ≠ 0 := by
    intro h0
    rw [Std.ExtTreeMap.eq_empty_iff_size_eq_zero.mpr h0] at hmem
    exact Std.ExtTreeMap.not_mem_empty hmem
  rw [Std.ExtTreeMap.size_erase, if_pos (Std.ExtTreeMap.contains_iff_mem.mpr hmem)]
  omega

theorem Balanced.step {s s' : Tracker} {outputs : List Output} (h : Balanced s)
    (hm : Move s s' outputs) : Balanced s' := by
  obtain ⟨hlow, hhigh⟩ := h
  unfold Balanced
  cases hm with
  | idle ho hseq hc =>
    obtain ⟨h1, h2, h3, h4⟩ := hc
    dsimp only
    omega
  | @tracked a x htype hnew hseq hc =>
    obtain ⟨h1, h2, h3, h4⟩ := hc.trans x.steady.2.2
    dsimp only
    rw [Std.ExtTreeMap.size_insert]
    by_cases hmem : a ∈ s.inflight
    · rw [if_pos hmem] at h4
      rw [if_pos (Std.ExtTreeMap.contains_iff_mem.mpr hmem)]
      omega
    · rw [if_neg hmem] at h4
      rw [if_neg fun hc => hmem (Std.ExtTreeMap.contains_iff_mem.mp hc)]
      omega
  | @stored a state status st hget hseq hc =>
    obtain ⟨h1, h2, h3, h4⟩ := hc
    have hmem : a ∈ s.inflight := Std.ExtTreeMap.mem_iff_isSome_getElem?.mpr (by rw [hget]; rfl)
    dsimp only
    rw [Std.ExtTreeMap.size_insert, if_pos (Std.ExtTreeMap.contains_iff_mem.mpr hmem)]
    omega
  | dropped hget hseq hc =>
    obtain ⟨h1, h2, h3, h4⟩ := hc
    have := size_erase hget
    dsimp only
    omega
  | @completed a state x hget hready htype hid hstatus hseq hc =>
    obtain ⟨h1, h2, h3, h4⟩ := hc.trans x.steady.2.2
    have := size_erase hget
    dsimp only
    omega
  | @failed a state x hget htype hid hseq hc =>
    obtain ⟨h1, h2, h3, h4⟩ := hc.trans x.steady.2.2
    have := size_erase hget
    dsimp only
    omega

/-! ## Ids -/

/-- The id of a tracked submission. -/
def Output.trackedId : Output → Option Nat
  | .submission _ id => id
  | _ => none

/-- The event id that a call of `emit` took. -/
def Emission.allocated (x : Emission) : Option Nat :=
  if x.final.sequence = x.start.sequence then none else some (x.start.sequence + 1)

def Output.eventId : Output → Option Nat
  | .emitted _ x => x.allocated
  | _ => none

def trackedIds (log : List Output) : List Nat := log.filterMap Output.trackedId
def eventIds (log : List Output) : List Nat := log.filterMap Output.eventId

theorem trackedIds_append (log outputs : List Output) :
    trackedIds (log ++ outputs) = trackedIds log ++ trackedIds outputs := List.filterMap_append
theorem eventIds_append (log outputs : List Output) :
    eventIds (log ++ outputs) = eventIds log ++ eventIds outputs := List.filterMap_append

theorem Emission.allocated_eq_some {x : Emission} {n : Nat} (h : x.allocated = some n) :
    n = x.start.sequence + 1 ∧ x.final.sequence = n := by
  unfold Emission.allocated at h
  split at h
  · cases h
  · rename_i hne
    obtain ⟨h1, h2, _⟩ := x.steady
    cases h
    exact ⟨rfl, by omega⟩

/-- The ids of a step are new: above the sequence so far, in order. -/
theorem Move.newIds {s s' : Tracker} {outputs : List Output} (h : Move s s' outputs) :
    s.probe.sequence ≤ s'.probe.sequence ∧
      (∀ id, id ∈ trackedIds outputs ∨ id ∈ eventIds outputs →
        s.probe.sequence < id ∧ id ≤ s'.probe.sequence) ∧
      (trackedIds outputs).Nodup ∧ ∀ id ∈ trackedIds outputs, id ∉ eventIds outputs := by
  -- at most one event follows a tracked submission
  have hend : ∀ (a : UInt64) (x : Emission), x.start.sequence = s.probe.sequence →
      s.probe.sequence ≤ x.final.sequence ∧
        (∀ id, id ∈ trackedIds [.emitted a x] ∨ id ∈ eventIds [.emitted a x] →
          s.probe.sequence < id ∧ id ≤ x.final.sequence) ∧
        (trackedIds [.emitted a x]).Nodup ∧
        ∀ id ∈ trackedIds [.emitted a x], id ∉ eventIds [.emitted a x] := by
    intro a x hseq
    obtain ⟨h1, _, _⟩ := x.steady
    have hnone : trackedIds [.emitted a x] = [] := rfl
    refine ⟨by omega, ?_, by rw [hnone]; exact List.nodup_nil, by simp [hnone]⟩
    intro id hid
    simp only [trackedIds, eventIds, List.mem_filterMap, List.mem_singleton, exists_eq_left,
      Output.trackedId, Output.eventId, reduceCtorEq, false_or] at hid
    obtain ⟨hn, hf⟩ := x.allocated_eq_some hid
    omega
  cases h with
  | idle ho hseq hc =>
    have hnone : trackedIds outputs = [] ∧ eventIds outputs = [] := by
      rcases ho with rfl | ⟨a, rfl⟩ <;> exact ⟨rfl, rfl⟩
    simp [hnone, hseq]
  | @tracked a x htype hnew hseq hc =>
    obtain ⟨h1, _, _⟩ := x.steady
    have htracked : trackedIds [.submission a (some x.call.urbId), .emitted a x] = [x.call.urbId] := rfl
    refine ⟨by dsimp only; omega, ?_, by rw [htracked]; simp, ?_⟩
    · intro id hid
      rw [htracked, List.mem_singleton] at hid
      simp only [eventIds, List.mem_filterMap, List.mem_cons, List.not_mem_nil, or_false,
        exists_eq_or_imp, exists_eq_left, Output.eventId, reduceCtorEq, false_or] at hid
      rcases hid with rfl | hid
      · exact ⟨hnew, by dsimp only; omega⟩
      · obtain ⟨hn, hf⟩ := x.allocated_eq_some hid
        dsimp only
        omega
    · intro id hid hev
      rw [htracked, List.mem_singleton] at hid
      simp only [eventIds, List.mem_filterMap, List.mem_cons, List.not_mem_nil, or_false,
        exists_eq_or_imp, exists_eq_left, Output.eventId, reduceCtorEq, false_or] at hev
      obtain ⟨hn, hf⟩ := x.allocated_eq_some hev
      omega
  | @stored a state status st hget hseq hc =>
    have hnone : trackedIds [.stored a status] = [] ∧ eventIds [.stored a status] = [] := ⟨rfl, rfl⟩
    simp [hnone, hseq]
  | dropped hget hseq hc => simp [trackedIds, eventIds, hseq]
  | completed hget hready htype hid hstatus hseq hc => exact hend _ _ hseq
  | failed hget htype hid hseq hc => exact hend _ _ hseq

/-- Ids are given out once, for a submission or for an event. -/
structure Unique (log : List Output) (s : Tracker) : Prop where
  bounded : ∀ id, id ∈ trackedIds log ∨ id ∈ eventIds log → id ≤ s.probe.sequence
  nodup : (trackedIds log).Nodup
  apart : ∀ id ∈ trackedIds log, id ∉ eventIds log

theorem Unique.step {log outputs : List Output} {s s' : Tracker} (h : Unique log s)
    (hm : Move s s' outputs) : Unique (log ++ outputs) s' := by
  obtain ⟨hseq, hnew, hnodup, hapart⟩ := hm.newIds
  refine ⟨?_, ?_, ?_⟩
  · intro id hid
    rw [trackedIds_append, eventIds_append, List.mem_append, List.mem_append] at hid
    rcases hid with (hid | hid) | (hid | hid)
    · exact (h.bounded id (.inl hid)).trans hseq
    · exact (hnew id (.inl hid)).2
    · exact (h.bounded id (.inr hid)).trans hseq
    · exact (hnew id (.inr hid)).2
  · rw [trackedIds_append, List.nodup_append]
    refine ⟨h.nodup, hnodup, fun id hid id' hid' heq => ?_⟩
    have h1 := h.bounded id (.inl hid)
    have h2 := (hnew id' (.inl hid')).1
    omega
  · intro id hid hev
    rw [trackedIds_append, List.mem_append] at hid
    rw [eventIds_append, List.mem_append] at hev
    rcases hid with hid | hid
    · rcases hev with hev | hev
      · exact h.apart id hid hev
      · have h1 := h.bounded id (.inl hid)
        have h2 := (hnew id (.inr hev)).1
        omega
    · rcases hev with hev | hev
      · have h1 := h.bounded id (.inr hev)
        have h2 := (hnew id (.inl hid)).1
        omega
      · exact hapart id hid hev

/-! ## The end of a URB -/

/-- Whether a call publishes the end of its URB: a C or an E event. -/
def Emission.ends (x : Emission) : Bool :=
  x.call.eventType = completeType ∨ x.call.eventType = errorType

def Output.endedId : Output → Option Nat
  | .emitted _ x => if x.ends then some x.call.urbId else none
  | _ => none

def endedIds (log : List Output) : List Nat := log.filterMap Output.endedId

theorem endedIds_append (log outputs : List Output) :
    endedIds (log ++ outputs) = endedIds log ++ endedIds outputs := List.filterMap_append

/-- After the submission of `id` on the address, a giveback stored the status,
the last one to do so. -/
def Given (log : List Output) (a : UInt64) (id : Nat) (status : Int32) : Prop :=
  ∃ before between after,
    log = before ++ .submission a (some id) :: (between ++ .stored a status :: after) ∧
      ∀ v, .stored a v ∉ after

theorem Given.append {log outputs : List Output} {a : UInt64} {id : Nat} {status : Int32}
    (h : Given log a id status) (hno : ∀ v, .stored a v ∉ outputs) :
    Given (log ++ outputs) a id status := by
  obtain ⟨before, between, after, rfl, hlast⟩ := h
  refine ⟨before, between, after ++ outputs, by simp, fun v hv => ?_⟩
  rcases List.mem_append.mp hv with hv | hv
  · exact hlast v hv
  · exact hno v hv

theorem Given.stored {log : List Output} {a : UInt64} {id : Nat} (status : Int32)
    (h : .submission a (some id) ∈ log) : Given (log ++ [.stored a status]) a id status := by
  obtain ⟨before, between, rfl⟩ := List.append_of_mem h
  exact ⟨before, between, [], by simp, by simp⟩

/-- The end of a URB follows its submission on the same address; its status is
the one a giveback stored in between. -/
def Output.Justified (past : List Output) : Output → Prop
  | .emitted a x => (x.ends → .submission a (some x.call.urbId) ∈ past) ∧
      (x.call.eventType = completeType → Given past a x.call.urbId x.call.status)
  | _ => True

/-- An id is submitted on one address only. -/
theorem submission_address {log : List Output} {a b : UInt64} {id : Nat}
    (h : (trackedIds log).Nodup) (ha : .submission a (some id) ∈ log)
    (hb : .submission b (some id) ∈ log) : a = b := by
  induction log with
  | nil => cases ha
  | cons o rest ih =>
    have hmem : ∀ c, .submission c (some id) ∈ rest → id ∈ trackedIds rest :=
      fun c hc => List.mem_filterMap.mpr ⟨_, hc, rfl⟩
    rcases List.mem_cons.mp ha with ha' | ha'
    · rcases List.mem_cons.mp hb with hb' | hb'
      · exact (Output.submission.inj (ha'.trans hb'.symm)).1
      · subst ha'
        exact absurd (hmem b hb') (List.nodup_cons.mp h).1
    · rcases List.mem_cons.mp hb with hb' | hb'
      · subst hb'
        exact absurd (hmem a ha') (List.nodup_cons.mp h).1
      · refine ih ?_ ha' hb'
        exact h.sublist ((List.sublist_cons_self o rest).filterMap _)

/-- The table holds submissions that have not ended, and every end had one. -/
structure Ends (log : List Output) (s : Tracker) : Prop where
  entry : ∀ (a : UInt64) (state : State), s.inflight[a]? = some state → .submission a (some state.id) ∈ log
  ready : ∀ (a : UInt64) (state : State), s.inflight[a]? = some state → state.ready ≠ 0 →
    Given log a state.id state.status
  running : ∀ (a : UInt64) (state : State), s.inflight[a]? = some state → state.id ∉ endedIds log
  known : ∀ id ∈ endedIds log, id ∈ trackedIds log
  once : (endedIds log).Nodup
  each : Trace.Each Output.Justified log

/-- An entry after an insertion is the new one, or was there before. -/
theorem get_of_insert {m : Std.ExtTreeMap UInt64 State} {a b : UInt64} {state state' : State}
    (h : (m.insert a state)[b]? = some state') :
    (b = a ∧ state' = state) ∨ (a ≠ b ∧ m[b]? = some state') := by
  rw [Std.ExtTreeMap.getElem?_insert] at h
  simp only [Std.compare_eq_iff_eq] at h
  split at h
  · rename_i hab
    exact .inl ⟨hab.symm, (Option.some.inj h).symm⟩
  · rename_i hne
    exact .inr ⟨hne, h⟩

/-- An entry after a removal was there before. -/
theorem get_of_erase {m : Std.ExtTreeMap UInt64 State} {a b : UInt64} {state : State}
    (h : (m.erase a)[b]? = some state) : a ≠ b ∧ m[b]? = some state := by
  rw [Std.ExtTreeMap.getElem?_erase] at h
  simp only [Std.compare_eq_iff_eq] at h
  split at h
  · cases h
  · rename_i hne
    exact ⟨hne, h⟩

namespace Ends
variable {log outputs : List Output} {s : Tracker}

/-- Outputs that store and end nothing leave the unchanged entries as they are. -/
theorem quiet {inflight : Std.ExtTreeMap UInt64 State} {st : Probe} (h : Ends log s)
    (hsame : ∀ (a : UInt64) (state : State), inflight[a]? = some state → s.inflight[a]? = some state)
    (hno : ∀ a v, .stored a v ∉ outputs) (hend : endedIds outputs = [])
    (heach : Trace.Each Output.Justified (log ++ outputs)) : Ends (log ++ outputs) ⟨inflight, st⟩ := by
  refine ⟨?_, ?_, ?_, ?_, ?_, heach⟩
  · intro a state hget
    exact List.mem_append_left _ (h.entry a state (hsame a state hget))
  · intro a state hget hready
    exact (h.ready a state (hsame a state hget) hready).append (hno a)
  · intro a state hget
    rw [endedIds_append, hend, List.append_nil]
    exact h.running a state (hsame a state hget)
  · intro id hid
    rw [endedIds_append, hend, List.append_nil] at hid
    rw [trackedIds_append]
    exact List.mem_append_left _ (h.known id hid)
  · rw [endedIds_append, hend, List.append_nil]
    exact h.once

/-- The end of a tracked URB. -/
theorem finish {a : UInt64} {state : State} {x : Emission} {st : Probe} (h : Ends log s)
    (hu : Unique log s) (hget : s.inflight[a]? = some state) (hid : x.call.urbId = state.id)
    (hends : x.ends = true)
    (hgiven : x.call.eventType = completeType → Given log a x.call.urbId x.call.status) :
    Ends (log ++ [.emitted a x]) ⟨s.inflight.erase a, st⟩ := by
  have hended : endedIds [.emitted a x] = [state.id] := by
    simp [endedIds, Output.endedId, hends, hid]
  refine ⟨?_, ?_, ?_, ?_, ?_, h.each.concat ⟨fun _ => hid ▸ h.entry a state hget, hgiven⟩⟩
  · intro b state' hb
    exact List.mem_append_left _ (h.entry b state' (get_of_erase hb).2)
  · intro b state' hb hready
    exact (h.ready b state' (get_of_erase hb).2 hready).append (by simp)
  · intro b state' hb hmem
    obtain ⟨hne, hb⟩ := get_of_erase hb
    rw [endedIds_append, hended, List.mem_append, List.mem_singleton] at hmem
    rcases hmem with hmem | hmem
    · exact h.running b state' hb hmem
    · have hsub := h.entry b state' hb
      rw [hmem] at hsub
      exact hne (submission_address hu.nodup (h.entry a state hget) hsub)
  · intro id hmem
    rw [endedIds_append, hended, List.mem_append, List.mem_singleton] at hmem
    rw [trackedIds_append]
    refine List.mem_append_left _ ?_
    rcases hmem with hmem | rfl
    · exact h.known id hmem
    · exact List.mem_filterMap.mpr ⟨_, h.entry a state hget, rfl⟩
  · rw [endedIds_append, hended, List.nodup_append]
    refine ⟨h.once, by simp, fun id hmem id' hmem' heq => ?_⟩
    rw [List.mem_singleton] at hmem'
    exact h.running a state hget (by rw [← hmem', ← heq]; exact hmem)

/-- A new entry is not ready and has not ended; the others are as before. -/
theorem track {a : UInt64} {x : Emission} (h : Ends log s) (hu : Unique log s)
    (htype : x.call.eventType = submitType) (hnew : s.probe.sequence < x.call.urbId) :
    Ends (log ++ [.submission a (some x.call.urbId), .emitted a x])
      ⟨s.inflight.insert a ⟨x.call.urbId, 0, 0⟩, x.final⟩ := by
  have hends : x.ends = false := by simp [Emission.ends, htype, submitType, completeType, errorType]
  have hended : endedIds [.submission a (some x.call.urbId), .emitted a x] = [] := by
    simp [endedIds, Output.endedId, hends]
  have hfresh : x.call.urbId ∉ endedIds log := by
    intro hmem
    have := hu.bounded _ (.inl (h.known _ hmem))
    omega
  have heach : Trace.Each Output.Justified
      (log ++ [.submission a (some x.call.urbId), .emitted a x]) := by
    have h1 : Trace.Each Output.Justified (log ++ [.submission a (some x.call.urbId)]) :=
      h.each.concat trivial
    have hjust : Output.Justified (log ++ [.submission a (some x.call.urbId)]) (.emitted a x) := by
      refine ⟨by simp [hends], fun hcomplete => ?_⟩
      rw [htype] at hcomplete
      exact absurd hcomplete (by decide)
    have h2 := h1.concat hjust
    rwa [List.append_assoc] at h2
  have hrest : Ends (log ++ [.submission a (some x.call.urbId), .emitted a x])
      ⟨s.inflight, x.final⟩ := h.quiet (fun _ _ hg => hg) (by simp) hended heach
  refine ⟨?_, ?_, ?_, hrest.known, hrest.once, heach⟩
  · intro b state hg
    rcases get_of_insert hg with ⟨rfl, rfl⟩ | ⟨-, hg⟩
    · simp
    · exact hrest.entry b state hg
  · intro b state hg hready
    rcases get_of_insert hg with ⟨-, rfl⟩ | ⟨-, hg⟩
    · exact absurd rfl hready
    · exact hrest.ready b state hg hready
  · intro b state hg
    rcases get_of_insert hg with ⟨-, rfl⟩ | ⟨-, hg⟩
    · rw [endedIds_append, hended, List.append_nil]
      exact hfresh
    · exact hrest.running b state hg

/-- A giveback makes its entry ready. -/
theorem store {a : UInt64} {state : State} {status : Int32} {st : Probe} (h : Ends log s)
    (hget : s.inflight[a]? = some state) : Ends (log ++ [.stored a status])
      ⟨s.inflight.insert a { state with status := status, ready := 1 }, st⟩ := by
  have hended : endedIds [.stored a status] = [] := rfl
  refine ⟨?_, ?_, ?_, ?_, ?_, h.each.concat trivial⟩
  · intro b state' hg
    rcases get_of_insert hg with ⟨rfl, rfl⟩ | ⟨_, hg⟩
    · exact List.mem_append_left _ (h.entry b state hget)
    · exact List.mem_append_left _ (h.entry b state' hg)
  · intro b state' hg hready
    rcases get_of_insert hg with ⟨rfl, rfl⟩ | ⟨hne, hg⟩
    · exact Given.stored status (h.entry b state hget)
    · exact (h.ready b state' hg hready).append (by simp [Ne.symm hne])
  · intro b state' hg
    rw [endedIds_append, hended, List.append_nil]
    rcases get_of_insert hg with ⟨rfl, rfl⟩ | ⟨_, hg⟩
    · exact h.running b state hget
    · exact h.running b state' hg
  · intro id hid
    rw [endedIds_append, hended, List.append_nil] at hid
    rw [trackedIds_append]
    exact List.mem_append_left _ (h.known id hid)
  · rw [endedIds_append, hended, List.append_nil]
    exact h.once

theorem step {s' : Tracker} (h : Ends log s) (hu : Unique log s) (hm : Move s s' outputs) :
    Ends (log ++ outputs) s' := by
  cases hm with
  | idle ho hseq hc =>
    rcases ho with rfl | ⟨a, rfl⟩
    · refine h.quiet (fun _ _ hg => hg) (by simp) rfl ?_
      rw [List.append_nil]
      exact h.each
    · exact h.quiet (fun _ _ hg => hg) (by simp) rfl (h.each.concat trivial)
  | tracked htype hnew hseq hc => exact h.track hu htype hnew
  | stored hget hseq hc => exact h.store hget
  | dropped hget hseq hc =>
    refine h.quiet (fun _ _ hg => (get_of_erase hg).2) (by simp) rfl ?_
    rw [List.append_nil]
    exact h.each
  | @completed a state x hget hready htype hid hstatus hseq hc =>
    refine h.finish hu hget hid (by simp [Emission.ends, htype]) fun _ => ?_
    rw [hid, hstatus]
    exact h.ready a state hget hready
  | @failed a state x hget htype hid hseq hc =>
    refine h.finish hu hget hid (by simp [Emission.ends, htype]) fun hcomplete => ?_
    rw [htype] at hcomplete
    exact absurd hcomplete (by decide)

end Ends

/-- **URB tracking.** In any order of hooks, over any addresses and with any
failures: ids are given out once, an id ends at most once, after its submission
and on its address, a completion carries the status of the last giveback, and
the counters account for every submission. -/
theorem hooks_track_urbs (faults : List Bool) (steps : List (Scene × Hook)) :
    let s := ((Tracker.fresh faults).run steps).1
    let log := ((Tracker.fresh faults).run steps).2
    ((trackedIds log).Nodup ∧ ∀ id ∈ trackedIds log, id ∉ eventIds log) ∧
      ((endedIds log).Nodup ∧ ∀ i a x, log[i]? = some (.emitted a x) → x.ends = true →
        .submission a (some x.call.urbId) ∈ log.take i) ∧
      (∀ i a x, log[i]? = some (.emitted a x) → x.call.eventType = completeType →
        Given (log.take i) a x.call.urbId x.call.status) ∧
      s.probe.stats.completed + s.probe.stats.submitErrors + s.inflight.size ≤
        s.probe.stats.submitted ∧
      s.probe.stats.submitted ≤ s.probe.stats.completed + s.probe.stats.submitErrors +
        s.inflight.size + s.probe.stats.stateErrors := by
  intro s log
  have hstart : Unique [] (Tracker.fresh faults) ∧ Ends [] (Tracker.fresh faults) ∧
      Balanced (Tracker.fresh faults) := by
    have hnone : ∀ (a : UInt64) (state : State), (Tracker.fresh faults).inflight[a]? ≠ some state := by
      intro a state
      simp [Tracker.fresh]
    refine ⟨⟨by simp [trackedIds, eventIds], by simp [trackedIds], by simp [trackedIds]⟩,
      ⟨fun a state hg => absurd hg (hnone a state), fun a state hg => absurd hg (hnone a state),
        fun a state hg => absurd hg (hnone a state), by simp [endedIds], by simp [endedIds],
        Trace.Each.nil⟩, by simp [Balanced, Tracker.fresh]⟩
  obtain ⟨hunique, hends, hbalanced⟩ : Unique log s ∧ Ends log s ∧ Balanced s :=
    @Trace.run_rule Tracker (Scene × Hook) Output Tracker.step
      (fun log s => Unique log s ∧ Ends log s ∧ Balanced s) _ hstart
      (fun log s x h => ⟨h.1.step (step_move s x), h.2.1.step h.1 (step_move s x),
        h.2.2.step (step_move s x)⟩) steps
  refine ⟨⟨hunique.nodup, hunique.apart⟩, ⟨hends.once, fun i a x hi => ?_⟩, fun i a x hi => ?_,
    hbalanced⟩
  · exact (hends.each i _ hi).1
  · exact (hends.each i _ hi).2

end UsbScope.Ebpf
