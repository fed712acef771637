import UsbScope.Ebpf.Tracking

/-! # Whose completion it is

The memory of a URB is reused, so an entry of `INFLIGHT` can outlive its URB when
a completion was missed. A tracked submission replaces it. One that is left
untracked does not, and the next completion then goes to the old id. -/
namespace UsbScope.Ebpf
open UsbScope.Lib UsbScope.Common

/-- The address that a submission was observed on. -/
def Output.submitted : Output → Option UInt64
  | .submission address _ => some address
  | _ => none

/-- The end of a URB carries the id of the latest submission on its address. -/
def Attributed (past : List Output) (o : Output) : Prop :=
  ∀ a x, o = .emitted a x → x.ends = true →
    Trace.latest Output.submitted past a = some (.submission a (some x.call.urbId))

/-- The early returns of `submit`. -/
inductive Untracked (scene : Scene) (address : UInt64) (s : Tracker) : Prop
  | disabled (h : scene.config.enabled = 0)
  | unreadable (h : s.probe.fails.1 = true ∨
      coreReadUrb scene.urb { EventMeta.zero with eventType := submitType } = none)
  | rejected {m : EventMeta} {buffer : UInt64} {sg : UInt32}
      (hread : coreReadUrb scene.urb { EventMeta.zero with eventType := submitType } =
        some (m, buffer, sg))
      (h : selected m scene.config = false ∨
        (prefilter scene.filters m scene.config.filterCount s.probe.fails.2).1 = false)
  | notInserted {m : EventMeta} {buffer : UInt64} {sg : UInt32}
      (hread : coreReadUrb scene.urb { EventMeta.zero with eventType := submitType } =
        some (m, buffer, sg))
      (h : (prefilter scene.filters m scene.config.filterCount s.probe.fails.2).2.fails.1 = true ∨
        (address ∉ s.inflight ∧ maxInflight ≤ s.inflight.size))

/-- No submission is left untracked while its address has an entry. -/
def Replaces (s : Tracker) (x : Scene × Hook) : Prop :=
  ∀ address, x.2 = .submit address → address ∈ s.inflight → ¬ Untracked x.1 address s

/-! ## Steps -/

theorem Probe.fails_congr {st st' : Probe} (h : st.faults = st'.faults) :
    st.fails.1 = st'.fails.1 := by
  unfold Probe.fails
  rw [h]
  split <;> rfl

/-- A submission without an id is an early return of `submit`. -/
theorem untracked_of_track {scene : Scene} {address a : UInt64} {s : Tracker} {st : Probe}
    (h : .submission a none ∈ (Tracker.track scene address s st).2) :
    a = address ∧ (st.fails.1 = true ∨ (address ∉ s.inflight ∧ maxInflight ≤ s.inflight.size)) := by
  unfold Tracker.track at h
  dsimp only [Probe.nextId] at h
  generalize hu : (if address ∈ s.inflight then Probe.count 6 _ else _ : Probe) = u at h
  have hfaults : u.faults = st.faults := by
    rw [← hu]
    split <;> rfl
  unfold Tracker.insert at h
  generalize hf : u.fails = f at h
  obtain ⟨fault, v⟩ := f
  have hfault : st.fails.1 = fault := by
    rw [Probe.fails_congr hfaults.symm, hf]
  cases fault with
  | true =>
    have ha : a = address := by simpa using h
    exact ⟨ha, .inl hfault⟩
  | false =>
    dsimp only at h
    split at h
    · rename_i hnone
      split at hnone
      · rename_i hfull
        have ha : a = address := by simpa using h
        exact ⟨ha, .inr hfull⟩
      · cases hnone
    · simp [Tracker.emit] at h

theorem untracked_of_submit {scene : Scene} {address a : UInt64} {s : Tracker}
    (h : .submission a none ∈ (Tracker.submit scene address s).2) :
    a = address ∧ Untracked scene address s := by
  have hsame : .submission a none ∈ [Output.submission address none] → a = address := by
    intro hmem
    simpa using hmem
  unfold Tracker.submit at h
  split at h
  · rename_i hoff
    exact ⟨hsame h, .disabled hoff⟩
  generalize hf : s.probe.fails = f at h
  obtain ⟨fault, st⟩ := f
  cases fault with
  | true => exact ⟨hsame h, .unreadable (.inl (by rw [hf]))⟩
  | false =>
    dsimp only at h
    cases hread : coreReadUrb scene.urb { EventMeta.zero with eventType := submitType } with
    | none =>
      rw [hread] at h
      exact ⟨hsame h, .unreadable (.inr hread)⟩
    | some q =>
      obtain ⟨m, buffer, sg⟩ := q
      rw [hread] at h
      dsimp only at h
      split at h
      · rename_i hsel
        exact ⟨hsame h, .rejected hread (.inl (by simpa using hsel))⟩
      generalize hp : prefilter _ _ _ _ = q at h
      obtain ⟨accepted, u⟩ := q
      have hp' : prefilter scene.filters m scene.config.filterCount s.probe.fails.2 =
          (accepted, u) := by
        rw [hf]
        exact hp
      cases accepted with
      | false => exact ⟨hsame h, .rejected hread (.inr (by rw [hp']))⟩
      | true =>
        obtain ⟨ha, hins⟩ := untracked_of_track h
        exact ⟨ha, .notInserted hread (by rw [hp']; exact hins)⟩

/-- The other hooks see no submission. -/
theorem submitted_submitError (scene : Scene) (address : UInt64) (ret : Option Int32) (s : Tracker) :
    ∀ o ∈ (Tracker.submitError scene address ret s).2, o.submitted = none := by
  unfold Tracker.submitError
  cases ret with
  | none => simp
  | some status =>
    dsimp only
    split
    · cases s.inflight[address]? with
      | none => simp
      | some state => simp [Tracker.emit, Output.submitted]
    · simp

theorem submitted_giveback (scene : Scene) (address : UInt64) (s : Tracker) :
    ∀ o ∈ (Tracker.giveback scene address s).2, o.submitted = none := by
  unfold Tracker.giveback
  cases s.inflight[address]? with
  | none => simp
  | some state =>
    dsimp only
    obtain ⟨fault, st⟩ := s.probe.fails
    cases fault with
    | true => simp
    | false => simp [Output.submitted]

theorem submitted_complete (scene : Scene) (caller : UInt64) (address : Option UInt64)
    (s : Tracker) : ∀ o ∈ (Tracker.complete scene caller address s).2, o.submitted = none := by
  unfold Tracker.complete
  split
  · simp
  cases address with
  | none => simp
  | some address =>
    dsimp only
    cases s.inflight[address]? with
    | none => simp
    | some state =>
      dsimp only
      split
      · simp
      · simp [Tracker.emit, Output.submitted]

/-- A submission is seen untracked only by `submit`, on an early return. -/
theorem untracked_of_step {s : Tracker} {x : Scene × Hook} {a : UInt64}
    (h : .submission a none ∈ (s.step x).2) : x.2 = .submit a ∧ Untracked x.1 a s := by
  obtain ⟨scene, hook⟩ := x
  cases hook with
  | submit address =>
    obtain ⟨rfl, hun⟩ := untracked_of_submit h
    exact ⟨rfl, hun⟩
  | submitError address ret => cases submitted_submitError scene address ret s _ h
  | giveback address => cases submitted_giveback scene address s _ h
  | complete caller address => cases submitted_complete scene caller address s _ h

/-! ## Runs -/

/-- Every entry belongs to the latest submission on its address. -/
structure Owned (log : List Output) (s : Tracker) : Prop where
  entry : ∀ (a : UInt64) (state : State), s.inflight[a]? = some state →
    Trace.latest Output.submitted log a = some (.submission a (some state.id))
  each : Trace.Each Attributed log

namespace Owned
variable {log : List Output} {s : Tracker}

/-- An output that is no submission leaves the latest one alone. -/
theorem latest_other {o : Output} (ho : o.submitted = none) (a : UInt64) :
    Trace.latest Output.submitted (log ++ [o]) a = Trace.latest Output.submitted log a := by
  rw [Trace.latest_concat, ho, if_neg (by simp)]

theorem attributed_other {o : Output} (ho : ∀ a x, o ≠ .emitted a x) : Attributed log o :=
  fun a x heq => absurd heq (ho a x)

/-- The end of an entry's URB. -/
theorem finish {a : UInt64} {state : State} {x : Emission} {st : Probe} (h : Owned log s)
    (hget : s.inflight[a]? = some state) (hid : x.call.urbId = state.id) :
    Owned (log ++ [.emitted a x]) ⟨s.inflight.erase a, st⟩ := by
  refine ⟨fun b state' hb => ?_, h.each.concat fun a' x' heq _ => ?_⟩
  · rw [latest_other rfl]
    exact h.entry b state' (get_of_erase hb).2
  · cases heq
    rw [hid]
    exact h.entry a state hget

theorem step {x : Scene × Hook} (h : Owned log s) (hx : Replaces s x) :
    Owned (log ++ (s.step x).2) (s.step x).1 := by
  have huntracked : ∀ a, .submission a none ∈ (s.step x).2 → a ∉ s.inflight := by
    intro a ha hmem
    obtain ⟨hsub, hun⟩ := untracked_of_step ha
    exact hx a hsub hmem hun
  have hm := step_move s x
  revert huntracked hm
  generalize (s.step x).2 = outputs
  generalize (s.step x).1 = s'
  intro huntracked hm
  cases hm with
  | idle ho hseq hc =>
    rcases ho with rfl | ⟨a, rfl⟩
    · rw [List.append_nil]
      exact ⟨h.entry, h.each⟩
    · have hnew := huntracked a List.mem_cons_self
      refine ⟨fun b state hb => ?_, h.each.concat (attributed_other (by simp))⟩
      have hne : a ≠ b := by
        rintro rfl
        exact hnew (Std.ExtTreeMap.mem_iff_isSome_getElem?.mpr (by rw [hb]; rfl))
      rw [Trace.latest_concat, Output.submitted, if_neg (by simpa using hne)]
      exact h.entry b state hb
  | @tracked a x htype hnew hseq hc =>
    have hlatest : ∀ b, Trace.latest Output.submitted
        (log ++ [.submission a (some x.call.urbId), .emitted a x]) b =
        if a = b then some (.submission a (some x.call.urbId))
        else Trace.latest Output.submitted log b := by
      intro b
      rw [show log ++ [.submission a (some x.call.urbId), .emitted a x] =
        (log ++ [.submission a (some x.call.urbId)]) ++ [.emitted a x] by simp,
        latest_other rfl, Trace.latest_concat]
      simp only [Output.submitted, Option.some.injEq]
    refine ⟨fun b state hb => ?_, ?_⟩
    · rw [hlatest]
      rcases get_of_insert hb with ⟨rfl, rfl⟩ | ⟨hne, hb⟩
      · rw [if_pos rfl]
      · rw [if_neg hne]
        exact h.entry b state hb
    · have h1 : Trace.Each Attributed (log ++ [.submission a (some x.call.urbId)]) :=
        h.each.concat (attributed_other (by simp))
      have h2 := h1.concat (o := .emitted a x) fun a' x' heq hends => by
        cases heq
        simp [Emission.ends, htype, submitType, completeType, errorType] at hends
      rwa [List.append_assoc] at h2
  | @stored a state status st hget hseq hc =>
    refine ⟨fun b state' hb => ?_, h.each.concat (attributed_other (by simp))⟩
    rw [latest_other rfl]
    rcases get_of_insert hb with ⟨rfl, rfl⟩ | ⟨-, hb⟩
    · exact h.entry b state hget
    · exact h.entry b state' hb
  | @dropped a state st hget hseq hc =>
    rw [List.append_nil]
    exact ⟨fun b state' hb => h.entry b state' (get_of_erase hb).2, h.each⟩
  | @completed a state x hget hready htype hid hstatus hseq hc => exact h.finish hget hid
  | @failed a state x hget htype hid hseq hc => exact h.finish hget hid

end Owned

/-- **Completions go to their own submission.** In any order of hooks in which
no submission is left untracked while its address has an entry, every C or E
event carries the id of the latest submission on its address; none is emitted
while that submission is untracked. -/
theorem completions_attributed (faults : List Bool) {steps : List (Scene × Hook)}
    (h : Trace.Guarded Tracker.step Replaces (Tracker.fresh faults) steps) :
    Trace.Each Attributed ((Tracker.fresh faults).run steps).2 := by
  have hstart : Owned [] (Tracker.fresh faults) := by
    refine ⟨fun a state ha => ?_, Trace.Each.nil⟩
    simp [Tracker.fresh] at ha
  exact (Trace.run_guarded hstart (fun log s x hlog hx => hlog.step hx) h).each

/-- A bulk OUT URB of a device, while only device 2 is captured. -/
def bulkScene (device : Int32) : Scene :=
  { kernel := bulkOutCall.kernel
    config := { bulkOutCall.config with device := 2, givebackEnd := 8 }
    filters := []
    now := 5
    urb := { bulkOutCall.urb with devnum := device } }

/-- A URB from its submission to its completion. -/
def bulkSteps : List (Scene × Hook) :=
  [(bulkScene 2, .submit 1), (bulkScene 2, .giveback 1), (bulkScene 2, .complete 4 (some 1))]

/-- While no helper fails, a URB of device 2 is tracked if its address has an entry. -/
theorem tracked_bulkScene {s : Tracker} (hfaults : s.probe.faults = []) {address : UInt64}
    (hmem : address ∈ s.inflight) : ¬ Untracked (bulkScene 2) address s := by
  have hfails : s.probe.fails = (false, s.probe) := by
    unfold Probe.fails
    rw [hfaults]
  have hfilter : ∀ m, prefilter (bulkScene 2).filters m (bulkScene 2).config.filterCount s.probe =
      (true, s.probe) := fun m => if_pos rfl
  intro h
  cases h with
  | disabled h => cases h
  | unreadable h =>
    rw [hfails] at h
    rcases h with h | h <;> cases h
  | rejected hread h =>
    rw [hfails, hfilter] at h
    rcases h with h | h
    · cases hread
      cases h
    · cases h
  | notInserted hread h =>
    rw [hfails, hfilter, hfails] at h
    rcases h with h | h
    · cases h
    · exact h.1 hmem

/-- A step that replaces what it finds, while no helper fails. -/
theorem replaces_bulkScene {s : Tracker} (hfaults : s.probe.faults = []) (hook : Hook) :
    Replaces s (bulkScene 2, hook) := fun _ _ hmem => tracked_bulkScene hfaults hmem

/-- The completion is missed, and the URB is submitted again. -/
def resubmitSteps : List (Scene × Hook) :=
  [(bulkScene 2, .submit 1), (bulkScene 2, .submit 1), (bulkScene 2, .giveback 1),
    (bulkScene 2, .complete 4 (some 1))]

theorem completions_attributed_resubmitted :
    (∃ x, ((Tracker.fresh []).run resubmitSteps).2[5]? = some (.emitted 1 x) ∧ x.ends = true ∧
      x.call.urbId = 3) ∧
      Trace.latest Output.submitted (((Tracker.fresh []).run resubmitSteps).2.take 5) 1 =
        some (.submission 1 (some 3)) := by
  have hguard : Trace.Guarded Tracker.step Replaces (Tracker.fresh []) resubmitSteps :=
    .cons (replaces_bulkScene rfl _) (.cons (replaces_bulkScene rfl _)
      (.cons (replaces_bulkScene rfl _) (.cons (replaces_bulkScene rfl _) .nil)))
  exact ⟨⟨_, rfl, rfl, rfl⟩, completions_attributed [] hguard 5 _ rfl 1 _ rfl rfl⟩

/-- The completion was missed, and the memory of the URB is reused for a device
that is not captured. -/
def missedSteps : List (Scene × Hook) :=
  [(bulkScene 2, .submit 1), (bulkScene 3, .submit 1), (bulkScene 3, .giveback 1),
    (bulkScene 3, .complete 4 (some 1))]

/-- The completion of an untracked submission is emitted under the old id. -/
theorem stale_completion :
    (∃ x, ((Tracker.fresh []).run missedSteps).2[4]? = some (.emitted 1 x) ∧ x.ends = true ∧
      x.call.urbId = 1) ∧
      Trace.latest Output.submitted (((Tracker.fresh []).run missedSteps).2.take 4) 1 =
        some (.submission 1 none) ∧
      ¬ Trace.Each Attributed ((Tracker.fresh []).run missedSteps).2 := by
  have hlatest : Trace.latest Output.submitted (((Tracker.fresh []).run missedSteps).2.take 4) 1 =
      some (.submission 1 none) := rfl
  refine ⟨⟨_, rfl, rfl, rfl⟩, hlatest, fun h => ?_⟩
  have hid := h 4 _ rfl 1 _ rfl rfl
  rw [hlatest] at hid
  cases hid

end UsbScope.Ebpf
