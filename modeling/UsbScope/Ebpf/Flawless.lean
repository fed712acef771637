import UsbScope.Ebpf.Ledger

/-! # Steps that lose nothing

While no loss and no state error is counted, every failure scripted for the
hooks had no effect: a submission is tracked unless capture is disabled or the
selection refuses it, and any other hook has its effect on the entry of its
address, if there is one. -/
namespace UsbScope.Ebpf
open UsbScope.Lib UsbScope.Common

/-! ## Counters at zero -/

/-- Nothing was lost so far. -/
structure Probe.Clean (st : Probe) : Prop where
  losses : st.losses = 0
  errors : st.stats.stateErrors = 0

theorem Probe.Clean.of_le {st st' : Probe} (h : st'.Clean) (hl : st.losses ≤ st'.losses)
    (he : st.stats.stateErrors ≤ st'.stats.stateErrors) : st.Clean := by
  obtain ⟨h1, h2⟩ := h
  exact ⟨by omega, by omega⟩

theorem not_clean_read (st : Probe) : ¬ (st.count 4).Clean := by
  rintro ⟨h, -⟩
  change _ + (st.stats.readErrors + 1) + _ = 0 at h
  omega

theorem not_clean_state (st : Probe) : ¬ (st.count 6).Clean := by
  rintro ⟨-, h⟩
  exact Nat.succ_ne_zero _ h

theorem Move.errors {s s' : Tracker} {outputs : List Output} (h : Move s s' outputs) :
    s.probe.stats.stateErrors ≤ s'.probe.stats.stateErrors := by
  have hle : ∀ {s s' : CaptureStats} {a b c d : Nat}, Counts s s' a b c d →
      s.stateErrors ≤ s'.stateErrors := fun hc => hc.stateErrors ▸ Nat.le_add_right _ _
  cases h with
  | idle _ _ hc => exact hle hc
  | @tracked _ x _ _ _ hc => exact hle (hc.trans x.steady.2.2)
  | stored _ _ hc => exact hle hc
  | dropped _ _ hc => exact hle hc
  | @completed _ _ x _ _ _ _ _ _ hc => exact hle (hc.trans x.steady.2.2)
  | @failed _ _ x _ _ _ _ hc => exact hle (hc.trans x.steady.2.2)

/-- No counter goes back. -/
theorem clean_of_step {s : Tracker} {x : Scene × Hook} (h : (s.step x).1.probe.Clean) :
    s.probe.Clean := by
  refine h.of_le ?_ (step_move s x).errors
  cases step_publishes s x with
  | nothing _ hsilent => exact hsilent.losses
  | @event y _ hsilent hfinal _ =>
    have htotal : y.final.losses = y.start.losses + y.lost := y.emits.total
    have hsl := hsilent.losses
    rw [hfinal]
    omega

theorem clean_of_run {s : Tracker} {steps : List (Scene × Hook)} (h : (s.run steps).1.probe.Clean) :
    s.probe.Clean := by
  induction steps using List.reverseRecOn with
  | nil => exact h
  | append_singleton steps x ih =>
    rw [Tracker.run, Trace.run_concat] at h
    exact ih (clean_of_step h)

theorem sequence_le_run (s : Tracker) (steps : List (Scene × Hook)) :
    s.probe.sequence ≤ (s.run steps).1.probe.sequence := by
  induction steps using List.reverseRecOn with
  | nil => exact le_rfl
  | append_singleton steps x ih =>
    rw [Tracker.run, Trace.run_concat]
    exact ih.trans (step_move _ x).newIds.1

/-! ## Effects -/

/-- What a hook does to the entry of a tracked URB. -/
inductive Effect where
  | nothing
  | store (address : UInt64) (status : Int32)
  /-- The entry goes, and the call is the last of its URB. -/
  | finish (address : UInt64) (call : State → Call)

/-- The effect of a hook; submissions have their own. -/
def Scene.effect (scene : Scene) : Hook → Effect
  | .submit _ => .nothing
  | .submitError _ none => .nothing
  | .submitError address (some status) =>
    if status < 0 then .finish address fun state => scene.call state.id errorType status
    else .nothing
  | .giveback address => .store address (coreCompletionStatus scene.urb)
  | .complete caller address =>
    if caller < scene.config.givebackStart ∨ scene.config.givebackEnd ≤ caller then .nothing
    else
      match address with
      | none => .nothing
      | some address =>
        .finish address fun state => scene.call state.id completeType state.status

/-- The table after an effect, and the call of `emit`. -/
def Effect.apply (inflight : Std.ExtTreeMap UInt64 State) :
    Effect → Std.ExtTreeMap UInt64 State × List Call
  | .nothing => (inflight, [])
  | .store address status =>
    match inflight[address]? with
    | none => (inflight, [])
    | some state => (inflight.insert address { state with status := status, ready := 1 }, [])
  | .finish address call =>
    match inflight[address]? with
    | none => (inflight, [])
    | some state => (inflight.erase address, [call state])

/-- What becomes of the entry of an address. -/
def Effect.entry (b : UInt64) (entry : Option State) : Effect → Option State
  | .nothing => entry
  | .store a status =>
    if a = b then entry.map fun state => { state with status := status, ready := 1 } else entry
  | .finish a _ => if a = b then none else entry

/-- The calls, given the entries. -/
def Effect.calls (entry : UInt64 → Option State) : Effect → List Call
  | .finish a call => ((entry a).map call).toList
  | _ => []

theorem get_insert (inflight : Std.ExtTreeMap UInt64 State) (a b : UInt64) (state : State) :
    (inflight.insert a state)[b]? = if a = b then some state else inflight[b]? := by
  rw [Std.ExtTreeMap.getElem?_insert]
  simp only [Std.compare_eq_iff_eq]

theorem get_erase (inflight : Std.ExtTreeMap UInt64 State) (a b : UInt64) :
    (inflight.erase a)[b]? = if a = b then none else inflight[b]? := by
  rw [Std.ExtTreeMap.getElem?_erase]
  simp only [Std.compare_eq_iff_eq]

/-- An effect changes the entry of its address. -/
theorem apply_get (e : Effect) (inflight : Std.ExtTreeMap UInt64 State) (b : UInt64) :
    (e.apply inflight).1[b]? = e.entry b inflight[b]? := by
  have hsame : ∀ a, inflight[a]? = none → a = b → inflight[b]? = none := by
    rintro a hget rfl
    exact hget
  cases e with
  | nothing => rfl
  | store a status =>
    dsimp only [Effect.apply, Effect.entry]
    cases hget : inflight[a]? with
    | none =>
      dsimp only
      split
      · rename_i hab
        rw [hsame a hget hab]
        rfl
      · rfl
    | some state =>
      dsimp only
      rw [get_insert]
      split
      · rename_i hab
        rw [← hab, hget]
        rfl
      · rfl
  | finish a call =>
    dsimp only [Effect.apply, Effect.entry]
    cases hget : inflight[a]? with
    | none =>
      dsimp only
      split
      · rename_i hab
        exact hsame a hget hab
      · rfl
    | some state => exact get_erase inflight a b

theorem apply_calls (e : Effect) (inflight : Std.ExtTreeMap UInt64 State) :
    (e.apply inflight).2 = e.calls fun a => inflight[a]? := by
  cases e with
  | nothing => rfl
  | store a status =>
    dsimp only [Effect.apply, Effect.calls]
    cases inflight[a]? <;> rfl
  | finish a call =>
    dsimp only [Effect.apply, Effect.calls]
    cases inflight[a]? <;> rfl

/-- The calls of a trace. -/
def callsOf (log : List Output) : List Call := (emissions log).map Emission.call

theorem callsOf_append (log outputs : List Output) :
    callsOf (log ++ outputs) = callsOf log ++ callsOf outputs := by
  rw [callsOf, emissions_append, List.map_append]
  rfl

/-- A clean step has the effect of its hook. -/
theorem step_effect {s : Tracker} {scene : Scene} {hook : Hook} (hsubmit : ∀ a, hook ≠ .submit a)
    (h : (s.step (scene, hook)).1.probe.Clean) :
    ((s.step (scene, hook)).1.inflight, callsOf (s.step (scene, hook)).2) =
      (scene.effect hook).apply s.inflight := by
  cases hook with
  | submit a => exact absurd rfl (hsubmit a)
  | submitError a ret =>
    change (Tracker.submitError scene a ret s).1.probe.Clean at h
    change ((Tracker.submitError scene a ret s).1.inflight,
      callsOf (Tracker.submitError scene a ret s).2) = _
    unfold Tracker.submitError at h ⊢
    cases ret with
    | none => exact absurd h (not_clean_state _)
    | some status =>
      dsimp only [Scene.effect]
      split
      · cases hget : s.inflight[a]? with
        | none => simp only [Effect.apply, hget]; rfl
        | some state => simp only [Effect.apply, hget]; rfl
      · rfl
  | giveback a =>
    change (Tracker.giveback scene a s).1.probe.Clean at h
    change ((Tracker.giveback scene a s).1.inflight, callsOf (Tracker.giveback scene a s).2) = _
    unfold Tracker.giveback at h ⊢
    cases hget : s.inflight[a]? with
    | none => simp only [Scene.effect, Effect.apply, hget]; rfl
    | some state =>
      rw [hget] at h
      simp only [Scene.effect, Effect.apply, hget]
      generalize s.probe.fails = f at h
      obtain ⟨fault, t⟩ := f
      cases fault with
      | true => exact absurd h (not_clean_read t)
      | false => rfl
  | complete caller address =>
    change (Tracker.complete scene caller address s).1.probe.Clean at h
    change ((Tracker.complete scene caller address s).1.inflight,
      callsOf (Tracker.complete scene caller address s).2) = _
    unfold Tracker.complete at h ⊢
    dsimp only [Scene.effect]
    split
    · rfl
    rename_i hinside
    rw [if_neg hinside] at h
    cases address with
    | none => exact absurd h (not_clean_state _)
    | some a =>
      dsimp only at h ⊢
      cases hget : s.inflight[a]? with
      | none => simp only [Effect.apply, hget]; rfl
      | some state =>
        rw [hget] at h
        simp only [Effect.apply, hget] at h ⊢
        split
        · rename_i hready
          rw [if_pos hready] at h
          exact absurd h (not_clean_state _)
        · rfl

/-! ## Submissions -/

/-- What the submission hook reads. -/
def Urb.submission (urb : Urb) : Option (EventMeta × UInt64 × UInt32) :=
  coreReadUrb urb { EventMeta.zero with eventType := submitType }

/-- The kernel part of the selection refuses the submission, in some state of
the probe. -/
def Scene.Refuses (scene : Scene) (m : EventMeta) : Prop :=
  selected m scene.config = false ∨
    ∃ st, (prefilter scene.filters m scene.config.filterCount st).1 = false

/-- A clean submission that is tracked. -/
structure TracksNew (s : Tracker) (scene : Scene) (a : UInt64) (s' : Tracker) (calls : List Call)
    (id : Nat) : Prop where
  absent : a ∉ s.inflight
  room : s.inflight.size < maxInflight
  inserted : s'.inflight = s.inflight.insert a ⟨id, 0, 0⟩
  emitted : calls = [scene.call id submitType (-115)]
  above : s.probe.sequence < id
  below : id ≤ s'.probe.sequence

theorem track_clean {s : Tracker} {scene : Scene} {a : UInt64} {st : Probe}
    (hem : Emits s.probe st [] 0) (h : (Tracker.track scene a s st).1.probe.Clean) :
    TracksNew s scene a (Tracker.track scene a s st).1 (callsOf (Tracker.track scene a s st).2)
      (st.sequence + 1) := by
  have hmove := (@track_move s scene a st [] 0 hem).newIds.1
  unfold Tracker.track at h hmove ⊢
  dsimp only [Probe.nextId] at h hmove ⊢
  generalize hu : (if a ∈ s.inflight then Probe.count 6 _ else _ : Probe) = u at h hmove ⊢
  have huseq : u.sequence = st.sequence + 1 := by
    rw [← hu]
    split <;> rfl
  unfold Tracker.insert at h hmove ⊢
  generalize hf : u.fails = f at h hmove ⊢
  obtain ⟨fault, v⟩ := f
  have hv := Emits.fails hf
  cases fault with
  | true => exact absurd h (not_clean_state v)
  | false =>
    dsimp only at h ⊢
    by_cases hfull : a ∉ s.inflight ∧ maxInflight ≤ s.inflight.size
    · rw [if_pos hfull] at h
      exact absurd h (not_clean_state v)
    · rw [if_neg hfull] at h ⊢
      have hseq := hem.sequence
      have hvseq := hv.sequence
      obtain ⟨hlow, -, hcounts⟩ :=
        Emission.steady ⟨scene.call (st.sequence + 1) submitType (-115), v.count 0⟩
      have habsent : a ∉ s.inflight := by
        -- an old entry would have been counted
        intro hmem
        rw [if_pos hmem] at hu
        have herrors : v.stats.stateErrors = 0 := hcounts.stateErrors.symm.trans h.errors
        have hold := hv.counts.stateErrors
        rw [herrors, ← hu] at hold
        exact Nat.succ_ne_zero _ hold.symm
      refine ⟨habsent, Nat.not_le.mp fun hle => hfull ⟨habsent, hle⟩, rfl, rfl, by omega, ?_⟩
      change v.sequence ≤ _ at hlow
      exact (hvseq.trans huseq).symm.le.trans hlow

/-- A clean submission is tracked, or capture is disabled, or it is refused. -/
theorem submit_clean {s : Tracker} {scene : Scene} {a : UInt64}
    (h : (s.step (scene, .submit a)).1.probe.Clean) :
    ((s.step (scene, .submit a)).1.inflight = s.inflight ∧
      (s.step (scene, .submit a)).2 = [.submission a none] ∧
      (scene.config.enabled = 0 ∨ ∃ m buffer sg, scene.urb.submission = some (m, buffer, sg) ∧
        scene.Refuses m)) ∨
    (scene.config.enabled ≠ 0 ∧ (∃ m buffer sg, scene.urb.submission = some (m, buffer, sg)) ∧
      ∃ id, TracksNew s scene a (s.step (scene, .submit a)).1
        (callsOf (s.step (scene, .submit a)).2) id) := by
  change (Tracker.submit scene a s).1.probe.Clean at h
  change ((Tracker.submit scene a s).1.inflight = s.inflight ∧
    (Tracker.submit scene a s).2 = [.submission a none] ∧ _) ∨ _ ∧ _ ∧ ∃ id,
      TracksNew s scene a (Tracker.submit scene a s).1 (callsOf (Tracker.submit scene a s).2) id
  unfold Tracker.submit at h ⊢
  split
  · rename_i hdisabled
    exact .inl ⟨rfl, rfl, .inl hdisabled⟩
  rename_i henabled
  rw [if_neg henabled] at h
  generalize hf : s.probe.fails = f at h ⊢
  obtain ⟨fault, t⟩ := f
  have ht := Emits.fails hf
  cases fault with
  | true => exact absurd h (not_clean_read t)
  | false =>
    dsimp only at h ⊢
    have hsub : scene.urb.submission =
        coreReadUrb scene.urb { EventMeta.zero with eventType := submitType } := rfl
    rw [← hsub] at h ⊢
    cases hread : scene.urb.submission with
    | none =>
      rw [hread] at h
      exact absurd h (not_clean_read t)
    | some r =>
      obtain ⟨m, buffer, sg⟩ := r
      rw [hread] at h
      dsimp only at h ⊢
      split
      · rename_i hrefused
        exact .inl ⟨rfl, rfl, .inr ⟨m, buffer, sg, rfl, .inl (by simpa using hrefused)⟩⟩
      rename_i hselected
      rw [if_neg hselected] at h
      generalize hp : prefilter scene.filters m scene.config.filterCount t = r at h ⊢
      obtain ⟨accepted, u⟩ := r
      cases accepted with
      | false => exact .inl ⟨rfl, rfl, .inr ⟨m, buffer, sg, rfl, .inr ⟨t, by rw [hp]⟩⟩⟩
      | true =>
        exact .inr ⟨henabled, ⟨m, buffer, sg, rfl⟩, _, track_clean (ht.trans (prefilter_emits hp)) h⟩

end UsbScope.Ebpf
