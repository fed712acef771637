import UsbScope.App.Prefilter
import UsbScope.Pcapng.Consumers

/-! # URBs in flight

While nothing is lost, the submissions without an end are the URBs that the
kernel tracks. `INFLIGHT` bounds their number, and with it the tables that pair
completions with submissions in userspace: they never run full, every
completion finds its own submission, and a file of the capture is read back. -/
namespace UsbScope.App
open UsbScope.Lib UsbScope.Common UsbScope.Capture UsbScope.Pcapng UsbScope.Ebpf

variable {σ : Type}

/-! ## What an event tells of its call -/

/-- A completion follows the submission of its URB. -/
def Answers (before : List Event) (e : Event) : Prop :=
  e.metadata.eventType ≠ submitType → ∃ s, unmatched before (requestKey e) = some s ∧
    s.metadata.requestedLen = e.metadata.requestedLen

/-- What the tables of userspace ask of an event and the events before it. -/
structure Settled (before : List Event) (e : Event) : Prop where
  room : HasRoom before e
  answers : Answers before e

theorem Settled.fits {before : List Event} {e : Event} (h : Settled before e) (he : FromKernel e) :
    FitsRequest before e := by
  intro hs ht s hsome d hd
  obtain ⟨s', hsome', hlen⟩ := h.answers hs
  obtain rfl := Option.some.inj (hsome.symm.trans hsome')
  rw [hlen]
  exact he.buffer he.always ht d hd

theorem image_call {call : Call} {e : Event} (h : call.image = some e) :
    requestKey e = (0, UInt64.ofNat call.urbId) ∧ e.metadata.eventType = call.eventType ∧
      e.metadata.requestedLen = call.urb.transferBufferLength := by
  obtain ⟨hsource, hurbId, m, buffer, sg, hread, hsame⟩ := image_read h
  refine ⟨Prod.ext hsource hurbId, ?_, ?_⟩
  · unfold Call.image at h
    rw [hread] at h
    cases h
    unfold coreReadUrb at hread
    dsimp only at hread
    split at hread
    · cases hread
    · cases hread
      rfl
  · rw [← hsame.requestedLen]
    unfold coreReadUrb at hread
    dsimp only at hread
    split at hread
    · cases hread
    · cases hread
      rfl

/-! ## The run so far -/

/-- The events of a clean run so far: each is settled, and the unmatched
submissions are those of the tracked URBs. -/
structure Flow (events : List Event) (s : Tracker) (rest : List (Scene × Hook)) : Prop where
  each : Trace.Each Settled events
  tracked : ∀ key, (unmatched events key).isSome → ∃ (a : UInt64) (state : State),
    s.inflight[a]? = some state ∧ key = (0, UInt64.ofNat state.id)
  entries : ∀ (a : UInt64) (state : State), s.inflight[a]? = some state →
    state.id ≤ s.probe.sequence ∧ ∃ e urb, unmatched events (0, UInt64.ofNat state.id) = some e ∧
      e.metadata.requestedLen = urb.transferBufferLength ∧ Returned urb a rest
  apart : ∀ (a b : UInt64) (state state' : State), s.inflight[a]? = some state →
    s.inflight[b]? = some state' → state.id = state'.id → a = b

/-- No more submissions are unmatched than URBs are tracked. -/
theorem Flow.card_le {events : List Event} {s : Tracker} {rest : List (Scene × Hook)}
    (h : Flow events s rest) : (unmatchedKeys events).card ≤ s.inflight.size := by
  have hsub : unmatchedKeys events ⊆ (s.inflight.keys.map fun a =>
      (((0, UInt64.ofNat ((s.inflight[a]?).elim 0 State.id))) : RequestKey)).toFinset := by
    intro key hkey
    obtain ⟨a, state, hget, rfl⟩ := h.tracked key (mem_unmatchedKeys.mp hkey)
    refine List.mem_toFinset.mpr (List.mem_map.mpr ⟨a, ?_, by rw [hget, Option.elim_some]⟩)
    exact Std.ExtTreeMap.mem_keys.mpr (Std.ExtTreeMap.mem_iff_isSome_getElem?.mpr (by rw [hget]; rfl))
  calc (unmatchedKeys events).card ≤ _ := Finset.card_le_card hsub
    _ ≤ (s.inflight.keys.map _).length := List.toFinset_card_le _
    _ = s.inflight.size := by rw [List.length_map, Std.ExtTreeMap.length_keys]

section

variable {events new : List Event} {outs : List Output} {s s' : Tracker} {scene : Scene} {hook : Hook}
  {rest rest' : List (Scene × Hook)}

/-- A step without a call that leaves the ids of the table alone. -/
theorem Flow.quiet (h : Flow events s rest)
    (hsame : ∀ a : UInt64, (s'.inflight[a]?).map State.id = (s.inflight[a]?).map State.id)
    (hseq : s.probe.sequence ≤ s'.probe.sequence)
    (hrest : ∀ a : UInt64, a ∈ s.inflight → ∀ urb, Returned urb a rest → Returned urb a rest') :
    Flow events s' rest' := by
  have hback : ∀ (a : UInt64) (state : State), s'.inflight[a]? = some state →
      ∃ old : State, s.inflight[a]? = some old ∧ old.id = state.id := by
    intro a state hget
    have hid := hsame a
    rw [hget, Option.map_some, eq_comm, Option.map_eq_some_iff] at hid
    exact hid
  refine ⟨h.each, fun key hkey => ?_, fun a state hget => ?_, fun a b state state' ha hb heq => ?_⟩
  · obtain ⟨a, state, hget, rfl⟩ := h.tracked key hkey
    have hid := hsame a
    rw [hget, Option.map_some, Option.map_eq_some_iff] at hid
    obtain ⟨state', hget', hid⟩ := hid
    exact ⟨a, state', hget', by rw [hid]⟩
  · obtain ⟨old, hold, hid⟩ := hback a state hget
    obtain ⟨hle, e, urb, hopen, hlen, hreturned⟩ := h.entries a old hold
    have hmem : a ∈ s.inflight := Std.ExtTreeMap.mem_iff_isSome_getElem?.mpr (by rw [hold]; rfl)
    exact ⟨hid ▸ hle.trans hseq, e, urb, hid ▸ hopen, hlen, hrest a hmem urb hreturned⟩
  · obtain ⟨old, hold, hid⟩ := hback a state ha
    obtain ⟨old', hold', hid'⟩ := hback b state' hb
    exact h.apart a b old old' hold hold' (hid.trans (heq.trans hid'.symm))

theorem unmatched_other {events : List Event} {e : Event} {id id' : Nat}
    (hkey : requestKey e = (0, UInt64.ofNat id)) (hid : id < 2 ^ 64) (hid' : id' < 2 ^ 64)
    (hne : id' ≠ id) : unmatched (events ++ [e]) (0, UInt64.ofNat id') =
      unmatched events (0, UInt64.ofNat id') := by
  rw [unmatched_concat, hkey, if_neg]
  intro heq
  exact hne (ofNat_inj hid hid' (Prod.mk.inj heq).2).symm

/-- A submission is tracked. -/
theorem Flow.submit {a : UInt64} {id : Nat} (h : Flow events s ((scene, .submit a) :: rest))
    (hreturned : Returned scene.urb a rest) (htracks : TracksNew s scene a s' (callsOf outs) id)
    (hid : s'.probe.sequence < 2 ^ 64) {e : Event}
    (himage : (scene.call id submitType (-115)).image = some e) :
    Flow (events ++ [e]) s' rest := by
  obtain ⟨hkey, htype, hlen⟩ := image_call himage
  change requestKey e = (0, UInt64.ofNat id) at hkey
  change e.metadata.eventType = submitType at htype
  have hnew : id < 2 ^ 64 := htracks.below.trans_lt hid
  have hget : ∀ b : UInt64, s'.inflight[b]? = if a = b then some ⟨id, 0, 0⟩ else s.inflight[b]? := by
    intro b
    rw [htracks.inserted, get_insert]
  have hnone : s.inflight[a]? = none := Std.ExtTreeMap.getElem?_eq_none htracks.absent
  have hold : ∀ (b : UInt64) (state : State), s.inflight[b]? = some state →
      a ≠ b ∧ state.id < id := by
    intro b state hb
    refine ⟨?_, (h.entries b state hb).1.trans_lt htracks.above⟩
    rintro rfl
    rw [hnone] at hb
    cases hb
  refine ⟨h.each.concat ⟨fun _ => h.card_le.trans_lt htracks.room, fun hno => absurd htype hno⟩,
    fun key hsome => ?_, fun b state hb => ?_, fun b c state state' hb hc heq => ?_⟩
  · by_cases hk : (0, UInt64.ofNat id) = key
    · exact ⟨a, ⟨id, 0, 0⟩, by rw [hget, if_pos rfl], hk.symm⟩
    · rw [unmatched_concat, hkey, if_neg hk] at hsome
      obtain ⟨b, state, hb, rfl⟩ := h.tracked key hsome
      exact ⟨b, state, by rw [hget, if_neg (hold b state hb).1, hb], rfl⟩
  · rw [hget] at hb
    split at hb
    · rename_i hab
      cases hb
      refine ⟨htracks.below, e, scene.urb, ?_, hlen, hab ▸ hreturned⟩
      rw [unmatched_concat, hkey, if_pos rfl, if_pos htype]
    · rename_i hne
      obtain ⟨hle, e', urb, hopen, hlen', hret⟩ := h.entries b state hb
      have hlt := (hold b state hb).2
      refine ⟨hle.trans (htracks.above.le.trans htracks.below), e', urb, ?_, hlen', hret.tail ?_ nofun⟩
      · rw [unmatched_other hkey hnew (hlt.trans hnew) hlt.ne, hopen]
      · exact fun heq => absurd (Hook.submit.inj heq) hne
  · rw [hget] at hb hc
    split at hb
    · rename_i hab
      split at hc
      · rename_i hac
        exact hab.symm.trans hac
      · cases hb
        exact absurd heq (hold c state' hc).2.ne'
    · split at hc
      · cases hc
        exact absurd heq (hold b state hb).2.ne
      · exact h.apart b c state state' hb hc heq

/-- A tracked URB ends. -/
theorem Flow.finish {a : UInt64} {call : State → Call} {state : State}
    (h : Flow events s ((scene, hook) :: rest)) (heffect : scene.effect hook = .finish a call)
    (hstate : s.inflight[a]? = some state) (hget : s'.inflight = s.inflight.erase a)
    (hseq : s.probe.sequence ≤ s'.probe.sequence) (hid : s'.probe.sequence < 2 ^ 64) {e : Event}
    (himage : (call state).image = some e) : Flow (events ++ [e]) s' rest := by
  obtain ⟨hurbId, hurb, htype, -⟩ := finish_call heffect state
  obtain ⟨hkey, htype', hlen⟩ := image_call himage
  rw [hurbId] at hkey
  rw [hurb] at hlen
  rw [← htype'] at htype
  obtain ⟨hle, s₀, urb, hopen, hlen₀, hret⟩ := h.entries a state hstate
  have hsame := (hret.keeps heffect).transferBufferLength
  have hbound : ∀ (b : UInt64) (state' : State), s.inflight[b]? = some state' →
      state'.id < 2 ^ 64 := fun b state' hb => ((h.entries b state' hb).1.trans hseq).trans_lt hid
  have hold : ∀ (b : UInt64) (state' : State), s'.inflight[b]? = some state' →
      a ≠ b ∧ s.inflight[b]? = some state' := by
    intro b state' hb
    rw [hget] at hb
    exact get_of_erase hb
  have hother : ∀ (b : UInt64) (state' : State), s'.inflight[b]? = some state' →
      state'.id ≠ state.id := by
    intro b state' hb heq
    obtain ⟨hne, hb⟩ := hold b state' hb
    exact hne (h.apart a b state state' hstate hb heq.symm)
  have hanswers : Answers events e := fun _ =>
    ⟨s₀, by rw [hkey, hopen], by rw [hlen₀, hsame, hlen]⟩
  refine ⟨h.each.concat ⟨fun hs => absurd hs htype, hanswers⟩, fun key hsome => ?_,
    fun b state' hb => ?_, fun b c state₁ state₂ hb hc heq => ?_⟩
  · rw [unmatched_concat, hkey] at hsome
    by_cases hk : (0, UInt64.ofNat state.id) = key
    · rw [if_pos hk, if_neg htype] at hsome
      cases hsome
    · rw [if_neg hk] at hsome
      obtain ⟨b, state', hb, rfl⟩ := h.tracked key hsome
      refine ⟨b, state', ?_, rfl⟩
      rw [hget, get_erase, if_neg, hb]
      rintro rfl
      rw [hstate] at hb
      cases hb
      exact hk rfl
  · have hne := hother b state' hb
    obtain ⟨hab, hb⟩ := hold b state' hb
    obtain ⟨hle', e', urb', hopen', hlen', hret'⟩ := h.entries b state' hb
    refine ⟨hle'.trans hseq, e', urb', ?_, hlen', hret'.tail ?_ fun call' hcall => ?_⟩
    · rw [unmatched_other hkey (hbound a state hstate) (hbound b state' hb) hne, hopen']
    · rintro rfl
      cases heffect
    · rw [heffect] at hcall
      exact hab (Effect.finish.inj hcall).1
  · exact h.apart b c state₁ state₂ (hold b state₁ hb).2 (hold c state₂ hc).2 heq

theorem Flow.step (h : Flow events s ((scene, hook) :: rest))
    (hreturned : ∀ a, hook = .submit a → Returned scene.urb a rest)
    (hreplaces : Replaces s (scene, hook)) (hclean : (s.step (scene, hook)).1.probe.Clean)
    (hid : (s.step (scene, hook)).1.probe.sequence < 2 ^ 64)
    (hnew : List.Forall₂ (fun c e => c.image = some e) (callsOf (s.step (scene, hook)).2) new) :
    Flow (events ++ new) (s.step (scene, hook)).1 rest := by
  have hseq := (step_move s (scene, hook)).newIds.1
  by_cases hsub : ∃ a, hook = .submit a
  · obtain ⟨a, rfl⟩ := hsub
    rcases submit_clean hclean with ⟨hi, houtputs, -⟩ | ⟨-, -, id, htracks⟩
    · -- untracked, so the address has no entry
      have habsent : a ∉ s.inflight := by
        intro hmem
        refine hreplaces a rfl hmem (untracked_of_step ?_).2
        rw [houtputs]
        exact List.mem_singleton_self _
      rw [houtputs] at hnew
      cases hnew
      rw [List.append_nil]
      refine h.quiet (fun b => by rw [hi]) hseq fun b hb urb hret => hret.tail ?_ ?_
      · intro heq
        exact absurd (Hook.submit.inj heq ▸ hb) habsent
      · intro call hcall
        cases hcall
    · rw [htracks.emitted] at hnew
      cases hnew with
      | cons himage hnil =>
        cases hnil
        exact h.submit (hreturned a rfl) htracks hid himage
  · have hother : ∀ a, hook ≠ .submit a := fun a ha => hsub ⟨a, ha⟩
    have heffect := step_effect hother hclean
    have hi := congrArg Prod.fst heffect
    have hc := congrArg Prod.snd heffect
    dsimp only at hi hc
    rw [hc] at hnew
    have hquiet : (scene.effect hook).apply s.inflight = (s.inflight, []) →
        (∀ b call, scene.effect hook = .finish b call → b ∉ s.inflight) →
        Flow (events ++ new) (s.step (scene, hook)).1 rest := by
      intro hsame hfinish
      rw [hsame] at hi hnew
      cases hnew
      rw [List.append_nil]
      refine h.quiet (fun b => by rw [hi]) hseq fun b hb urb hret => ?_
      exact hret.tail (fun heq => absurd heq (hother b)) fun call hcall => hfinish b call hcall hb
    cases he : scene.effect hook with
    | nothing =>
      refine hquiet (by rw [he]; rfl) fun b call hcall => ?_
      rw [he] at hcall
      cases hcall
    | store a status =>
      have hstore : ∀ b call, scene.effect hook ≠ .finish b call := by
        intro b call hcall
        rw [he] at hcall
        cases hcall
      cases hget : s.inflight[a]? with
      | none =>
        exact hquiet (by rw [he, Effect.apply, hget]) fun b call hcall => absurd hcall (hstore b call)
      | some state =>
        rw [he, Effect.apply, hget] at hi hnew
        cases hnew
        rw [List.append_nil]
        refine h.quiet (fun b => ?_) hseq fun b _ urb hret =>
          hret.tail (fun heq => absurd heq (hother b)) fun call hcall => absurd hcall (hstore b call)
        rw [hi, get_insert]
        split
        · rename_i hab
          rw [← hab, hget]
          rfl
        · rfl
    | finish a call =>
      cases hget : s.inflight[a]? with
      | none =>
        refine hquiet (by rw [he, Effect.apply, hget]) fun b call' heq hmem => ?_
        rw [he] at heq
        obtain ⟨rfl, -⟩ := Effect.finish.inj heq
        have hsome := Std.ExtTreeMap.mem_iff_isSome_getElem?.mp hmem
        rw [hget] at hsome
        cases hsome
      | some state =>
        rw [he, Effect.apply, hget] at hi hnew
        cases hnew with
        | cons himage hnil =>
          cases hnil
          exact h.finish he hget hi hseq hid himage

end

/-- In a clean run every event is settled. -/
theorem settled_of_run (faults : List Bool) {steps : List (Scene × Hook)} (hsteady : Steady steps)
    (hreplaces : Trace.Guarded Tracker.step Replaces (Tracker.fresh faults) steps)
    (hclean : ((Tracker.fresh faults).run steps).1.probe.Clean)
    (hid : ((Tracker.fresh faults).run steps).1.probe.sequence < 2 ^ 64) {events : List Event}
    (hevents : List.Forall₂ (fun c e => c.image = some e)
      (callsOf ((Tracker.fresh faults).run steps).2) events) : Trace.Each Settled events := by
  have hgen : ∀ (steps : List (Scene × Hook)) (s : Tracker) (before events : List Event),
      Flow before s steps → Steady steps → Trace.Guarded Tracker.step Replaces s steps →
      (s.run steps).1.probe.Clean → (s.run steps).1.probe.sequence < 2 ^ 64 →
      List.Forall₂ (fun c e => c.image = some e) (callsOf (s.run steps).2) events →
      Trace.Each Settled (before ++ events) := by
    intro steps
    induction steps with
    | nil =>
      intro s before events hflow _ _ _ _ hevents
      cases hevents
      rw [List.append_nil]
      exact hflow.each
    | cons x rest ih =>
      intro s before events hflow hsteady hguard hclean hid hevents
      obtain ⟨hx, hguard⟩ := Trace.guarded_cons hguard
      obtain ⟨hreturned, hrest⟩ := hsteady
      rw [Tracker.run, Trace.run_cons] at hclean hid hevents
      rw [callsOf_append] at hevents
      have hnew := (List.forall₂_take_append _ _ _ hevents.flip).flip
      have hlater := (List.forall₂_drop_append _ _ _ hevents.flip).flip
      rw [← List.take_append_drop (callsOf (s.step x).2).length events, ← List.append_assoc]
      refine ih _ _ _ (hflow.step hreturned hx (clean_of_run hclean) ?_ hnew) hrest hguard hclean hid
        hlater
      exact (sequence_le_run _ rest).trans_lt hid
  have hstart : Flow [] (Tracker.fresh faults) steps := by
    have hempty : ∀ a : UInt64, (Tracker.fresh faults).inflight[a]? = none := fun _ => rfl
    refine ⟨Trace.Each.nil, fun key hkey => absurd hkey Bool.false_ne_true, ?_, ?_⟩
    · intro a state hget
      rw [hempty] at hget
      cases hget
    · intro a b state state' hget
      rw [hempty] at hget
      cases hget
  exact hgen steps _ [] events hstart hsteady hreplaces hclean hid hevents

/-! ## Reading a file of the capture -/

/-- The length that the reader knows of an event behind the events before it. -/
def requestAfter (before : List Event) (e : Event) : Option UInt32 :=
  if e.metadata.eventType = submitType then some e.metadata.requestedLen
  else (unmatched before (requestKey e)).map fun s => s.metadata.requestedLen

/-- Every event is read back with what the events before it tell of its request. -/
theorem readBacks_each {num : UInt64 → UInt64} {sources : List UInt64}
    (hnum : ∀ a ∈ sources, ∀ b ∈ sources, num a = num b → a = b) {events : List Event}
    (hsources : ∀ e ∈ events, e.sourceId ∈ sources) {P : Event → Option UInt32 → Prop}
    (hrequests : Trace.Each (fun before e => P e (requestAfter before e)) events) :
    List.Forall₂ (fun e e' => ∃ request, P e request ∧ e' = readBack (num e.sourceId) e request)
      events (readBacks num ∅ events) := by
  suffices hgen : ∀ before requested, Tabled num sources before requested →
      Trace.Each (fun after e => P e (requestAfter (before ++ after) e)) events →
      List.Forall₂ (fun e e' => ∃ request, P e request ∧ e' = readBack (num e.sourceId) e request)
        events (readBacks num requested events) from
    hgen [] ∅ tabled_nil hrequests
  clear hrequests
  induction events with
  | nil => exact fun _ _ _ _ => .nil
  | cons e rest ih =>
    intro before requested htable hrequests
    have he := hsources e List.mem_cons_self
    rw [Trace.each_cons, List.append_nil] at hrequests
    obtain ⟨hrequest, hlater⟩ := hrequests
    have hknown : requestOf requested (num e.sourceId) e = requestAfter before e := by
      unfold requestOf requestAfter
      rw [htable.lookup e.sourceId he]
      rfl
    refine .cons ⟨_, hknown ▸ hrequest, rfl⟩ (ih (fun x hx => hsources x (List.mem_cons_of_mem _ hx))
      (before ++ [e]) _ (htable.concat hnum he) ?_)
    simpa only [List.append_assoc, List.singleton_append] using hlater

/-- The request of an event that is settled is known. -/
theorem Answers.request {before : List Event} {e : Event} (h : Answers before e) :
    requestAfter before e = some e.metadata.requestedLen := by
  unfold requestAfter
  split
  · rfl
  · rename_i hs
    obtain ⟨s, hopen, hlen⟩ := h hs
    rw [hopen, Option.map_some, hlen]

/-- A settled capture that is written is read to its end, with all requests. -/
theorem reads_settled {events : List Event} (hkernel : ∀ e ∈ events, FromKernel e)
    (hsettled : Trace.Each Settled events) {w : Writer} (hw : Writer.new.writeAll events = .ok w) :
    ∃ blocks r, Reads w.output blocks r ∧ r.incomplete = 0 ∧ List.Forall₂ (fun e e' =>
      Carried e e' ∧ e'.requestedKnown = true ∧
        e'.metadata.requestedLen = e.metadata.requestedLen) events (delivered blocks) := by
  have hwf : ∀ e ∈ events, Wellformed e := fun e he => (hkernel e he).toWellformed
  obtain ⟨-, hfew, -, hback⟩ := reads_written hw hwf
  have heach : Trace.Each (fun before e => HasRoom before e ∧ FitsRequest before e) events := by
    intro i e he
    have h := hsettled i e he
    exact ⟨h.room, h.fits (hkernel e (List.mem_of_getElem? he))⟩
  obtain ⟨blocks, r, hread⟩ := (reads_iff_each hwf hw).mpr heach
  obtain ⟨hdelivered, hincomplete⟩ := hback blocks r hread
  have hall := readBacks_each (fun a ha b hb => number_injOn hfew ha hb) (writeAll_interfaces hw).2
    (P := fun e request => request = some e.metadata.requestedLen)
    fun i e he => (hsettled i e he).answers.request
  rw [← hdelivered] at hall
  refine ⟨blocks, r, hread, hincomplete, hall.imp ?_⟩
  intro e e' h
  obtain ⟨request, rfl, rfl⟩ := h
  exact ⟨carried_readBack fun _ => rfl, rfl, rfl⟩

/-- What is read back of the events, in terms of their calls. -/
theorem forall₂_images {calls : List Call} {events events' : List Event} {R : Event → Event → Prop}
    (himages : List.Forall₂ (fun c e => c.image = some e) calls events)
    (hall : List.Forall₂ R events events') :
    List.Forall₂ (fun call e' => ∃ e, call.image = some e ∧ R e e') calls events' := by
  induction himages generalizing events' with
  | nil =>
    cases hall
    exact .nil
  | cons himage _ ih =>
    cases hall with
    | cons he hrest => exact .cons ⟨_, himage, he⟩ (ih hrest)

/-- A capture without losses, of URBs that keep their parameters in flight. -/
theorem Captured.settled {faults : List Bool} {steps : List (Scene × Hook)}
    {consumeEvent : σ → Event → Result (σ × Bool)} {consumer : σ} {live : Report (σ × List Event)}
    (h : Captured faults steps consumeEvent consumer live) (haddr : ∀ x ∈ steps, x.1.Addressed)
    (hsteady : Steady steps)
    (hreplaces : Trace.Guarded Tracker.step Replaces (Tracker.fresh faults) steps)
    (hlosses : live.losses = 0) : Trace.Each Settled live.consumer.2 := by
  obtain ⟨hclean, himages, -⟩ := h.lossless haddr hlosses
  exact settled_of_run faults hsteady hreplaces hclean h.ids himages

theorem Captured.fromKernel {faults : List Bool} {steps : List (Scene × Hook)}
    {consumeEvent : σ → Event → Result (σ × Bool)} {consumer : σ} {live : Report (σ × List Event)}
    (h : Captured faults steps consumeEvent consumer live) :
    ∀ e ∈ live.consumer.2, FromKernel e := by
  obtain ⟨rawOutput, rounds, last, cpus, -, -, -, hlive⟩ := h.run
  obtain ⟨final, events, stops, hrun, -, hconsumer, -⟩ := runLive_eq_ok hlive
  have hevents : live.consumer.2 = events.reduceOption := by
    rw [run_logged hconsumer, List.nil_append]
  have hreassembled : Reassembled live.consumer.2 :=
    ⟨_, _, events, hrun, by rw [hevents, List.reduceOption]⟩
  exact hreassembled.fromKernel

/-- **A capture without losses is read back.** The pcapng file of a capture that
reports no loss is read to its end. It holds one event for each call of `emit`,
in order: that of the URB in every field of the format, with the length that was
requested known even of completions. -/
theorem capture_read_back {faults : List Bool} {steps : List (Scene × Hook)}
    {consumeEvent : σ → Event → Result (σ × Bool)} {consumer : σ} {live : Report (σ × List Event)}
    (h : Captured faults steps consumeEvent consumer live) (haddr : ∀ x ∈ steps, x.1.Addressed)
    (hsteady : Steady steps)
    (hreplaces : Trace.Guarded Tracker.step Replaces (Tracker.fresh faults) steps)
    (hlosses : live.losses = 0) {w : Writer} (hw : Writer.new.writeAll live.consumer.2 = .ok w) :
    ∃ blocks r, Reads w.output blocks r ∧ r.incomplete = 0 ∧ List.Forall₂ (fun call e' =>
      ∃ e, call.image = some e ∧ Carried e e' ∧ e'.requestedKnown = true ∧
        e'.metadata.requestedLen = call.urb.transferBufferLength)
      (callsOf ((Tracker.fresh faults).run steps).2) (delivered blocks) := by
  obtain ⟨-, himages, -⟩ := h.lossless haddr hlosses
  obtain ⟨blocks, r, hread, hincomplete, hall⟩ :=
    reads_settled h.fromKernel (h.settled haddr hsteady hreplaces hlosses) hw
  refine ⟨blocks, r, hread, hincomplete, (forall₂_images himages hall).imp ?_⟩
  intro call e' h
  obtain ⟨e, himage, hcarried, hknown, hlen⟩ := h
  exact ⟨e, himage, hcarried, hknown, hlen.trans (image_call himage).2.2⟩

theorem bulkSteps_replaces : Trace.Guarded Tracker.step Replaces (Tracker.fresh []) bulkSteps :=
  .cons (replaces_bulkScene rfl _) (.cons (replaces_bulkScene rfl _)
    (.cons (replaces_bulkScene rfl _) .nil))

theorem bulkSteps_addressed : ∀ x ∈ bulkSteps, x.1.Addressed := by
  intro x hx
  simp only [bulkSteps, List.mem_cons, List.not_mem_nil, or_false] at hx
  rcases hx with rfl | rfl | rfl <;> exact Nat.le_of_ble_eq_true rfl

theorem bulkSteps_steady : Steady bulkSteps := by
  refine ⟨?_, nofun, nofun, trivial⟩
  rintro a ⟨⟩
  exact .later nofun (.finished rfl (.refl _))

theorem capture_read_back_bulk : ∃ (live : Report (Unit × List Event)) (w : Writer) (blocks : List Block)
    (r : Reader), Writer.new.writeAll live.consumer.2 = .ok w ∧ Reads w.output blocks r ∧
      (delivered blocks).length = 2 := by
  obtain ⟨live, hlive, hlosses⟩ := captured_of_run bulkSteps_addressed
    (Prod.eta ((Tracker.fresh []).run bulkSteps)).symm (by decide +kernel) (by decide +kernel)
    (by decide +kernel) (by decide +kernel) fun events _ => run_takeAll events
  obtain ⟨-, himages, -⟩ := hlive.lossless bulkSteps_addressed hlosses
  have hwrites : (Writer.new.writeAll live.consumer.2).toOption.isSome = true := by
    rw [images_eq himages]
    decide +kernel
  cases hw : Writer.new.writeAll live.consumer.2 with
  | error message =>
    rw [hw] at hwrites
    cases hwrites
  | ok w =>
    obtain ⟨blocks, r, hread, -, hall⟩ :=
      capture_read_back hlive bulkSteps_addressed bulkSteps_steady bulkSteps_replaces hlosses hw
    exact ⟨live, w, blocks, r, hw, hread, hall.length_eq.symm.trans (by decide +kernel)⟩

/-! ## Filtering the capture -/

section

variable {args : Options} {before events : List Event} {e : Event}

/-- The table has no more entries than there are open submissions. -/
theorem Tracks.card_le {submissions : Submissions} (h : Tracks before submissions) :
    submissions.keys.length ≤ (unmatchedKeys before).card := by
  rw [← List.toFinset_card_of_nodup submissions.keys_nodup]
  refine Finset.card_le_card fun key hkey => mem_unmatchedKeys.mpr ?_
  have hmem : key ∈ submissions := AList.mem_keys.mpr (List.mem_toFinset.mp hkey)
  rw [← AList.lookup_isSome, h key, Option.isSome_map] at hmem
  exact hmem

/-- The latency of an event that has room can be told. -/
theorem latency_ok {submissions : Submissions}
    (htracks : args.filter.needsLatency = true → Tracks before submissions) (hroom : HasRoom before e) :
    ∃ res, args.latency submissions e = .ok res := by
  unfold Options.latency
  dsimp only
  by_cases hneeds : args.filter.needsLatency = true
  · rw [hneeds, if_neg (by simp)]
    by_cases hs : e.metadata.eventType = submitType
    · have hlt : submissions.keys.length < maxSubmissions :=
        (htracks hneeds).card_le.trans_lt (hroom hs)
      rw [if_pos hs, ensure_of _ hlt]
      exact ⟨_, rfl⟩
    · rw [if_neg hs]
      split <;> exact ⟨_, rfl⟩
  · rw [Bool.not_eq_true] at hneeds
    rw [hneeds]
    exact ⟨_, rfl⟩

/-- Behind a limit events are ignored. -/
theorem run_limited {s : Consumer} (h : Limited args s) (events : List Event) :
    ∃ stops, Machine.run args.consumeEvent s events = .ok (s, stops) := by
  induction events with
  | nil => exact ⟨[], rfl⟩
  | cons e rest ih =>
    obtain ⟨stops, hrest⟩ := ih
    exact ⟨_, Machine.run_cons.mpr ⟨_, _, _, h.enough e, hrest, rfl⟩⟩

/-- Printing goes through where the filter answers and its table has room. -/
theorem run_printed (hmatch : ∀ e ∈ events, ∀ latency, ∃ b, args.filter.isMatch e latency = .ok b)
    {s : Consumer} (hout : s.output = none) (hfull : s.outputFull = false)
    (htracks : args.filter.needsLatency = true → Tracks before s.submissions)
    (hroom : Trace.Each (fun after e => HasRoom (before ++ after) e) events) :
    ∃ t stops, Machine.run args.consumeEvent s events = .ok (t, stops) ∧ t.outputFull = false := by
  induction events generalizing s before with
  | nil => exact ⟨s, [], rfl, hfull⟩
  | cons e rest ih =>
    have hmatch' : ∀ x ∈ rest, ∀ latency, ∃ b, args.filter.isMatch x latency = .ok b :=
      fun x hx => hmatch x (List.mem_cons_of_mem _ hx)
    rw [Trace.each_cons, List.append_nil] at hroom
    obtain ⟨hfirst, hlater⟩ := hroom
    by_cases hlimit : Limited args s
    · obtain ⟨stops, hrun⟩ := run_limited hlimit (e :: rest)
      exact ⟨s, stops, hrun, hfull⟩
    obtain ⟨⟨latency, submissions⟩, hlatency⟩ := latency_ok htracks hfirst
    have hnext : args.filter.needsLatency = true → Tracks (before ++ [e]) submissions :=
      fun hneeds => ((htracks hneeds).concat hneeds hlatency).2
    have hchosen : ∃ b, args.chosen e latency = .ok b := by
      unfold Options.chosen
      split
      · exact hmatch e List.mem_cons_self latency
      · exact ⟨false, rfl⟩
    obtain ⟨b, hchosen⟩ := hchosen
    have hstep : ∃ s' stop, args.consumeEvent s e = .ok (s', stop) ∧ s'.output = none ∧
        s'.outputFull = false ∧ s'.submissions = submissions := by
      rw [Options.consumeEvent, if_neg fun h => hlimit (Bool.or_eq_true_iff.mp h), hlatency,
        Result.ok_bind]
      dsimp only
      rw [hchosen, Result.ok_bind, hout]
      cases b with
      | true => exact ⟨_, _, rfl, hout, hfull, rfl⟩
      | false => exact ⟨_, _, rfl, rfl, hfull, rfl⟩
    obtain ⟨s', stop, hstep, hout', hfull', hsubs⟩ := hstep
    obtain ⟨t, stops, hrun, hend⟩ := @ih (before ++ [e]) hmatch' s' hout' hfull' (hsubs ▸ hnext)
      (by simpa only [List.append_assoc, List.singleton_append] using hlater)
    exact ⟨t, stop :: stops, Machine.run_cons.mpr ⟨_, _, _, hstep, hrun, rfl⟩, hend⟩

end

/-- Nothing but one call of `emit` at a time is in progress in the ring. -/
theorem ring_room {log : List Output} {s : Tracker} (h : Ledger log s)
    (hid : s.probe.sequence < 2 ^ 64) (hclean : s.probe.Clean) {rounds : List Round}
    {last : List Bytes} (hitems : itemsOf rounds last = s.probe.events) :
    ∀ pre, pre <+: recordsOf rounds last → s.probe.stats.ringLosses +
      (Keys.inside recordId pre (recordsOf rounds last)).card < maxPendingEvents := by
  have hrecords : recordsOf rounds last = (published log).flatMap Emission.records := by
    rw [recordsOf, hitems]
    exact h.records
  have hring : s.probe.stats.ringLosses = 0 := by
    have hlosses := hclean.losses
    unfold Probe.losses at hlosses
    omega
  intro pre hpre
  rw [hrecords] at hpre ⊢
  have hone := Keys.card_inside_groups (fun x _ b hb => x.recordId_eq hb) (h.eventIds_nodup hid) hpre
  rw [hring]
  exact (Nat.add_le_add_left hone 0).trans_lt (by decide)

/-- **Printing a capture never fails.** While the probes lose nothing, a live
run that prints goes through with any filter that parses: the table of
submissions does not get full, and the filter finds the bytes that it asks for.
Unless a number of events was asked for, what is printed are the events that
pass. -/
theorem print_never_fails {args : Options} {source : String}
    (hparse : Filter.parse source = .ok args.filter) (faults : List Bool)
    {steps : List (Scene × Hook)} (haddr : ∀ x ∈ steps, x.1.Addressed) (hsteady : Steady steps)
    (hreplaces : Trace.Guarded Tracker.step Replaces (Tracker.fresh faults) steps)
    (hclean : ((Tracker.fresh faults).run steps).1.probe.Clean)
    (hid : ((Tracker.fresh faults).run steps).1.probe.sequence < 2 ^ 64) {rounds : List Round}
    {last : List Bytes}
    (hitems : itemsOf rounds last = ((Tracker.fresh faults).run steps).1.probe.events)
    (rawOutput : Bool) (cpus : List CaptureStats) :
    ∃ events t stops report, List.Forall₂ (fun c e => c.image = some e)
        (callsOf ((Tracker.fresh faults).run steps).2) events ∧
      Machine.run args.consumeEvent (.start none) events = .ok (t, stops) ∧
      (args.count = none → kept args (.start none) events = passing args [] events) ∧
      runLive args.consumeEvent (.start none) rawOutput rounds last cpus = .ok report ∧
      ∀ live, report = some live → live.consumer = t := by
  have hledger := ledger_of_run faults haddr
  obtain ⟨next, evs, hrun, hok⟩ := @runLive_hooks Consumer _ _ hledger hid rounds last
    (fun id => congrArg (own id) hitems) (ring_room hledger hid hclean hitems)
  have himages := images_of_ring hledger hid hclean.losses hitems hrun
  have hreassembled : Reassembled evs.reduceOption := ⟨_, _, evs, hrun, by rw [List.reduceOption]⟩
  have hsettled := settled_of_run faults hsteady hreplaces hclean hid himages
  have hmatch : ∀ e ∈ evs.reduceOption, ∀ latency, ∃ b, args.filter.isMatch e latency = .ok b := by
    intro e he
    have hkernel := hreassembled.fromKernel e he
    exact Filter.isMatch_ok hparse ⟨hkernel.length, hkernel.inside⟩
  obtain ⟨t, stops, hconsumer, hfull⟩ := @run_printed args [] evs.reduceOption hmatch (.start none) rfl
    rfl (fun _ => tracks_nil) fun i e he => (hsettled i e he).room
  obtain ⟨report, hlive⟩ := hok _ _ rawOutput cpus _ hconsumer
  refine ⟨evs.reduceOption, t, stops, report, himages, hconsumer, fun hcount => ?_, hlive, ?_⟩
  · refine kept_eq_passing hconsumer ?_ fun _ => tracks_nil
    rintro (h | h)
    · rw [hfull] at h
      cases h
    · unfold Options.countReached at h
      rw [hcount] at h
      cases h
  · rintro live rfl
    obtain ⟨final, events, stops', hrun', -, hconsumer', -⟩ := runLive_eq_ok hlive
    rw [hrun] at hrun'
    cases hrun'
    rw [hconsumer] at hconsumer'
    cases hconsumer'
    rfl

theorem print_never_fails_bulk : ∃ (events : List Event) (report : Option (Report Consumer)),
    runLive slow.consumeEvent (.start none) false
        [wholeRing ((Tracker.fresh []).run bulkSteps).1 (by decide +kernel)] [] [] = .ok report ∧
      kept slow (.start none) events = passing slow [] events ∧ events.length = 2 := by
  obtain ⟨events, t, stops, report, himages, -, hkept, hlive, -⟩ := @print_never_fails slow
    "latency >= 2000000" (by rfl) [] bulkSteps bulkSteps_addressed bulkSteps_steady
    bulkSteps_replaces ⟨by decide +kernel, by decide +kernel⟩ (by decide +kernel) _ []
    (itemsOf_wholeRing _ (by decide +kernel)) false []
  exact ⟨events, report, hlive, hkept rfl, himages.length_eq.symm.trans (by decide +kernel)⟩

end UsbScope.App
