import UsbScope.App.Rotation
import UsbScope.Lib.Stream
import UsbScope.Pcapng.Acceptance

/-! # Selection by latency

The latency of a completion, from the events before it alone: its time less the
time of the submission that no later event of the URB has followed. The table of
`consume_event` holds exactly these submissions, whether their events were kept
or not; a filter without latency does without the table. -/
namespace UsbScope.App
open UsbScope.Lib UsbScope.Common UsbScope.Capture UsbScope.Pcapng

/-- The latency of `e` after the events `before`: absent on submissions, without
an open submission (`unmatched_iff`), and where the clock went back. -/
def latencyOf (before : List Event) (e : Event) : Option UInt64 :=
  if e.metadata.eventType = submitType then none
  else (unmatched before (requestKey e)).bind fun s =>
    if s.metadata.timestampNs ≤ e.metadata.timestampNs then
      some (e.metadata.timestampNs - s.metadata.timestampNs)
    else none

/-- The open submission in so many words: the last event of the URB is an `S`,
which no `C` or `E` of the URB has followed. -/
theorem unmatched_iff {before : List Event} {key : RequestKey} {s : Event} :
    unmatched before key = some s ↔ ∃ front back, before = front ++ s :: back ∧
      s.metadata.eventType = submitType ∧ requestKey s = key ∧
      ∀ x ∈ back, requestKey x ≠ key := by
  induction before using List.reverseRecOn with
  | nil =>
    refine ⟨nofun, ?_⟩
    rintro ⟨front, back, hnil, -⟩
    simp at hnil
  | append_singleton before e ih =>
    rw [unmatched_concat]
    by_cases hk : requestKey e = key
    · rw [if_pos hk]
      constructor
      · intro h
        split at h
        · rename_i hs
          cases h
          exact ⟨before, [], rfl, hs, hk, nofun⟩
        · cases h
      · rintro ⟨front, back, heq, hs, hkey, hback⟩
        cases back using List.reverseRecOn with
        | nil =>
          obtain ⟨rfl, hlast⟩ := List.append_inj' heq rfl
          cases hlast
          rw [if_pos hs]
        | append_singleton back x =>
          rw [← List.cons_append, ← List.append_assoc] at heq
          obtain ⟨-, hlast⟩ := List.append_inj' heq rfl
          cases hlast
          exact absurd hk (hback e (by simp))
    · rw [if_neg hk, ih]
      constructor
      · rintro ⟨front, back, rfl, hs, hkey, hback⟩
        refine ⟨front, back ++ [e], by simp, hs, hkey, fun x hx => ?_⟩
        rcases List.mem_append.mp hx with hx | hx
        · exact hback x hx
        · rwa [List.mem_singleton.mp hx]
      · rintro ⟨front, back, heq, hs, hkey, hback⟩
        cases back using List.reverseRecOn with
        | nil =>
          obtain ⟨-, hlast⟩ := List.append_inj' heq rfl
          cases hlast
          exact absurd hkey hk
        | append_singleton back x =>
          rw [← List.cons_append, ← List.append_assoc] at heq
          obtain ⟨rfl, -⟩ := List.append_inj' heq rfl
          exact ⟨front, back, rfl, hs, hkey, fun x hx => hback x (by simp [hx])⟩

/-- The event passes the selection, and the expression is true of it. -/
def Passes (args : Options) (before : List Event) (e : Event) : Prop :=
  args.selected e = true ∧
    args.filter.expression.evaluate e (latencyOf before e) = .ok .true

instance (args : Options) (before : List Event) (e : Event) : Decidable (Passes args before e) :=
  inferInstanceAs (Decidable (_ ∧ _))

/-- The events that pass, each with the events before it. -/
def passing (args : Options) : List Event → List Event → List Event
  | _, [] => []
  | before, e :: rest =>
    (if Passes args before e then [e] else []) ++ passing args (before ++ [e]) rest

/-- The events that `consume_event` writes or prints. -/
def kept (args : Options) (s : Consumer) (events : List Event) : List Event :=
  ((writes args s events).filter Prod.snd).map Prod.fst

/-! ## The table -/

/-- The table holds the time of every open submission. -/
def Tracks (before : List Event) (submissions : Submissions) : Prop :=
  ∀ key, submissions.lookup key = (unmatched before key).map fun s => s.metadata.timestampNs

theorem tracks_nil : Tracks [] ∅ := fun _ => rfl

theorem Tracks.concat {before : List Event} {submissions submissions' : Submissions} {e : Event}
    {args : Options} {latency : Option UInt64} (h : Tracks before submissions)
    (hneeds : args.filter.needsLatency = true)
    (hlatency : args.latency submissions e = .ok (latency, submissions')) :
    latency = latencyOf before e ∧ Tracks (before ++ [e]) submissions' := by
  have hkey : (e.sourceId, e.metadata.urbId) = requestKey e := rfl
  unfold Options.latency at hlatency
  simp only [hneeds, Bool.not_true, Bool.false_eq_true, if_false] at hlatency
  rw [hkey] at hlatency
  split at hlatency
  · rename_i hs
    obtain ⟨-, hok⟩ := ensure_bind_eq_ok.mp hlatency
    cases hok
    refine ⟨(if_pos hs).symm, fun key => ?_⟩
    rw [unmatched_concat]
    by_cases hk : requestKey e = key
    · rw [if_pos hk, if_pos hs, ← hk, AList.lookup_insert, Option.map_some]
    · rw [if_neg hk, AList.lookup_insert_ne (Ne.symm hk), h key]
  · rename_i hs
    have hlookup := h (requestKey e)
    have hopen : ∀ key, key ≠ requestKey e →
        unmatched (before ++ [e]) key = unmatched before key := fun key hk => by
      rw [unmatched_concat, if_neg (Ne.symm hk)]
    have hclosed : unmatched (before ++ [e]) (requestKey e) = none := by
      rw [unmatched_concat, if_pos rfl, if_neg hs]
    cases hopened : unmatched before (requestKey e) with
    | none =>
      rw [hopened] at hlookup
      simp only [hlookup, Option.map_none] at hlatency
      cases hlatency
      refine ⟨by rw [latencyOf, if_neg hs, hopened]; rfl, fun key => ?_⟩
      by_cases hk : key = requestKey e
      · rw [hk, hclosed, hlookup]
      · rw [hopen key hk, h key]
    | some s =>
      rw [hopened] at hlookup
      simp only [hlookup, Option.map_some] at hlatency
      cases hlatency
      refine ⟨by rw [latencyOf, if_neg hs, hopened]; rfl, fun key => ?_⟩
      by_cases hk : key = requestKey e
      · rw [hk, hclosed, AList.lookup_erase, Option.map_none]
      · rw [hopen key hk, AList.lookup_erase_ne hk, h key]

/-! ## Filters without latency -/

theorem value_latency {field : Filter.Field} (h : field ≠ .latency) (e : Event)
    (latency latency' : Option UInt64) :
    Filter.value field e latency = Filter.value field e latency' := by
  cases field with
  | latency => exact absurd rfl h
  | _ => rfl

theorem evaluate_latency {x : Filter.Expr} (h : x.needsLatency = false) (e : Event)
    (latency latency' : Option UInt64) : x.evaluate e latency = x.evaluate e latency' := by
  induction x with
  | all => rfl
  | contains needle => rfl
  | predicate p =>
    rw [Filter.Expr.evaluate, Filter.Expr.evaluate, Filter.Predicate.evaluate,
      Filter.Predicate.evaluate, value_latency (of_decide_eq_false h) e latency latency']
  | not inner ih =>
    rw [Filter.Expr.evaluate, Filter.Expr.evaluate, ih h]
  | and a b iha ihb =>
    rw [Filter.Expr.needsLatency, Bool.or_eq_false_iff] at h
    rw [Filter.Expr.evaluate, Filter.Expr.evaluate, iha h.1, ihb h.2]
  | or a b iha ihb =>
    rw [Filter.Expr.needsLatency, Bool.or_eq_false_iff] at h
    rw [Filter.Expr.evaluate, Filter.Expr.evaluate, iha h.1, ihb h.2]

/-! ## Runs -/

section
variable {args : Options} {s s' t : Consumer} {e : Event} {before events : List Event}
  {stop : Bool} {stops : List Bool}

/-- The output is full, or the event count is reached. -/
def Limited (args : Options) (s : Consumer) : Prop :=
  s.outputFull = true ∨ args.countReached s.written = true

theorem Limited.enough (h : Limited args s) : Stream.Enough args.consumeEvent s := by
  intro e
  have hlimit : (s.outputFull || args.countReached s.written) = true := Bool.or_eq_true_iff.mpr h
  rw [Options.consumeEvent, if_pos hlimit, hlimit]

/-- A limit that is reached stays reached. -/
theorem Limited.run (h : Limited args s)
    (hrun : Machine.run args.consumeEvent s events = .ok (t, stops)) : t = s :=
  h.enough.run hrun

/-- The verdict on an event, from the events before it. -/
theorem chosen_iff {latency : Option UInt64} {submissions : Submissions} {verdict : Bool}
    (htracks : args.filter.needsLatency = true → Tracks before s.submissions)
    (hlatency : args.latency s.submissions e = .ok (latency, submissions))
    (hchosen : args.chosen e latency = .ok verdict) :
    (verdict = true ↔ Passes args before e) ∧
      (args.filter.needsLatency = true → Tracks (before ++ [e]) submissions) := by
  have heval : args.filter.expression.evaluate e latency =
      args.filter.expression.evaluate e (latencyOf before e) := by
    by_cases hneeds : args.filter.needsLatency = true
    · rw [((htracks hneeds).concat hneeds hlatency).1]
    · exact evaluate_latency (Bool.eq_false_iff.mpr hneeds) e _ _
  refine ⟨?_, fun hneeds => ((htracks hneeds).concat hneeds hlatency).2⟩
  unfold Options.chosen Filter.isMatch at hchosen
  unfold Passes
  split at hchosen
  · rename_i hsel
    obtain ⟨truth, htruth, hok⟩ := Result.bind_eq_ok.mp hchosen
    cases hok
    rw [← heval, htruth]
    simp [hsel]
  · rename_i hsel
    cases hchosen
    simp [hsel]

theorem kept_cons (h : args.consumeEvent s e = .ok (s', stop)) :
    kept args s (e :: events) =
      ((outcome s s' e).filter Prod.snd).map Prod.fst ++ kept args s' events := by
  unfold kept
  rw [writes_cons h, List.filter_append, List.map_append]

theorem writes_limited (h : Limited args s) : writes args s events = [] := by
  induction events with
  | nil => rfl
  | cons e rest ih => rw [writes_cons (h.enough e), outcome_same rfl rfl, ih, List.nil_append]

/-- How many of the offered events are kept, until the event count is reached or
the output refuses one. -/
inductive Takes (args : Options) : Option CaptureOutput → Nat → List Event → Nat → Prop where
  | done {output : Option CaptureOutput} {written : Nat} : Takes args output written [] 0
  | limited {output : Option CaptureOutput} {written : Nat} {events : List Event}
      (h : args.countReached written = true) : Takes args output written events 0
  | printed {written n : Nat} {e : Event} {events : List Event} (h : args.countReached written = false)
      (hrest : Takes args none (written + 1) events n) : Takes args none written (e :: events) (n + 1)
  | wrote {out out' : CaptureOutput} {written n : Nat} {e : Event} {events : List Event}
      (h : args.countReached written = false) (hwrite : out.write e = .ok (out', true))
      (hrest : Takes args (some out') (written + 1) events n) :
      Takes args (some out) written (e :: events) (n + 1)
  | refused {out out' : CaptureOutput} {written : Nat} {e : Event} {events : List Event}
      (h : args.countReached written = false) (hwrite : out.write e = .ok (out', false)) :
      Takes args (some out) written (e :: events) 0

/-- Without a limit at the end all events are taken. -/
theorem Takes.whole {written n : Nat} (h : Takes args none written events n)
    (hlimit : args.countReached (written + n) = false) : n = events.length := by
  generalize hnone : (none : Option CaptureOutput) = output at h
  induction h with
  | done => rfl
  | limited h =>
    rw [Nat.add_zero, h] at hlimit
    cases hlimit
  | @printed written n e events h hrest ih =>
    rw [List.length_cons, ih (by rwa [Nat.add_assoc, Nat.add_comm 1 n]) rfl]
  | wrote => cases hnone
  | refused => cases hnone

/-- What a run keeps: the first of the events that pass, as many as are taken,
and while the output refuses none as many as if they were printed. -/
structure Keeps (args : Options) (s t : Consumer) (wanted kept : List Event) (n : Nat) : Prop where
  first : kept = wanted.take n
  written : t.written = s.written + n
  takes : Takes args s.output s.written wanted n
  free : t.outputFull = false → Takes args none s.written wanted n

theorem Keeps.cons {wanted kept : List Event} {n : Nat} (h : Keeps args s' t wanted kept n)
    (hwritten : s'.written = s.written + 1) (hlimit : args.countReached s.written = false)
    (htakes : Takes args s.output s.written (e :: wanted) (n + 1)) :
    Keeps args s t (e :: wanted) (e :: kept) (n + 1) where
  first := congrArg (e :: ·) h.first
  written := by rw [h.written, hwritten, Nat.add_right_comm, Nat.add_assoc]
  takes := htakes
  free := fun hfree => .printed hlimit (hwritten ▸ h.free hfree)

/-- A run keeps the events that pass, up to its limits. -/
theorem kept_takes (hrun : Machine.run args.consumeEvent s events = .ok (t, stops))
    (hfull : s.outputFull = false)
    (htracks : args.filter.needsLatency = true → Tracks before s.submissions) :
    ∃ n, Keeps args s t (passing args before events) (kept args s events) n := by
  induction events generalizing s before stops with
  | nil =>
    cases hrun
    exact ⟨0, rfl, rfl, .done, fun _ => .done⟩
  | cons e rest ih =>
    by_cases hlimit : args.countReached s.written = true
    · have hs : Limited args s := .inr hlimit
      obtain rfl := hs.run hrun
      refine ⟨0, ?_, rfl, .limited hlimit, fun _ => .limited hlimit⟩
      rw [kept, writes_limited hs]
      rfl
    rw [Bool.not_eq_true] at hlimit
    obtain ⟨s', o, os, hstep, hrest, -⟩ := Machine.run_cons.mp hrun
    -- an event that is offered passes, and the table goes on
    have hoffer : ∀ {submissions : Submissions}, args.Offered s e submissions →
        passing args before (e :: rest) = e :: passing args (before ++ [e]) rest ∧
          (args.filter.needsLatency = true → Tracks (before ++ [e]) submissions) := by
      intro submissions hoffered
      obtain ⟨latency, hlatency, hchosen⟩ := hoffered.chosen
      obtain ⟨hiff, hnext⟩ := chosen_iff htracks hlatency hchosen
      exact ⟨by rw [passing, if_pos (hiff.mp rfl)]; rfl, hnext⟩
    cases Options.consumeEvent_turn hstep with
    | ignored h =>
      rw [hfull, hlimit] at h
      rcases h with h | h <;> cases h
    | @skipped latency submissions hlatency hchosen =>
      obtain ⟨hiff, hnext⟩ := chosen_iff htracks hlatency hchosen
      have hno : ¬ Passes args before e := fun h => Bool.false_ne_true (hiff.mpr h)
      have hsame : outcome s { s with submissions } e = [] := outcome_same rfl rfl
      obtain ⟨n, hfirst, hwritten, htakes, hfree⟩ := ih hrest hfull hnext
      rw [kept_cons hstep, passing, if_neg hno, hsame]
      exact ⟨n, hfirst, hwritten, htakes, hfree⟩
    | @printed submissions hoffered hout =>
      obtain ⟨hpassing, hnext⟩ := hoffer hoffered
      obtain ⟨n, hkeeps⟩ := ih hrest hfull hnext
      have htakes : Takes args none (s.written + 1) (passing args (before ++ [e]) rest) n :=
        hout ▸ hkeeps.takes
      rw [kept_cons hstep, outcome_written rfl, hpassing]
      exact ⟨n + 1, hkeeps.cons rfl hlimit (hout ▸ .printed hlimit htakes)⟩
    | @wrote submissions output output' hoffered hout hwrite =>
      obtain ⟨hpassing, hnext⟩ := hoffer hoffered
      obtain ⟨n, hkeeps⟩ := ih hrest hfull hnext
      rw [kept_cons hstep, outcome_written rfl, hpassing]
      exact ⟨n + 1, hkeeps.cons rfl hlimit (hout ▸ .wrote hlimit hwrite hkeeps.takes)⟩
    | @refused submissions output output' hoffered hout hwrite =>
      obtain ⟨hpassing, -⟩ := hoffer hoffered
      have hrefused : outcome s { args.noted s submissions e with
          output := some output', outputFull := true } e = [(e, false)] := outcome_refused rfl hfull rfl
      obtain rfl := Limited.run (.inl rfl) hrest
      rw [kept_cons hstep, hrefused, hpassing, kept, writes_limited (.inl rfl)]
      exact ⟨0, rfl, rfl, hout ▸ .refused hlimit hwrite, fun ht => Bool.noConfusion ht⟩

/-- What is kept of a run without limits, after the events `before`. -/
theorem kept_eq_passing (hrun : Machine.run args.consumeEvent s events = .ok (t, stops))
    (hlimit : ¬ Limited args t)
    (htracks : args.filter.needsLatency = true → Tracks before s.submissions) :
    kept args s events = passing args before events := by
  have hfull : s.outputFull = false := by
    rw [← Bool.not_eq_true]
    exact fun hs => hlimit (Limited.run (.inl hs) hrun ▸ .inl hs)
  obtain ⟨n, hfirst, hwritten, -, hfree⟩ := kept_takes hrun hfull htracks
  have hall : n = (passing args before events).length := by
    refine (hfree ?_).whole ?_
    · exact Bool.eq_false_iff.mpr fun h => hlimit (.inl h)
    · rw [← hwritten]
      exact Bool.eq_false_iff.mpr fun h => hlimit (.inr h)
  rw [hfirst, hall, List.take_length]

/-- Latency selection equals its definition, with or without the table. -/
theorem kept_by_latency {output : Option CaptureOutput}
    (hrun : Machine.run args.consumeEvent (.start output) events = .ok (t, stops))
    (hlimit : ¬ Limited args t) : kept args (.start output) events = passing args [] events :=
  kept_eq_passing hrun hlimit fun _ => tracks_nil

end

def bulkOutDone (ns : UInt64) : Event :=
  { bulkOutEvent with metadata := { bulkOutEvent.metadata with
    timestampNs := ns
    eventType := completeType } }

/-- Completions that took 2 ms or more. -/
def slow : Options := { everything with filter := ⟨.predicate ⟨.latency, none, .ge, 2000000⟩⟩ }

theorem kept_by_latency_slow : ∃ t stops,
    Machine.run slow.consumeEvent (.start none) [bulkOutAt 1000000, bulkOutDone 4000000] =
      .ok (t, stops) ∧
    kept slow (.start none) [bulkOutAt 1000000, bulkOutDone 4000000] = [bulkOutDone 4000000] := by
  have hpass : passing slow [] [bulkOutAt 1000000, bulkOutDone 4000000] = [bulkOutDone 4000000] :=
    rfl
  refine ⟨_, _, rfl, hpass ▸ ?_⟩
  refine @kept_by_latency slow _ _ _ none rfl ?_
  rintro (h | h)
  · cases h
  · cases h

end UsbScope.App
