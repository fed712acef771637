import UsbScope.Filter.Refine
import UsbScope.Pcapng.Rewrite

/-! # Filters on events that were read back

A filter should select of a pcapng file no more than of the events it was
written from. Every field is carried or unknown, except for two that the format
keeps only for some transfers and the reader then takes as zero: the error count
of transfers that are not ISO, and a setup packet on an ISO transfer. -/
namespace UsbScope.Pcapng
open UsbScope.Lib UsbScope.Common UsbScope.Capture
open UsbScope.Filter (Expr Refined)

/-- The fields that pcapng has no place for are zero. -/
structure Faithful (e : Event) : Prop where
  errors : e.metadata.transferType ≠ 0 → e.metadata.errorCount = 0
  setup : e.metadata.transferType = 0 → e.metadata.setupPresent ≠ 0 →
    e.metadata.setup = Vector.replicate 8 0

/-! ## Known requests -/

/-- The reader knows the right request, since events of one URB agree on it. -/
theorem readBacks_agree {num : UInt64 → UInt64} {all events : List Event}
    (hagree : ∀ e ∈ all, ∀ e' ∈ all, e.metadata.urbId = e'.metadata.urbId →
      e.metadata.requestedLen = e'.metadata.requestedLen) (hsub : events ⊆ all)
    {requested : AList fun _ : RequestKey => UInt32}
    (htable : ∀ key n, requested.lookup key = some n → ∀ e ∈ all, e.metadata.urbId = key.2 →
      n = e.metadata.requestedLen) :
    List.Forall₂ (fun e e' => ∃ request, e' = readBack (num e.sourceId) e request ∧
      (e.metadata.eventType = submitType → request = some e.metadata.requestedLen) ∧
      ∀ n, request = some n → n = e.metadata.requestedLen)
      events (readBacks num requested events) := by
  induction events generalizing requested with
  | nil => exact .nil
  | cons e rest ih =>
    have he : e ∈ all := hsub List.mem_cons_self
    refine .cons ⟨_, rfl, fun hs => if_pos hs, fun n hn => ?_⟩
      (ih (fun x hx => hsub (List.mem_cons_of_mem _ hx)) fun key n hn => ?_)
    · unfold requestOf at hn
      split at hn
      · exact (Option.some.inj hn).symm
      · exact htable _ n hn e he rfl
    · by_cases hk : key = (num e.sourceId, e.metadata.urbId)
      · subst hk
        unfold tableAfter at hn
        split at hn
        · rw [AList.lookup_insert] at hn
          intro x hx hid
          rw [← Option.some.inj hn]
          exact hagree e he x hx hid.symm
        · rw [AList.lookup_erase] at hn
          cases hn
      · unfold tableAfter at hn
        split at hn
        · rw [AList.lookup_insert_ne hk] at hn
          exact htable key n hn
        · rw [AList.lookup_erase_ne hk] at hn
          exact htable key n hn

/-! ## Fields -/

section
variable {e : Event} {source : UInt64} {request : Option UInt32} {latency latency' : Option UInt64}

theorem readBack_setup_iso (ht : e.metadata.transferType = 0) :
    (readBack source e request).metadata.setup = Vector.replicate 8 0 :=
  if_neg fun h => h.1 ht

/-- What is read back of a faithful event says less, and nothing else. -/
theorem refined_readBack (hkernel : FromKernel e) (hfaithful : Faithful e)
    (hsubmit : e.metadata.eventType = submitType → request = some e.metadata.requestedLen)
    (hrequest : ∀ n, request = some n → n = e.metadata.requestedLen) :
    Refined (· ≠ .latency) (readBack source e request) e latency latency' := by
  have hcarried : Carried e (readBack source e request) := carried_readBack hsubmit
  have herrors : (readBack source e request).metadata.errorCount = e.metadata.errorCount := by
    by_cases ht : e.metadata.transferType = 0
    · exact hcarried.errorCount ht
    · rw [hfaithful.errors ht]
      exact if_neg ht
  have hsetup : ∀ g : Vector UInt8 8 → Int, Filter.setupValue (readBack source e request).metadata
      (g (readBack source e request).metadata.setup) =
      Filter.setupValue e.metadata (g e.metadata.setup) := by
    intro g
    unfold Filter.setupValue
    rw [hcarried.setupPresent]
    split
    · rfl
    · rename_i hs
      by_cases ht : e.metadata.transferType = 0
      · rw [hfaithful.setup ht hs, readBack_setup_iso ht]
      · rw [hcarried.setup ht hs]
  refine ⟨fun field hfield v hv => ?_, rfl, fun needle => rfl⟩
  cases field with
  | vid =>
    rw [Filter.value_vid] at hv
    cases hv
    exact ⟨_, Filter.value_vid e latency', .inl rfl⟩
  | pid =>
    rw [Filter.value_pid] at hv
    cases hv
    exact ⟨_, Filter.value_pid e latency', .inl rfl⟩
  | requested =>
    rw [Filter.value_requested] at hv ⊢
    refine Filter.ok_of_known (fun hk => ⟨hkernel.always, ?_⟩) hv
    obtain ⟨n, hn⟩ := Option.isSome_iff_exists.mp hk
    rw [← hrequest n hn]
    simp [readBack, hn]
  | latency => exact absurd rfl hfield
  | actual =>
    refine ⟨v, ?_, .inr rfl⟩
    rw [← hv]
    by_cases hs : e.metadata.eventType = submitType
    · simp [Filter.value, readBack, hs]
    · simp [Filter.value, readBack, hs]
  | length =>
    refine ⟨v, ?_, .inr rfl⟩
    rw [← hv]
    by_cases hs : e.metadata.eventType = submitType
    · simp [Filter.value, readBack, hs, hsubmit hs]
    · simp [Filter.value, readBack, hs]
  | errors =>
    refine ⟨v, ?_, .inr rfl⟩
    rw [← hv]
    change Except.ok (some e.metadata.errorCount.toInt) =
      Except.ok (some (readBack source e request).metadata.errorCount.toInt)
    rw [herrors]
  | request => exact ⟨v, hv ▸ congrArg Except.ok (hsetup fun b => (b.toList.getD 1 0).toNat).symm,
      .inr rfl⟩
  | requestType => exact ⟨v, hv ▸ congrArg Except.ok (hsetup fun b => (b.toList.getD 0 0).toNat).symm,
      .inr rfl⟩
  | value => exact ⟨v, hv ▸ congrArg Except.ok (hsetup fun b =>
      (b.toList.getD 2 0).toNat + 256 * (b.toList.getD 3 0).toNat).symm, .inr rfl⟩
  | index => exact ⟨v, hv ▸ congrArg Except.ok (hsetup fun b =>
      (b.toList.getD 4 0).toNat + 256 * (b.toList.getD 5 0).toNat).symm, .inr rfl⟩
  | setupLength => exact ⟨v, hv ▸ congrArg Except.ok (hsetup fun b =>
      (b.toList.getD 6 0).toNat + 256 * (b.toList.getD 7 0).toNat).symm, .inr rfl⟩
  | _ => exact ⟨v, hv, .inr rfl⟩

end

theorem over_of_needsLatency {x : Expr} (h : x.needsLatency = false) : x.Over (· ≠ .latency) := by
  induction x with
  | all => trivial
  | contains needle => trivial
  | predicate p => exact of_decide_eq_false h
  | not inner ih => exact ih h
  | and a b iha ihb =>
    rw [Expr.needsLatency, Bool.or_eq_false_iff] at h
    exact ⟨iha h.1, ihb h.2⟩
  | or a b iha ihb =>
    rw [Expr.needsLatency, Bool.or_eq_false_iff] at h
    exact ⟨iha h.1, ihb h.2⟩

/-! ## Filters that tell -/

/-- A test of one field for zero. -/
def zeroTest (field : Filter.Field) : Filter := ⟨.predicate ⟨field, none, .eq, 0⟩⟩

theorem isMatch_zeroTest {field : Filter.Field} {e : Event} {latency : Option UInt64} :
    (zeroTest field).isMatch e latency = .ok true ↔ Filter.value field e latency = .ok (some 0) := by
  unfold Filter.isMatch zeroTest
  dsimp only [Expr.evaluate]
  unfold Filter.Predicate.evaluate
  cases hv : Filter.value field e latency with
  | error message => simp [bind, Except.bind]
  | ok v =>
    cases v with
    | none => simp [bind, Except.bind]
    | some x =>
      by_cases hx : x = 0
      · simp [bind, Except.bind, hx, Filter.Compare.holds, Filter.Truth.ofBool]
      · have hb : (x == 0) = false := by simpa using hx
        simp [bind, Except.bind, hx, Filter.Compare.holds, hb, Filter.Truth.ofBool]

/-- Tests for zero are enough to tell an event that is not faithful. -/
theorem faithful_of_zeroTests {e : Event} {source : UInt64} {request : Option UInt32}
    (h : ∀ field ∈ [Filter.Field.errors, .requestType, .request, .value, .index, .setupLength],
      (zeroTest field).isMatch (readBack source e request) none = .ok true →
        (zeroTest field).isMatch e none = .ok true) : Faithful e := by
  simp only [isMatch_zeroTest] at h
  refine ⟨fun ht => ?_, fun ht hs => ?_⟩
  · have hback : Filter.value .errors (readBack source e request) none = .ok (some 0) := by
      change Except.ok (some (if e.metadata.transferType = 0 then e.metadata.errorCount
        else 0).toInt) = _
      rw [if_neg ht]
      rfl
    have herrors : e.metadata.errorCount.toInt = 0 :=
      Option.some.inj (Except.ok.inj (h .errors (by simp) hback))
    exact Int32.toInt_inj.mp herrors
  · have hback : ∀ v : Int, Filter.setupValue e.metadata v = some v := fun v => if_neg hs
    have hzero : ∀ i, (readBack source e request).metadata.setup.toList.getD i 0 = 0 := by
      intro i
      rw [readBack_setup_iso ht, Vector.toList_replicate, List.getD_eq_getElem?_getD,
        List.getElem?_replicate]
      split <;> rfl
    have hvalue : ∀ v : Int, v = 0 → Filter.setupValue (readBack source e request).metadata v =
        some 0 := by
      rintro v rfl
      exact if_neg hs
    have hword : ∀ i, Filter.setupWord (readBack source e request).metadata i = 0 := by
      intro i
      rw [Filter.setupWord, hzero, hzero]
      rfl
    have hread : ∀ v : Int, (Except.ok (Filter.setupValue e.metadata v) : Result (Option Int)) =
        .ok (some 0) → v = 0 := by
      intro v hv
      exact Option.some.inj ((hback v).symm.trans (Except.ok.inj hv))
    have h0 := hread _ (h .requestType (by simp) (congrArg Except.ok (hvalue _ (by rw [hzero]; rfl))))
    have h1 := hread _ (h .request (by simp) (congrArg Except.ok (hvalue _ (by rw [hzero]; rfl))))
    have h2 := hread _ (h .value (by simp) (congrArg Except.ok (hvalue _ (hword 2))))
    have h4 := hread _ (h .index (by simp) (congrArg Except.ok (hvalue _ (hword 4))))
    have h6 := hread _ (h .setupLength (by simp) (congrArg Except.ok (hvalue _ (hword 6))))
    simp only [Filter.setupWord, Nat.reduceAdd] at h2 h4 h6
    have hbytes : ∀ i < 8, (e.metadata.setup.toList.getD i 0).toNat = 0 := by
      intro i hi
      interval_cases i <;> omega
    ext i hi
    have hbyte := hbytes i hi
    rw [List.getD_eq_getElem?_getD, List.getElem?_eq_getElem (by simpa using hi), Option.getD_some,
      Vector.getElem_toList] at hbyte
    rw [Vector.getElem_replicate]
    exact hbyte

/-- **Filtering what was read back selects no more, exactly for faithful events.**
For events of a reassembler that agree on the request of each URB, every filter
without latency that matches an event read back matches the original, if and
only if no original has an error count without being ISO, or a setup packet on
an ISO transfer. -/
theorem matches_read_back_iff {events : List Event} {w : Writer} {blocks : List Block} {r : Reader}
    (hevents : Reassembled events)
    (hagree : ∀ e ∈ events, ∀ e' ∈ events, e.metadata.urbId = e'.metadata.urbId →
      e.metadata.requestedLen = e'.metadata.requestedLen)
    (hw : Writer.new.writeAll events = .ok w) (hread : Reads w.output blocks r) :
    (∀ source f, Filter.parse source = .ok f → f.needsLatency = false →
      ∀ (i : Nat) (e e' : Event), events[i]? = some e → (delivered blocks)[i]? = some e' →
        f.isMatch e' none = .ok true → f.isMatch e none = .ok true) ↔
      ∀ e ∈ events, Faithful e := by
  have hkernel := hevents.fromKernel
  obtain ⟨_, _, _, hback⟩ := reads_written hw fun e he => (hkernel e he).toWellformed
  obtain ⟨hdelivered, _⟩ := hback blocks r hread
  have hall : List.Forall₂ _ events (readBacks (number w.interfaces) ∅ events) :=
    readBacks_agree hagree (fun _ h => h) fun key n hn => by simp at hn
  rw [← hdelivered] at hall
  obtain ⟨hlength, hget⟩ := List.forall₂_iff_get.mp hall
  constructor
  · intro hselect e he
    obtain ⟨i, hi, rfl⟩ := List.getElem_of_mem he
    obtain ⟨request, heq, _, _⟩ := hget i hi (hlength ▸ hi)
    rw [List.get_eq_getElem, List.get_eq_getElem] at heq
    refine @faithful_of_zeroTests events[i] (number w.interfaces events[i].sourceId) request
      fun field hfield hm => ?_
    have hparse : ∃ source, Filter.parse source = .ok (zeroTest field) ∧
        (zeroTest field).needsLatency = false := by
      simp only [List.mem_cons, List.not_mem_nil, or_false] at hfield
      rcases hfield with rfl | rfl | rfl | rfl | rfl | rfl
      · exact ⟨"errors 0", by rfl, rfl⟩
      · exact ⟨"setup.type 0", by rfl, rfl⟩
      · exact ⟨"setup.request 0", by rfl, rfl⟩
      · exact ⟨"setup.value 0", by rfl, rfl⟩
      · exact ⟨"setup.index 0", by rfl, rfl⟩
      · exact ⟨"setup.length 0", by rfl, rfl⟩
    obtain ⟨source, hsource, hlatency⟩ := hparse
    refine hselect source _ hsource hlatency i events[i] (delivered blocks)[i]
      (List.getElem?_eq_getElem hi) (List.getElem?_eq_getElem _) ?_
    rw [heq]
    exact hm
  · intro hfaithful source f _ hlatency i e e' he he' hm
    obtain ⟨hi, rfl⟩ := List.getElem?_eq_some_iff.mp he
    obtain ⟨hi', rfl⟩ := List.getElem?_eq_some_iff.mp he'
    obtain ⟨request, heq, hsubmit, hrequest⟩ := hget i hi hi'
    rw [List.get_eq_getElem, List.get_eq_getElem] at heq
    rw [heq] at hm
    have hmem := List.getElem_mem hi
    exact (refined_readBack (hkernel _ hmem) (hfaithful _ hmem) hsubmit hrequest).isMatch
      (over_of_needsLatency hlatency) hm

theorem matches_read_back_iff_bulkOut : ∃ w blocks r, Writer.new.writeAll [bulkOutEvent] = .ok w ∧
    Reads w.output blocks r ∧ ∀ source f, Filter.parse source = .ok f → f.needsLatency = false →
      ∀ (i : Nat) (e e' : Event), [bulkOutEvent][i]? = some e → (delivered blocks)[i]? = some e' →
        f.isMatch e' none = .ok true → f.isMatch e none = .ok true := by
  obtain ⟨w, hw⟩ : ∃ w, Writer.new.writeAll [bulkOutEvent] = .ok w := ⟨_, rfl⟩
  obtain ⟨blocks, r, hread⟩ := (reads_written hw
    (wellformed_of_delivered (.inl reassembled_bulkOut))).2.2.1.mpr
    ⟨⟨fun _ => by decide, fun h => absurd h (by decide)⟩, trivial⟩
  refine ⟨w, blocks, r, hw, hread, (matches_read_back_iff reassembled_bulkOut ?_ hw hread).mpr ?_⟩
  · intro e he e' he' _
    rw [List.mem_singleton.mp he, List.mem_singleton.mp he']
  · intro e he
    rw [List.mem_singleton.mp he]
    exact ⟨fun _ => rfl, fun ht => absurd ht (by decide)⟩

/-! ## A count that is made up -/

/-- The bulk OUT submission with an error count. -/
def countedMeta : EventMeta := { Reassembler.bulkOut with errorCount := 1 }

def countedEvent : Event := ⟨0, countedMeta, [], [1, 2, 3], true, true⟩

def countedRecords : List Bytes :=
  [record recordBegin 9 0 countedMeta.wire, record recordData 9 0 [1, 2, 3], Reassembler.bulkOutEnd]

/-- The error count is read back as zero, and a filter for zero selects the event
that it does not select of the raw archive. -/
theorem errors_made_up : Reassembled [countedEvent] ∧ ∃ w,
    Writer.new.writeAll [countedEvent] = .ok w ∧ deliveredOf 3 w.output =
      some [readBack 0 countedEvent (some 3)] ∧
    Filter.parse "errors 0" = .ok (zeroTest .errors) ∧
    (zeroTest .errors).isMatch (readBack 0 countedEvent (some 3)) none = .ok true ∧
    (zeroTest .errors).isMatch countedEvent none = .ok false := by
  refine ⟨⟨countedRecords, _, _, rfl, rfl⟩, ⟨Writer.new.output ++ packetBlock 0 countedEvent
    ⟨3, 67, 1, 100⟩, 148, [0]⟩, by decide +kernel, by decide +kernel, by rfl, by decide, by decide⟩

end UsbScope.Pcapng
