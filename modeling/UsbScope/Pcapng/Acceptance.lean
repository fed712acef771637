import UsbScope.Lib.Trace
import UsbScope.Capture.Decode
import UsbScope.Filter.Parse
import UsbScope.Pcapng.Rewrite

/-! # Which written files are read

The reader pairs by source and URB id within one file. In terms of the written
events alone: its table holds the submissions that no later event has matched,
so a file fails to be read when too many of them are open at a submission, or
when an ISO completion does not fit the submission it is paired with. -/
namespace UsbScope.Pcapng
open UsbScope.Lib UsbScope.Common UsbScope.Capture

/-- The key under which the reader pairs an event. -/
def requestKey (e : Event) : RequestKey := (e.sourceId, e.metadata.urbId)

/-- The latest event of a key, if it is a submission. -/
def unmatched (events : List Event) (key : RequestKey) : Option Event :=
  (Trace.latest (fun e => some (requestKey e)) events key).filter
    fun e => e.metadata.eventType = submitType

/-- The keys whose latest event is a submission. -/
def unmatchedKeys (events : List Event) : Finset RequestKey :=
  (events.map requestKey).toFinset.filter fun key => (unmatched events key).isSome

/-- There is room for a submission after the events before it. -/
def HasRoom (before : List Event) (e : Event) : Prop :=
  e.metadata.eventType = submitType → (unmatchedKeys before).card < maxRequested

/-- The descriptors of an ISO completion fit the submission before it. -/
def FitsRequest (before : List Event) (e : Event) : Prop :=
  e.metadata.eventType ≠ submitType → e.metadata.transferType = 0 →
    ∀ s, unmatched before (requestKey e) = some s →
      ∀ d ∈ e.iso, d.stop ≤ s.metadata.requestedLen.toNat

/-! ## The reader's table -/

theorem unmatched_concat (before : List Event) (e : Event) (key : RequestKey) :
    unmatched (before ++ [e]) key =
      if requestKey e = key then
        if e.metadata.eventType = submitType then some e else none
      else unmatched before key := by
  unfold unmatched
  rw [Trace.latest_concat]
  by_cases hk : requestKey e = key
  · rw [if_pos (congrArg some hk), if_pos hk, Option.filter_some]
    simp only [decide_eq_true_eq]
  · rw [if_neg fun h => hk (Option.some.inj h), if_neg hk]

theorem unmatched_eq_some {events : List Event} {key : RequestKey} {e : Event}
    (h : unmatched events key = some e) :
    e ∈ events ∧ requestKey e = key ∧ e.metadata.eventType = submitType := by
  unfold unmatched at h
  rw [Option.filter_eq_some_iff, decide_eq_true_iff] at h
  obtain ⟨hmem, hkey⟩ := Trace.latest_eq_some h.1
  exact ⟨hmem, Option.some.inj hkey, h.2⟩

theorem mem_unmatchedKeys {events : List Event} {key : RequestKey} :
    key ∈ unmatchedKeys events ↔ (unmatched events key).isSome := by
  unfold unmatchedKeys
  rw [Finset.mem_filter, List.mem_toFinset, List.mem_map]
  constructor
  · exact And.right
  · intro h
    obtain ⟨e, he⟩ := Option.isSome_iff_exists.mp h
    obtain ⟨hmem, hkey, _⟩ := unmatched_eq_some he
    exact ⟨⟨e, hmem, hkey⟩, h⟩

section
variable {num : UInt64 → UInt64} {sources : List UInt64}

/-- The table that the reader has after the events `before`. -/
structure Tabled (num : UInt64 → UInt64) (sources : List UInt64) (before : List Event)
    (requested : AList fun _ : RequestKey => UInt32) : Prop where
  lookup : ∀ source ∈ sources, ∀ id, requested.lookup (num source, id) =
    (unmatched before (source, id)).map fun e => e.metadata.requestedLen
  numbered : ∀ key ∈ requested, ∃ source ∈ sources, key.1 = num source
  known : ∀ e ∈ before, e.sourceId ∈ sources

theorem tabled_nil : Tabled num sources [] ∅ := by
  refine ⟨fun source _ id => rfl, fun key hkey => ?_, by simp⟩
  exact absurd hkey (AList.notMem_empty key)

theorem Tabled.concat {before : List Event} {requested : AList fun _ : RequestKey => UInt32}
    (h : Tabled num sources before requested)
    (hnum : ∀ a ∈ sources, ∀ b ∈ sources, num a = num b → a = b) {e : Event}
    (he : e.sourceId ∈ sources) :
    Tabled num sources (before ++ [e]) (tableAfter requested (num e.sourceId) e) := by
  have hkey : ∀ source ∈ sources, ∀ id, requestKey e = (source, id) ↔
      (num source, id) = (num e.sourceId, e.metadata.urbId) := by
    intro source hsource id
    unfold requestKey
    rw [Prod.mk.injEq, Prod.mk.injEq]
    constructor
    · rintro ⟨rfl, rfl⟩
      exact ⟨rfl, rfl⟩
    · rintro ⟨h1, rfl⟩
      exact ⟨(hnum source hsource e.sourceId he h1).symm, rfl⟩
  refine ⟨fun source hsource id => ?_, fun key hmem => ?_, fun x hx => ?_⟩
  · rw [unmatched_concat, tableAfter]
    by_cases heq : requestKey e = (source, id)
    · rw [if_pos heq, (hkey source hsource id).mp heq]
      by_cases hs : e.metadata.eventType = submitType
      · rw [if_pos hs, if_pos hs, AList.lookup_insert, Option.map_some]
      · rw [if_neg hs, if_neg hs, AList.lookup_erase, Option.map_none]
    · have hne : (num source, id) ≠ (num e.sourceId, e.metadata.urbId) :=
        fun h' => heq ((hkey source hsource id).mpr h')
      rw [if_neg heq, ← h.lookup source hsource id]
      by_cases hs : e.metadata.eventType = submitType
      · rw [if_pos hs, AList.lookup_insert_ne hne]
      · rw [if_neg hs, AList.lookup_erase_ne hne]
  · unfold tableAfter at hmem
    split at hmem
    · rcases (AList.mem_insert requested).mp hmem with rfl | hmem
      · exact ⟨e.sourceId, he, rfl⟩
      · exact h.numbered key hmem
    · exact h.numbered key (AList.mem_erase.mp hmem).2
  · rcases List.mem_append.mp hx with hx | hx
    · exact h.known x hx
    · rw [List.mem_singleton.mp hx]
      exact he

/-- The table has one entry for each unmatched submission. -/
theorem Tabled.length {before : List Event} {requested : AList fun _ : RequestKey => UInt32}
    (h : Tabled num sources before requested)
    (hnum : ∀ a ∈ sources, ∀ b ∈ sources, num a = num b → a = b) :
    requested.keys.length = (unmatchedKeys before).card := by
  have hsource : ∀ key ∈ unmatchedKeys before, key.1 ∈ sources := by
    intro key hkey
    obtain ⟨e, he⟩ := Option.isSome_iff_exists.mp (mem_unmatchedKeys.mp hkey)
    obtain ⟨hmem, rfl, _⟩ := unmatched_eq_some he
    exact h.known e hmem
  have himage : requested.keys.toFinset =
      (unmatchedKeys before).image fun key => (num key.1, key.2) := by
    ext ⟨a, id⟩
    rw [List.mem_toFinset, ← AList.mem_keys, Finset.mem_image]
    constructor
    · intro hmem
      obtain ⟨source, hs, ha⟩ := h.numbered _ hmem
      dsimp only at ha
      subst ha
      refine ⟨(source, id), mem_unmatchedKeys.mpr ?_, rfl⟩
      rw [← AList.lookup_isSome, h.lookup source hs id, Option.isSome_map] at hmem
      exact hmem
    · rintro ⟨⟨source, id'⟩, hkey, heq⟩
      cases heq
      dsimp only
      rw [← AList.lookup_isSome, h.lookup source (hsource _ hkey) id', Option.isSome_map]
      exact mem_unmatchedKeys.mp hkey
  rw [← List.toFinset_card_of_nodup requested.keys_nodup, himage]
  refine Finset.card_image_of_injOn ?_
  rintro ⟨a, id⟩ ha ⟨b, id'⟩ hb heq
  cases Prod.mk.inj heq with
  | intro h1 h2 =>
    dsimp only at h1 h2
    rw [hnum a (hsource _ ha) b (hsource _ hb) h1, h2]

/-- The reader accepts an event exactly when there is room for it, or it fits. -/
theorem Tabled.accepts {before : List Event} {requested : AList fun _ : RequestKey => UInt32}
    (h : Tabled num sources before requested)
    (hnum : ∀ a ∈ sources, ∀ b ∈ sources, num a = num b → a = b) {e : Event}
    (he : e.sourceId ∈ sources) (hwf : Wellformed e) :
    Accepts requested (num e.sourceId) e ↔ HasRoom before e ∧ FitsRequest before e := by
  have hlookup := h.lookup e.sourceId he e.metadata.urbId
  have hroom : (e.metadata.eventType = submitType → requested.keys.length < maxRequested) ↔
      HasRoom before e := by
    rw [h.length hnum]
    rfl
  constructor
  · intro ha
    refine ⟨hroom.mp ha.room, fun hs ht s hsome d hd => ?_⟩
    refine ha.bounds ht s.metadata.requestedLen ?_ d hd
    rw [requestOf, if_neg hs, hlookup]
    change (unmatched before (requestKey e)).map _ = _
    rw [hsome, Option.map_some]
  · rintro ⟨hr, hfits⟩
    refine ⟨hroom.mpr hr, fun ht len hlen d hd => ?_⟩
    unfold requestOf at hlen
    split at hlen
    · rename_i hs
      cases hlen
      exact hwf.buffer (hwf.known hs) ht d hd
    · rename_i hs
      rw [hlookup, Option.map_eq_some_iff] at hlen
      obtain ⟨s, hsome, rfl⟩ := hlen
      exact hfits hs ht s hsome d hd

/-- The reader accepts a file by the events alone. -/
theorem acceptsAll_iff (hnum : ∀ a ∈ sources, ∀ b ∈ sources, num a = num b → a = b)
    {events : List Event} (hwf : ∀ e ∈ events, Wellformed e)
    (hsources : ∀ e ∈ events, e.sourceId ∈ sources) :
    AcceptsAll num ∅ events ↔ Trace.Each (fun before e => HasRoom before e ∧ FitsRequest before e)
      events := by
  suffices hgen : ∀ before requested, Tabled num sources before requested →
      (AcceptsAll num requested events ↔ Trace.Each (fun after e =>
        HasRoom (before ++ after) e ∧ FitsRequest (before ++ after) e) events) from
    hgen [] ∅ tabled_nil
  induction events with
  | nil =>
    intro before requested _
    exact ⟨fun _ => Trace.Each.nil, fun _ => trivial⟩
  | cons e rest ih =>
    intro before requested h
    have he := hsources e List.mem_cons_self
    have hrest := ih (fun x hx => hwf x (List.mem_cons_of_mem _ hx))
      (fun x hx => hsources x (List.mem_cons_of_mem _ hx)) (before ++ [e]) _ (h.concat hnum he)
    rw [Trace.each_cons, List.append_nil, AcceptsAll, hrest,
      h.accepts hnum he (hwf e List.mem_cons_self)]
    simp only [List.append_assoc, List.singleton_append]

end

/-! ## Files of usbscope -/

theorem reads_iff_each {events : List Event} {w : Writer} (hwf : ∀ e ∈ events, Wellformed e)
    (hw : Writer.new.writeAll events = .ok w) :
    (∃ blocks r, Reads w.output blocks r) ↔
      Trace.Each (fun before e => HasRoom before e ∧ FitsRequest before e) events := by
  obtain ⟨_, hfew, hreads, _⟩ := reads_written hw hwf
  rw [hreads]
  exact acceptsAll_iff (fun a ha b hb => number_injOn hfew ha hb) hwf (writeAll_interfaces hw).2

/-- Events of one URB agree on its buffer, so completions fit their submission. -/
theorem fitsRequest_of_agree {before : List Event} {e : Event} (he : FromKernel e)
    (hagree : ∀ s ∈ before, s.metadata.urbId = e.metadata.urbId →
      s.metadata.requestedLen = e.metadata.requestedLen) : FitsRequest before e := by
  intro _ ht s hs d hd
  obtain ⟨hmem, hkey, _⟩ := unmatched_eq_some hs
  rw [hagree s hmem (congrArg Prod.snd hkey)]
  exact he.buffer he.always ht d hd

/-- **What usbscope writes it can read, within the reader's limits.** For any
part of the delivered events that is written to one file, the file is read to
its end exactly when no submission finds the table of unmatched submissions
full and, for events that came from a pcapng file, every ISO completion fits
the submission it follows. -/
theorem reads_kept_written {events kept : List Event} {w : Writer} (hkept : kept.Sublist events)
    (hw : Writer.new.writeAll kept = .ok w) :
    (Reassembled events →
      (∀ e ∈ events, ∀ e' ∈ events, e.metadata.urbId = e'.metadata.urbId →
        e.metadata.requestedLen = e'.metadata.requestedLen) →
      ((∃ blocks r, Reads w.output blocks r) ↔ Trace.Each HasRoom kept)) ∧
    (Received events →
      ((∃ blocks r, Reads w.output blocks r) ↔
        Trace.Each (fun before e => HasRoom before e ∧ FitsRequest before e) kept)) := by
  refine ⟨fun hevents hagree => ?_, fun hevents => ?_⟩
  · have hkernel : ∀ e ∈ kept, FromKernel e := fun e he => hevents.fromKernel e (hkept.subset he)
    rw [reads_iff_each (fun e he => (hkernel e he).toWellformed) hw]
    constructor
    · exact fun h i e he => (h i e he).1
    · intro h i e he
      have hmem := List.mem_of_getElem? he
      refine ⟨h i e he, fitsRequest_of_agree (hkernel e hmem) fun s hs => ?_⟩
      exact hagree s (hkept.subset (List.mem_of_mem_take hs)) e (hkept.subset hmem)
  · exact reads_iff_each (fun e he => hevents.wellformed e (hkept.subset he)) hw

/-- The completion of the bulk OUT URB. -/
def bulkOutCompletion : EventMeta :=
  { Reassembler.bulkOut with
    eventType := completeType
    actualLen := 3
    payloadLen := 0
    hasData := 0 }

def bulkOutCompleted : Event := ⟨0, bulkOutCompletion, [], [], true, true⟩

/-- The bulk OUT URB, submitted again before it completes under another id. -/
def twiceRecords : List Bytes :=
  Reassembler.bulkOutRecords ++ [Reassembler.bulkOutEnd,
    record recordBegin 12 0 { Reassembler.bulkOut with urbId := 8 }.wire,
    record recordData 12 0 [4, 5, 6], record recordEnd 12 0 (EventEnd.wire ⟨3, 0, complete⟩),
    record recordBegin 13 0 bulkOutCompletion.wire,
    record recordEnd 13 0 (EventEnd.wire ⟨0, 0, complete⟩)]

/-- Of three events the submission and its completion are kept. -/
theorem reads_kept_written_bulkOut : ∃ other w,
    Reassembled [bulkOutEvent, other, bulkOutCompleted] ∧
    Writer.new.writeAll [bulkOutEvent, bulkOutCompleted] = .ok w ∧
    ∃ blocks r, Reads w.output blocks r := by
  obtain ⟨other, hevents, hlen⟩ : ∃ other, Reassembled [bulkOutEvent, other, bulkOutCompleted] ∧
      other.metadata.requestedLen = 3 := ⟨_, ⟨twiceRecords, _, _, rfl, rfl⟩, rfl⟩
  have hkept : [bulkOutEvent, bulkOutCompleted].Sublist [bulkOutEvent, other, bulkOutCompleted] :=
    .cons_cons _ (.cons _ (.refl _))
  have hlens : ∀ e ∈ [bulkOutEvent, other, bulkOutCompleted], e.metadata.requestedLen = 3 := by
    intro e he
    simp only [List.mem_cons, List.not_mem_nil, or_false] at he
    rcases he with rfl | rfl | rfl
    · rfl
    · exact hlen
    · rfl
  have hwrites : (Writer.new.writeAll [bulkOutEvent, bulkOutCompleted]).toOption.isSome = true := by
    decide +kernel
  cases hw : Writer.new.writeAll [bulkOutEvent, bulkOutCompleted] with
  | error message =>
    rw [hw] at hwrites
    cases hwrites
  | ok w =>
    refine ⟨other, w, hevents, rfl, ((reads_kept_written hkept hw).1 hevents ?_).mpr ?_⟩
    · exact fun e he e' he' _ => (hlens e he).trans (hlens e' he').symm
    · refine Trace.each_cons.mpr ⟨fun _ => by decide, Trace.each_cons.mpr ⟨fun hs => ?_, Trace.Each.nil⟩⟩
      cases hs

/-! ## Files that are not read -/

/-- An interrupt IN submission of its own URB. -/
def submission (i : Nat) : Event :=
  { sourceId := 0
    metadata := { EventMeta.zero with
      urbId := UInt64.ofNat i
      eventType := submitType
      transferType := 1
      endpoint := 0x81 }
    iso := []
    payload := []
    identityKnown := true
    requestedKnown := true }

def submissionRecords (i : Nat) : List Bytes :=
  [record recordBegin (UInt64.ofNat i) 0 (submission i).metadata.wire,
    record recordEnd (UInt64.ofNat i) 0 (EventEnd.wire ⟨0, 0, complete⟩)]

/-- A reassembler with nothing pending delivers the submission. -/
theorem run_submission {self : Reassembler} (h : self.pending = ∅) (i : Nat) :
    ∃ next : Reassembler, self.run (submissionRecords i) = .ok (next, [none, some (submission i)]) ∧
      next.pending = ∅ := by
  have hbegin : slotBytes none (record recordBegin (UInt64.ofNat i) 0 (submission i).metadata.wire) =
      .ok (some (Pending.opened (submission i).metadata), .opened) := by
    refine slotBytes_ok_iff.mpr (.opened (parse_published (by simp [chunkSize])) rfl ?_)
    refine ensure_bind_eq_ok.mpr ⟨rfl, decodeMeta_wire ?_⟩
    refine ⟨.inl rfl, ?_, ?_, .inr rfl, .inr rfl, le_refl _⟩
    · change (1 : UInt8).toNat ≤ 3 ∧ (0 : UInt8).toNat ≤ 127
      decide
    · change (0 : UInt8).toNat ≤ 1 ∧ (0 : UInt8).toNat ≤ 1
      decide
  have hchecked : Checked (Pending.opened (submission i).metadata)
      (EventEnd.wire ⟨0, 0, complete⟩) := by
    obtain ⟨hcopied, hdescriptors, hreason⟩ := end_fields ⟨0, 0, complete⟩
    have hphase : (submission i).metadata.dataPhase = false := by
      change ((submitType == submitType && (0x81 : UInt8) &&& 0x80 == 0) ||
        (submitType == completeType && (0x81 : UInt8) &&& 0x80 != 0)) = false
      decide
    refine ⟨hreason, ?_, hdescriptors, rfl, ?_, ?_, rfl⟩
    · rw [hcopied]
      rfl
    · rw [declaredPayload_eq]
      exact (if_pos hphase).symm
    · change (0 : UInt8) ≠ 0 ↔ (0 : UInt32).toNat ≠ 0
      decide
  have hcomplete : (Pending.opened (submission i).metadata).isComplete
      (EventEnd.wire ⟨0, 0, complete⟩) = .ok true :=
    isComplete_eq_ok.mpr ⟨fun ht => absurd (show (1 : UInt8) = 0 from ht) (by decide),
      fun _ => hchecked, fun _ => rfl⟩
  have hend : slotBytes (some (Pending.opened (submission i).metadata))
      (record recordEnd (UInt64.ofNat i) 0 (EventEnd.wire ⟨0, 0, complete⟩)) =
      .ok (none, .delivered (submission i)) :=
    slotBytes_ok_iff.mpr (.ended (parse_published (by simp [chunkSize])) rfl
      ⟨EventEnd.length_wire _, rfl⟩ hcomplete)
  have hempty : self.slots (UInt64.ofNat i) = none := by
    rw [Reassembler.slots, h]
    exact Std.ExtTreeMap.getElem?_empty
  have hstep₁ : self.step (record recordBegin (UInt64.ofNat i) 0 (submission i).metadata.wire) =
      .ok (⟨setSlot self.pending (UInt64.ofNat i) (some (Pending.opened (submission i).metadata)),
        self.stats.count .opened⟩, none) := by
    refine Reassembler.step_ok_iff.mpr
      ⟨_, _, ?_, fun _ => by simp [h, maxPendingEvents], by rw [recordId_record], rfl⟩
    rw [recordId_record, hempty]
    exact hbegin
  have hstep₂ : Reassembler.step
      ⟨setSlot self.pending (UInt64.ofNat i) (some (Pending.opened (submission i).metadata)),
        self.stats.count .opened⟩
      (record recordEnd (UInt64.ofNat i) 0 (EventEnd.wire ⟨0, 0, complete⟩)) =
      .ok (⟨setSlot (setSlot self.pending (UInt64.ofNat i)
        (some (Pending.opened (submission i).metadata))) (UInt64.ofNat i) none,
        (self.stats.count .opened).count (.delivered (submission i))⟩, some (submission i)) := by
    refine Reassembler.step_ok_iff.mpr ⟨_, _, ?_, ?_, by rw [recordId_record], rfl⟩
    · rw [recordId_record, Reassembler.slots, getElem?_setSlot, if_pos rfl]
      exact hend
    · rw [recordKind_record]
      exact fun hk => absurd hk (by decide)
  refine ⟨_, Machine.run_cons.mpr ⟨_, _, _, hstep₁, Machine.run_cons.mpr ⟨_, _, _, hstep₂, rfl, rfl⟩,
    rfl⟩, ?_⟩
  apply Std.ExtTreeMap.ext_getElem?
  intro k
  rw [getElem?_setSlot, getElem?_setSlot, h]
  simp

theorem reassembled_submissions (n : Nat) : Reassembled ((List.range n).map submission) := by
  suffices h : ∃ (next : Reassembler) (evs : List (Option Event)),
      Reassembler.fresh.run ((List.range n).flatMap submissionRecords) = .ok (next, evs) ∧
        next.pending = ∅ ∧ (List.range n).map submission = evs.filterMap id by
    obtain ⟨next, evs, hrun, _, hevs⟩ := h
    exact ⟨_, next, evs, hrun, hevs⟩
  induction n with
  | zero => exact ⟨Reassembler.fresh, [], rfl, rfl, rfl⟩
  | succ n ih =>
    obtain ⟨next, evs, hrun, hempty, hevs⟩ := ih
    obtain ⟨next', hrun', hempty'⟩ := run_submission hempty n
    refine ⟨next', evs ++ [none, some (submission n)], ?_, hempty', ?_⟩
    · rw [List.range_succ, List.flatMap_append, List.flatMap_singleton]
      exact Machine.run_append.mpr ⟨next, evs, _, hrun, hrun', rfl⟩
    · rw [List.range_succ, List.map_append, hevs, List.filterMap_append]
      rfl

/-- Events of the first source without data are always written. -/
theorem writeAll_submissions (l : List Nat) {w : Writer} (hw : w.interfaces = [] ∨ w.interfaces = [0]) :
    ∃ w', w.writeAll (l.map submission) = .ok w' := by
  induction l generalizing w with
  | nil => exact ⟨w, rfl⟩
  | cons i rest ih =>
    have hi : interfaceFor w.interfaces 0 = .ok (0, [], [0]) := by
      rcases hw with h | h <;> rw [h] <;> rfl
    obtain ⟨l, hl⟩ : ∃ l, lengths 0 0 = .ok l := ⟨_, rfl⟩
    have hevent : w.writeEvent (submission i) = .ok ⟨w.output ++ ([] ++ packetBlock 0 (submission i) l),
        w.bytes + 0 + l.total.toNat, [0]⟩ :=
      writeEvent_eq_ok.mpr ⟨0, [], [0], l, hi, hl, le_refl _, rfl⟩
    obtain ⟨w', hw'⟩ := ih (w := ⟨w.output ++ ([] ++ packetBlock 0 (submission i) l),
      w.bytes + 0 + l.total.toNat, [0]⟩) (.inr rfl)
    exact ⟨w', writeAll_cons.mpr ⟨_, hevent, hw'⟩⟩

/-- Submissions of different URBs are all unmatched. -/
theorem card_unmatchedKeys_submissions {n : Nat} (hn : n ≤ 2 ^ 64) :
    (unmatchedKeys ((List.range n).map submission)).card = n := by
  induction n with
  | zero => rfl
  | succ n ih =>
    have hset : unmatchedKeys ((List.range (n + 1)).map submission) =
        insert (requestKey (submission n)) (unmatchedKeys ((List.range n).map submission)) := by
      rw [List.range_succ, List.map_append, List.map_singleton]
      ext key
      rw [mem_unmatchedKeys, unmatched_concat, Finset.mem_insert, mem_unmatchedKeys]
      by_cases hk : requestKey (submission n) = key
      · rw [if_pos hk, if_pos (show (submission n).metadata.eventType = submitType from rfl)]
        simp [hk]
      · rw [if_neg hk]
        simp [Ne.symm hk]
    have hnew : requestKey (submission n) ∉ unmatchedKeys ((List.range n).map submission) := by
      intro hmem
      obtain ⟨e, he⟩ := Option.isSome_iff_exists.mp (mem_unmatchedKeys.mp hmem)
      obtain ⟨hmem, hkey, _⟩ := unmatched_eq_some he
      obtain ⟨i, hi, rfl⟩ := List.mem_map.mp hmem
      rw [List.mem_range] at hi
      have hid : (UInt64.ofNat i).toNat = (UInt64.ofNat n).toNat :=
        congrArg UInt64.toNat (congrArg Prod.snd hkey)
      rw [UInt64.toNat_ofNat_of_lt' (by simp only [UInt64.size]; omega),
        UInt64.toNat_ofNat_of_lt' (by simp only [UInt64.size]; omega)] at hid
      omega
    rw [hset, Finset.card_insert_of_notMem hnew, ih (by omega)]

/-- Two uses of one URB on an ISO OUT endpoint; the buffer of the second is
larger. -/
def reusedUrb : List Event :=
  let submit (len : UInt32) : Event := ⟨0, { EventMeta.zero with
    urbId := 7, eventType := submitType, endpoint := 2, requestedLen := len }, [], [], false, true⟩
  let done (len actual : UInt32) (d : IsoDescriptor) : Event := ⟨0, { EventMeta.zero with
    urbId := 7, eventType := completeType, endpoint := 2, requestedLen := len, actualLen := actual,
    isoCount := 1 }, [d], [], false, true⟩
  [submit 8, done 8 4 ⟨0, 0, 4, 0⟩, submit 16, done 16 8 ⟨0, 8, 8, 0⟩]

/-- A file of them. -/
def reusedUrbFile : Bytes :=
  match Writer.new.writeAll reusedUrb with
  | .ok w => w.output
  | .error _ => []

/-- Not everything written is read: more unmatched submissions than the table
holds, and a filter that keeps a submission and the completion of a later one. -/
theorem written_not_read :
    (Reassembled ((List.range 65537).map submission) ∧
      (∀ i, (submission i).metadata.requestedLen = 0) ∧ Filter.parse "" = .ok ⟨.all⟩ ∧
      ∃ w, Writer.new.writeAll (((List.range 65537).map submission).filter fun e =>
          Filter.isMatch ⟨.all⟩ e none = .ok true) = .ok w ∧
        ¬ ∃ blocks r, Reads w.output blocks r) ∧
    deliveredOf 6 reusedUrbFile = some reusedUrb ∧
      ∃ f w, Filter.parse "len 8" = .ok f ∧
        Writer.new.writeAll (reusedUrb.filter fun e => f.isMatch e none = .ok true) = .ok w ∧
        ¬ ∃ blocks r, Reads w.output blocks r := by
  have hread : deliveredOf 6 reusedUrbFile = some reusedUrb := by decide +kernel
  refine ⟨⟨reassembled_submissions _, fun _ => rfl, rfl, ?_⟩, hread, ?_⟩
  · have hkeep : ((List.range 65537).map submission).filter (fun e =>
        Filter.isMatch ⟨.all⟩ e none = .ok true) = (List.range 65537).map submission :=
      List.filter_eq_self.mpr fun e _ => by
        have hall : Filter.isMatch ⟨.all⟩ e none = .ok true := rfl
        rw [hall, decide_eq_true rfl]
    rw [hkeep]
    obtain ⟨w, hw⟩ := writeAll_submissions (List.range 65537) (w := Writer.new) (.inl rfl)
    refine ⟨w, hw, fun hreads => ?_⟩
    have hwf := wellformed_of_delivered (.inl (reassembled_submissions 65537))
    have heach := (reads_iff_each hwf hw).mp hreads 65536 (submission 65536)
      (by rw [List.getElem?_map, List.getElem?_range (by decide), Option.map_some])
    rw [← List.map_take, List.take_range] at heach
    have hlt := heach.1 rfl
    rw [show min 65536 65537 = 65536 from rfl, card_unmatchedKeys_submissions (by decide)] at hlt
    exact absurd hlt (by decide)
  · have hkeep : reusedUrb.filter (fun e => Filter.isMatch
        ⟨.predicate ⟨.length, none, .eq, 8⟩⟩ e none = .ok true) =
        (reusedUrb.take 1 ++ reusedUrb.drop 3) := by decide +kernel
    obtain ⟨w, hw⟩ : ∃ w, Writer.new.writeAll (reusedUrb.take 1 ++ reusedUrb.drop 3) = .ok w :=
      ⟨_, rfl⟩
    refine ⟨⟨.predicate ⟨.length, none, .eq, 8⟩⟩, w, by rfl, by rw [hkeep]; exact hw,
      fun hreads => ?_⟩
    have hwf : ∀ e ∈ reusedUrb.take 1 ++ reusedUrb.drop 3, Wellformed e := by
      intro e he
      refine (received_of_deliveredOf hread).wellformed e ?_
      rcases List.mem_append.mp he with he | he
      · exact List.mem_of_mem_take he
      · exact List.mem_of_mem_drop he
    have hfits := ((reads_iff_each hwf hw).mp hreads 1 _ rfl).2 (by decide) rfl _ rfl
      ⟨0, 8, 8, 0⟩ (by decide)
    exact absurd hfits (by decide)

end UsbScope.Pcapng
