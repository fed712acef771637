import UsbScope.Ebpf.Ledger
import UsbScope.Capture.Accounting
import UsbScope.Capture.Archive
import UsbScope.Lib.Keys

/-! # What userspace gets of a run

The records of a run reach the reassembler in order within each event, those of
different events interleaved in any way. The calls that counted no loss are
delivered, each once and as its image; of the others, at most as many are
reported as incomplete, and no record is an orphan. -/
namespace UsbScope.Ebpf
open UsbScope.Lib UsbScope.Common UsbScope.Capture

/-- An outcome of a record that its event expects. -/
def Expected : Outcome → Prop
  | .summary _ => False
  | .orphan => False
  | _ => True

/-! ## The slot of one call -/

/-- The run of the slot on the records of a call: it delivers the image of the
call, or nothing if the call counted a loss. -/
structure SlotRun (x : Emission) (t : Option Pending) (os : List Outcome) : Prop where
  run : Machine.run slotBytes none x.records = .ok (t, os)
  expected : ∀ o ∈ os, Expected o
  verdict : (x.lost = 0 ∧ ∃ e, os.filterMap Outcome.event = [e] ∧ x.call.image = some e) ∨
    (x.lost ≠ 0 ∧ os.filterMap Outcome.event = [])

theorem expected_opened {os : List Outcome} (h : ∀ o ∈ os, Expected o) :
    ∀ o ∈ Outcome.opened :: os, Expected o := by
  intro o ho
  rcases List.mem_cons.mp ho with rfl | ho
  · trivial
  · exact h o ho

theorem expected_stored (l : List Bytes) : ∀ o ∈ l.map fun _ => Outcome.stored, Expected o := by
  intro o ho
  obtain ⟨_, _, rfl⟩ := List.mem_map.mp ho
  trivial

theorem Emission.lost_of_ring {x : Emission} (h : x.start.stats.ringLosses < x.final.stats.ringLosses) :
    x.lost ≠ 0 := Emission.lossy_iff.mp (.inl h)

/-- Up to a lost `END` nothing is delivered; a whole stream delivers its pending
event or drops it. -/
theorem Emission.Streams.slotRun {x : Emission} {m : EventMeta} {buffer : UInt64} {sg : UInt32}
    {iso : IsoContext} (h : x.Streams m buffer sg iso) (hv : x.Valid) : ∃ t os, SlotRun x t os := by
  have hm := h.valid hv
  have hstream := h.stream
  generalize hrecords : x.records = records at hstream
  cases hstream with
  | cut body ring =>
    obtain ⟨p, hopen, -⟩ := run_open iso.copy.eventId hm body
    refine ⟨some p, _, hrecords ▸ hopen, expected_opened (expected_stored _),
      .inr ⟨Emission.lost_of_ring ring, ?_⟩⟩
    rw [filterMap_opened, filterMap_stored]
  | @whole parts e lost closed losses =>
    have hlost : x.lost = lost := by rw [Emission.lost, losses, Nat.add_sub_cancel_left]
    have hfull : e.reason = 0 →
        Full (Call.declare { m with status := x.call.status } iso.span) parts := by
      intro h0
      rcases closed.verdict with ⟨_, _, hfull⟩ | ⟨hne, _⟩
      · exact hfull
      · exact absurd h0 hne
    obtain ⟨p, hg, hrun, hchecked⟩ := run_closed iso.copy.eventId hm closed.body h.ready.flag
      closed.copied closed.count hfull
    refine ⟨none, _, hrecords ▸ hrun, expected_opened ?_, ?_⟩
    · intro o ho
      rcases List.mem_append.mp ho with ho | ho
      · exact expected_stored _ o ho
      · rw [List.mem_singleton.mp ho]
        split <;> trivial
    · rw [filterMap_opened, List.filterMap_append, filterMap_stored, hlost]
      rcases closed.verdict with ⟨hr, hl, hfullm⟩ | ⟨hr, hl⟩
      · refine .inl ⟨hl, p.event, by rw [if_pos hr]; rfl, ?_⟩
        exact image_of_checked h.read h.ready h.submission hm closed.body hfullm closed.frames
          closed.sourced hg (hchecked hr)
      · exact .inr ⟨hl, by rw [if_neg hr]; rfl⟩

theorem Emission.slotRun {x : Emission} (hv : x.Valid) : ∃ t os, SlotRun x t os := by
  rcases x.stream with ⟨hnil, hlossy⟩ | ⟨m, buffer, sg, iso, h⟩
  · exact ⟨none, [], by rw [hnil]; rfl, by simp, .inr ⟨Emission.lossy_iff.mp hlossy, rfl⟩⟩
  · exact h.slotRun hv

/-! ## The calls of a run -/

/-- The calls that published something. -/
def published (log : List Output) : List Emission :=
  (emissions log).filter fun x => x.records ≠ []

/-- The calls that counted no loss. -/
def lossless (log : List Output) : List Emission := (emissions log).filter fun x => x.lost = 0

theorem streams_of_published {log : List Output} {x : Emission} (hx : x ∈ published log) :
    ∃ m buffer sg iso, x.Streams m buffer sg iso := by
  rcases x.stream with ⟨hnil, -⟩ | h
  · simp [published, hnil] at hx
  · exact h

theorem records_ne_nil {x : Emission} (h : x.lost = 0) : x.records ≠ [] := by
  rcases x.stream with ⟨-, hlossy⟩ | ⟨m, buffer, sg, iso, hx⟩
  · exact absurd h (Emission.lossy_iff.mp hlossy)
  · have hstream := hx.stream
    generalize x.records = records at hstream
    cases hstream <;> simp

theorem lossless_published (log : List Output) :
    (published log).filter (fun x => x.lost = 0) = lossless log := by
  rw [published, lossless, List.filter_filter]
  refine List.filter_congr fun x _ => ?_
  by_cases h : x.lost = 0
  · simp [h, records_ne_nil h]
  · simp [h]

theorem published_records (log : List Output) :
    (published log).flatMap Emission.records = (emissions log).flatMap Emission.records := by
  unfold published
  induction emissions log with
  | nil => rfl
  | cons x rest ih =>
    by_cases h : x.records = []
    · rw [List.filter_cons_of_neg (by simpa using h), List.flatMap_cons, h, List.nil_append, ih]
    · rw [List.filter_cons_of_pos (by simpa using h), List.flatMap_cons, List.flatMap_cons, ih]

theorem Ledger.records {log : List Output} {s : Tracker} (h : Ledger log s) :
    s.probe.events.map trim = (published log).flatMap Emission.records := by
  rw [h.ring, List.map_flatMap, published_records]
  rfl

/-- The ids of the calls that published are distinct, as long as the 64-bit
sequence has not wrapped around. -/
theorem Ledger.eventIds_nodup {log : List Output} {s : Tracker} (h : Ledger log s)
    (hid : s.probe.sequence < 2 ^ 64) : ((published log).map Emission.eventId).Nodup := by
  have hallocated : ∀ x ∈ published log, x.allocated = some (x.start.sequence + 1) := by
    intro x hx
    obtain ⟨m, buffer, sg, iso, h⟩ := streams_of_published hx
    exact h.allocated
  have hsub : List.Sublist ((published log).filterMap Emission.allocated) (eventIds log) := by
    rw [eventIds_eq]
    exact List.filter_sublist.filterMap _
  have hsome : (published log).filterMap Emission.allocated =
      (published log).map fun x => x.start.sequence + 1 := by
    rw [← List.filterMap_eq_map]
    exact List.filterMap_congr hallocated
  have hnodup : ((published log).map fun x => x.start.sequence + 1).Nodup :=
    hsome ▸ hsub.nodup h.ids
  have hbounded : ∀ x ∈ published log, x.start.sequence + 1 < 2 ^ 64 := by
    intro x hx
    have hmem : x.start.sequence + 1 ∈ eventIds log :=
      hsub.subset (hsome ▸ List.mem_map.mpr ⟨x, hx, rfl⟩)
    exact (h.bounded _ hmem).trans_lt hid
  have hmap : (published log).map Emission.eventId =
      ((published log).map fun x => x.start.sequence + 1).map UInt64.ofNat := by
    rw [List.map_map]
    rfl
  rw [hmap]
  refine List.Nodup.map_on ?_ hnodup
  intro a ha b hb hab
  obtain ⟨x, hx, rfl⟩ := List.mem_map.mp ha
  obtain ⟨y, hy, rfl⟩ := List.mem_map.mp hb
  have heq := congrArg UInt64.toNat hab
  rwa [UInt64.toNat_ofNat_of_lt' (hbounded x hx), UInt64.toNat_ofNat_of_lt' (hbounded y hy)] at heq

theorem length_lossy_le (calls : List Emission) : calls.length ≤
    (calls.filter fun x => x.lost = 0).length + (calls.map Emission.lost).sum := by
  induction calls with
  | nil => exact Nat.zero_le _
  | cons x rest ih =>
    rw [List.map_cons, List.sum_cons, List.length_cons, List.filter_cons]
    split
    · rw [List.length_cons]
      omega
    · rename_i hx
      have hpos : x.lost ≠ 0 := by simpa using hx
      omega

theorem Ledger.missing {log : List Output} {s : Tracker} (h : Ledger log s) :
    (emissions log).length ≤ (lossless log).length + s.probe.losses :=
  (length_lossy_le _).trans (Nat.add_le_add_left h.lost _)

/-! ## Streams -/

theorem sized_record {kind : UInt16} {id offset : UInt64} {body : Bytes}
    (h : body.length ≤ chunkSize) : Sized (record kind id offset body) := by
  have hsize : (UInt32.ofNat (24 + body.length)).toNat = 24 + body.length := by
    refine UInt32.toNat_ofNat_of_lt' ?_
    unfold chunkSize at h
    simp only [UInt32.size]
    omega
  have hlength : (record kind id offset body).length = 24 + body.length := by simp [record]
  refine ⟨by omega, by unfold maxRecordSize; omega, ?_⟩
  rw [hlength, record, (header_fields _ _).2.2.1, hsize]

theorem Body.sized {m : EventMeta} {parts : List Part} (h : Body m parts) (id : UInt64) :
    ∀ part ∈ parts, Sized (part.record id) := by
  intro part hpart
  cases part with
  | data f => exact sized_record (h.fits f (List.mem_filterMap.mpr ⟨_, hpart, rfl⟩)).2.1
  | iso index d => exact sized_record (by simp [chunkSize])

section

variable {call : Call} {m : EventMeta} {sg : UInt32} {iso : IsoContext} {st st' : Probe}
  {stream : List Bytes}

theorem Stream.sized (h : Stream call m sg iso st st' stream) : ∀ r ∈ stream, Sized r := by
  have hbegin : Sized (beginRecord iso.copy.eventId m) := sized_record (by simp [chunkSize])
  intro r hr
  cases h with
  | cut body ring =>
    rcases List.mem_cons.mp hr with rfl | hr
    · exact hbegin
    · obtain ⟨part, hpart, rfl⟩ := List.mem_map.mp hr
      exact body.sized _ part hpart
  | whole closed losses =>
    rcases List.mem_cons.mp hr with rfl | hr
    · exact hbegin
    rcases List.mem_append.mp hr with hr | hr
    · obtain ⟨part, hpart, rfl⟩ := List.mem_map.mp hr
      exact closed.body.sized _ part hpart
    · obtain rfl := List.mem_singleton.mp hr
      exact sized_record (by simp [chunkSize])

/-- Every stream has one `BEGIN`. -/
theorem Stream.begins (h : Stream call m sg iso st st' stream) :
    (stream.countP fun b => recordKind b = recordBegin) = 1 := by
  have hbegin : recordKind (beginRecord iso.copy.eventId m) = recordBegin := recordKind_record _ _ _ _
  have hparts : ∀ parts : List Part, ((parts.map (Part.record iso.copy.eventId)).countP
      fun b => recordKind b = recordBegin) = 0 := by
    intro parts
    refine List.countP_eq_zero.mpr fun b hb => ?_
    obtain ⟨part, _, rfl⟩ := List.mem_map.mp hb
    rcases part.isPart iso.copy.eventId with hk | hk <;> simp [hk, recordData, recordIso, recordBegin]
  cases h with
  | cut body ring => rw [List.countP_cons_of_pos (by simpa using hbegin), hparts]
  | @whole parts e lost closed losses =>
    have hend : recordKind (endRecord iso.copy.eventId e) = recordEnd := recordKind_record _ _ _ _
    rw [List.countP_cons_of_pos (by simpa using hbegin), List.countP_append, hparts,
      List.countP_singleton, hend]
    simp [recordEnd, recordBegin]

/-- An event that stays open has lost its `END`. -/
theorem Stream.lost_end (h : Stream call m sg iso st st' stream)
    (hopen : iso.copy.eventId ∈ openIds stream) : st.stats.ringLosses < st'.stats.ringLosses := by
  cases h with
  | cut body ring => exact ring
  | @whole parts e lost closed losses =>
    have hend : recordKind (endRecord iso.copy.eventId e) = recordEnd := recordKind_record _ _ _ _
    have hid : recordId (endRecord iso.copy.eventId e) = iso.copy.eventId := recordId_record _ _ _ _
    rw [← List.cons_append, openIds_append_singleton, openStep, hend, hid,
      if_neg (by decide), if_pos rfl] at hopen
    exact absurd hopen (Finset.notMem_erase _ _)

end

/-- The trimmed items of the ring are records. -/
theorem Ledger.sized {log : List Output} {s : Tracker} (h : Ledger log s) :
    ∀ item ∈ s.probe.events, Sized (trim item) := by
  intro item hitem
  have hmem : trim item ∈ s.probe.events.map trim := List.mem_map_of_mem hitem
  rw [h.records] at hmem
  obtain ⟨x, hx, hr⟩ := List.mem_flatMap.mp hmem
  obtain ⟨m, buffer, sg, iso, hx'⟩ := streams_of_published hx
  exact hx'.stream.sized _ hr

/-! ## The records of a run, interleaved -/

section

variable {log : List Output} {s : Tracker} {records : List Bytes}

/-- The records of the ring, in order within each event and otherwise in any
order. -/
def Interleaved (s : Tracker) (records : List Bytes) : Prop :=
  ∀ id, own id records = own id (s.probe.events.map trim)

theorem Interleaved.own_published (hrecords : Interleaved s records) (h : Ledger log s)
    (hid : s.probe.sequence < 2 ^ 64) {x : Emission} (hx : x ∈ published log) :
    own x.eventId records = x.records := by
  have hkey : ∀ y ∈ published log, ∀ b ∈ y.records, recordId b = y.eventId :=
    fun y _ b hb => y.recordId_eq hb
  have hshare := Keys.share_flatMap hkey x.eventId
  rw [filter_eventId (h.eventIds_nodup hid) hx, List.flatMap_singleton] at hshare
  rw [hrecords, h.records]
  exact hshare

/-- Every record is one of a call. -/
theorem Interleaved.mem_published (hrecords : Interleaved s records) (h : Ledger log s) {b : Bytes}
    (hb : b ∈ records) : ∃ x ∈ published log, b ∈ x.records ∧ recordId b = x.eventId := by
  have hown : b ∈ own (recordId b) records := mem_own.mpr ⟨hb, rfl⟩
  rw [hrecords, h.records] at hown
  obtain ⟨x, hx, hbx⟩ := List.mem_flatMap.mp (mem_own.mp hown).1
  exact ⟨x, hx, hbx, x.recordId_eq hbx⟩

theorem slots_fresh (id : UInt64) : Reassembler.fresh.slots id = none := by
  simp [Reassembler.slots, Reassembler.fresh]

/-- The pushes of the records of one call. -/
theorem Interleaved.slot (hrecords : Interleaved s records) (h : Ledger log s)
    (hid : s.probe.sequence < 2 ^ 64) {σ : UInt64 → Option Pending} {os : List Outcome}
    (hrun : Machine.run Reassembler.keyedStep Reassembler.fresh.slots records = .ok (σ, os))
    {x : Emission} (hx : x ∈ published log) :
    ∃ t, SlotRun x t (Machine.outputsOf recordId x.eventId records os) := by
  obtain ⟨t, os', hslot⟩ := x.slotRun (h.valid x (List.mem_of_mem_filter hx))
  have hkeyed := Machine.run_keyed hrun x.eventId
  rw [slots_fresh] at hkeyed
  have hsame := hkeyed.symm.trans
    ((congrArg _ (hrecords.own_published h hid hx)).trans hslot.run)
  obtain ⟨-, hos⟩ := Prod.mk.inj (Except.ok.inj hsame)
  exact ⟨t, hos ▸ hslot⟩

/-! ## What the reassembler returns -/

theorem foldl_expected {os : List Outcome} (h : ∀ o ∈ os, Expected o) (stats : ReassemblyStats) :
    (os.foldl ReassemblyStats.count stats).orphanRecords = stats.orphanRecords ∧
      (os.foldl ReassemblyStats.count stats).kernelLosses = stats.kernelLosses := by
  induction os generalizing stats with
  | nil => exact ⟨rfl, rfl⟩
  | cons o rest ih =>
    obtain ⟨h1, h2⟩ := ih (fun o ho => h o (List.mem_cons_of_mem _ ho)) (stats.count o)
    have ho := h o List.mem_cons_self
    rw [List.foldl_cons, h1, h2]
    cases o with
    | summary losses => exact absurd ho id
    | orphan => exact absurd ho id
    | opened => exact ⟨rfl, rfl⟩
    | stored => exact ⟨rfl, rfl⟩
    | delivered e => exact ⟨rfl, rfl⟩
    | dropped => exact ⟨rfl, rfl⟩

/-- Every record is expected by its event. -/
theorem Interleaved.expected (hrecords : Interleaved s records) (h : Ledger log s)
    (hid : s.probe.sequence < 2 ^ 64) {σ : UInt64 → Option Pending} {os : List Outcome}
    (hrun : Machine.run Reassembler.keyedStep Reassembler.fresh.slots records = .ok (σ, os)) :
    ∀ o ∈ os, Expected o := by
  intro o ho
  have hlen := Machine.length_run hrun
  rw [← List.map_snd_zip hlen.le] at ho
  obtain ⟨⟨b, o⟩, hmem, rfl⟩ := List.mem_map.mp ho
  obtain ⟨x, hx, -, hbid⟩ := hrecords.mem_published h (List.of_mem_zip hmem).1
  obtain ⟨t, hslot⟩ := hrecords.slot h hid hrun hx
  refine hslot.expected o (List.mem_map.mpr ⟨(b, o), List.mem_filter.mpr ⟨hmem, ?_⟩, rfl⟩)
  simpa using hbid

theorem Interleaved.begins (hrecords : Interleaved s records) (h : Ledger log s) :
    (Capture.begins records).card = (published log).length := by
  have hone : ∀ x ∈ published log,
      (x.records.countP fun b => recordKind b = recordBegin) = 1 := by
    intro x hx
    obtain ⟨m, buffer, sg, iso, h⟩ := streams_of_published hx
    exact h.stream.begins
  have hperm : records.Perm (s.probe.events.map trim) := Keys.perm_of_share hrecords
  have hcard : (Capture.begins records).card =
      records.countP fun b => recordKind b = recordBegin := by
    rw [← Machine.card_positions]
    simp [Capture.begins]
  rw [hcard, hperm.countP_eq, h.records, List.countP_flatMap]
  exact (congrArg List.sum (List.map_congr_left hone)).trans (by simp)

/-- Calls matched with what they delivered. -/
theorem forall₂_image {calls : List Emission} {f : Emission → List Event}
    (h : ∀ x ∈ calls, (x.lost = 0 ∧ ∃ e, f x = [e] ∧ x.call.image = some e) ∨ (x.lost ≠ 0 ∧ f x = [])) :
    List.Forall₂ (fun x e => x.call.image = some e) (calls.filter fun x => x.lost = 0)
      (calls.flatMap f) := by
  induction calls with
  | nil => exact .nil
  | cons x rest ih =>
    have hrest := ih fun y hy => h y (List.mem_cons_of_mem _ hy)
    rw [List.flatMap_cons]
    rcases h x List.mem_cons_self with ⟨hl, e, he, himage⟩ | ⟨hl, he⟩
    · rw [List.filter_cons_of_pos (by simpa using hl), he, List.singleton_append]
      exact .cons himage hrest
    · rw [List.filter_cons_of_neg (by simpa using hl), he, List.nil_append]
      exact hrest

/-- What a run of the hooks delivers: every call that counted no loss, once and
as its image. Of the other calls those that published at all are reported as
incomplete. -/
structure Delivery (log : List Output) (stats : ReassemblyStats) (events : List Event) : Prop where
  captured : ∃ calls, calls.Perm (lossless log) ∧
    List.Forall₂ (fun x e => x.call.image = some e) calls events
  complete : stats.complete = (lossless log).length
  incomplete : stats.complete + stats.incomplete = (published log).length
  orphans : stats.orphanRecords = 0
  losses : stats.kernelLosses = 0

/-- The calls that counted no loss, each with the event of its id. -/
theorem Interleaved.matched (hrecords : Interleaved s records) (h : Ledger log s)
    (hid : s.probe.sequence < 2 ^ 64) {next : Reassembler} {evs : List (Option Event)}
    (hrun : Reassembler.fresh.run records = .ok (next, evs)) :
    List.Forall₂ (fun x e => x.call.image = some e) (lossless log)
      ((published log).flatMap fun x => deliveredOf x.eventId records evs) := by
  obtain ⟨os, hslots, rfl, -⟩ := Reassembler.run_slots hrun
  rw [← lossless_published]
  refine forall₂_image fun x hx => ?_
  obtain ⟨t, hslot⟩ := hrecords.slot h hid hslots hx
  rw [deliveredOf, Machine.outputsOf_map, List.reduceOption, List.filterMap_map]
  exact hslot.verdict

theorem Interleaved.delivery (hrecords : Interleaved s records) (h : Ledger log s)
    (hid : s.probe.sequence < 2 ^ 64) {next : Reassembler} {evs : List (Option Event)}
    (hrun : Reassembler.fresh.run records = .ok (next, evs)) :
    Delivery log next.finish.stats evs.reduceOption := by
  have hacc : Accounted records evs next :=
    Machine.run_history (I := Accounted) accounted_fresh (fun _ _ _ _ _ _ => Accounted.step) hrun
  have hlen : evs.length = records.length := Machine.length_run hrun
  have hmatched := hrecords.matched h hid hrun
  obtain ⟨os, hslots, rfl, hstats⟩ := Reassembler.run_slots hrun
  obtain ⟨horphans, hlosses⟩ := foldl_expected (hrecords.expected h hid hslots) Reassembler.fresh.stats
  -- the returned events, by event id
  have hperm : ((os.map Outcome.event).reduceOption).Perm
      ((published log).flatMap fun x => deliveredOf x.eventId records (os.map Outcome.event)) := by
    have hkeys : ∀ p ∈ records.zip (os.map Outcome.event),
        recordId p.1 ∈ (published log).map Emission.eventId := by
      intro p hp
      obtain ⟨x, hx, -, hbid⟩ := hrecords.mem_published h (List.of_mem_zip hp).1
      exact List.mem_map.mpr ⟨x, hx, hbid.symm⟩
    have hgroups := ((@Keys.perm_groups _ _ _ (fun p => recordId p.1) _ _
      (h.eventIds_nodup hid) hkeys).map Prod.snd).filterMap id
    rw [List.map_snd_zip hlen.le, List.map_flatMap, List.filterMap_flatMap, List.flatMap_map] at hgroups
    exact hgroups
  obtain ⟨calls, hcalls, hcallsPerm⟩ := List.perm_comp_forall₂ hperm hmatched.flip
  have hcomplete : next.finish.stats.complete = (lossless log).length := by
    have hcount : next.finish.stats.complete = (os.map Outcome.event).countP Option.isSome :=
      hacc.complete
    rw [hcount, List.countP_eq_length_filter, ← List.reduceOption_length_eq, hperm.length_eq,
      hmatched.length_eq]
  refine ⟨⟨calls, hcallsPerm, hcalls.flip⟩, hcomplete, ?_, ?_, ?_⟩
  · rw [← hrecords.begins h, ← hacc.begun, ← hacc.size, Nat.add_assoc]
    rfl
  · exact (congrArg ReassemblyStats.orphanRecords hstats).trans horphans
  · exact (congrArg ReassemblyStats.kernelLosses hstats).trans hlosses

/-- The ring in its own order delivers the calls in theirs. -/
theorem Ledger.ordered (h : Ledger log s) (hid : s.probe.sequence < 2 ^ 64) {next : Reassembler}
    {evs : List (Option Event)}
    (hrun : Reassembler.fresh.run (s.probe.events.map trim) = .ok (next, evs)) :
    List.Forall₂ (fun x e => x.call.image = some e) (lossless log) evs.reduceOption := by
  have hlen : evs.length = (s.probe.events.map trim).length := Machine.length_run hrun
  have hrecords : Interleaved s (s.probe.events.map trim) := fun _ => rfl
  have hmatched := hrecords.matched h hid hrun
  have hgroups : ∀ x ∈ published log, ∀ b ∈ x.records, recordId b = x.eventId :=
    fun x _ b hb => x.recordId_eq hb
  have hfst : ((s.probe.events.map trim).zip evs).map Prod.fst =
      (published log).flatMap Emission.records := by
    rw [List.map_fst_zip hlen.ge, h.records]
  have hshares := congrArg (List.map Prod.snd)
    (Keys.eq_flatMap_share hgroups (h.eventIds_nodup hid) hfst)
  rw [List.map_snd_zip hlen.le, List.map_flatMap] at hshares
  rw [hshares, List.reduceOption, List.filterMap_flatMap]
  exact hmatched

/-! ## Unfinished events -/

/-- Whether an id is open depends on its own records only. -/
theorem mem_openIds_own (id : UInt64) (l : List Bytes) : id ∈ openIds l ↔ id ∈ openIds (own id l) := by
  induction l using List.reverseRecOn with
  | nil => rfl
  | append_singleton l b ih =>
    rw [openIds_append_singleton, own, List.filter_append]
    change _ ↔ id ∈ openIds (own id l ++ _)
    by_cases hb : recordId b = id
    · rw [List.filter_cons_of_pos (by simpa using hb), List.filter_nil, openIds_append_singleton]
      unfold openStep
      rw [hb]
      split
      · simp
      · split
        · simp
        · exact ih
    · rw [List.filter_cons_of_neg (by simpa using hb), List.filter_nil, List.append_nil, ← ih]
      unfold openStep
      split
      · simp [Ne.symm hb]
      · split
        · simp [Ne.symm hb]
        · rfl

/-- The events that lost their `END`. -/
def cutIds (log : List Output) : Finset UInt64 :=
  (((published log).filter fun x => 0 < x.ringLost).map Emission.eventId).toFinset

theorem length_filter_le_sum (calls : List Emission) :
    (calls.filter fun x => 0 < x.ringLost).length ≤ (calls.map Emission.ringLost).sum := by
  induction calls with
  | nil => rfl
  | cons x rest ih =>
    rw [List.map_cons, List.sum_cons, List.filter_cons]
    split
    · rename_i hx
      have hpos : 0 < x.ringLost := by simpa using hx
      rw [List.length_cons]
      omega
    · omega

theorem Ledger.card_cutIds {log : List Output} {s : Tracker} (h : Ledger log s) :
    (cutIds log).card ≤ s.probe.stats.ringLosses := by
  have hsub : List.Sublist ((published log).map Emission.ringLost)
      ((emissions log).map Emission.ringLost) := List.filter_sublist.map _
  calc (cutIds log).card ≤ ((published log).filter fun x => 0 < x.ringLost).length :=
        (List.toFinset_card_le _).trans (List.length_map _).le
    _ ≤ ((published log).map Emission.ringLost).sum := length_filter_le_sum _
    _ ≤ ((emissions log).map Emission.ringLost).sum := hsub.sum_le_sum fun _ _ => Nat.zero_le _
    _ ≤ s.probe.stats.ringLosses := h.ringLost

/-- The unfinished events are those whose call is in progress, and those that
lost their `END`. -/
theorem Interleaved.openIds_subset (hrecords : Interleaved s records) (h : Ledger log s)
    (hid : s.probe.sequence < 2 ^ 64) {pre : List Bytes} (hpre : pre <+: records) :
    openIds pre ⊆ cutIds log ∪ Keys.inside recordId pre records := by
  intro id hopen
  have hown := (mem_openIds_own id pre).mp hopen
  obtain ⟨b, hb⟩ : ∃ b, b ∈ own id pre := by
    by_contra hnone
    rw [not_exists] at hnone
    rw [List.eq_nil_iff_forall_not_mem.mpr hnone] at hown
    simp [openIds] at hown
  obtain ⟨hbpre, rfl⟩ := mem_own.mp hb
  rw [Finset.mem_union]
  rcases @Keys.whole_or_inside _ _ _ recordId _ _ hpre b hbpre with hwhole | hinside
  · obtain ⟨x, hx, -, hbx⟩ := hrecords.mem_published h (hpre.subset hbpre)
    change own (recordId b) pre = own (recordId b) records at hwhole
    rw [hwhole, hbx, hrecords.own_published h hid hx] at hown
    have hlost : x.start.stats.ringLosses < x.final.stats.ringLosses := by
      obtain ⟨m, buffer, sg, iso, h⟩ := streams_of_published hx
      exact h.stream.lost_end (h.id.symm ▸ hown)
    refine .inl (List.mem_toFinset.mpr (List.mem_map.mpr ⟨x, List.mem_filter.mpr ⟨hx, ?_⟩, hbx.symm⟩))
    unfold Emission.ringLost
    simpa using hlost
  · exact .inr hinside

theorem Interleaved.card_openIds (hrecords : Interleaved s records) (h : Ledger log s)
    (hid : s.probe.sequence < 2 ^ 64) {pre : List Bytes} (hpre : pre <+: records) :
    (openIds pre).card ≤
      s.probe.stats.ringLosses + (Keys.inside recordId pre records).card :=
  calc (openIds pre).card ≤ (cutIds log ∪ Keys.inside recordId pre records).card :=
        Finset.card_le_card (hrecords.openIds_subset h hid hpre)
    _ ≤ (cutIds log).card + _ := Finset.card_union_le _ _
    _ ≤ _ := Nat.add_le_add_right h.card_cutIds _

/-- The records of a run are accepted while the table has room for the calls in
progress and the lost `END`s. -/
theorem Interleaved.run (hrecords : Interleaved s records) (h : Ledger log s)
    (hid : s.probe.sequence < 2 ^ 64)
    (hroom : ∀ pre, pre <+: records →
      s.probe.stats.ringLosses + (Keys.inside recordId pre records).card < maxPendingEvents) :
    ∃ next evs, Reassembler.fresh.run records = .ok (next, evs) := by
  have hslots : ∀ id, ∃ res, Machine.run slotBytes (Reassembler.fresh.slots id)
      (records.filter fun b => recordId b = id) = .ok res := by
    intro id
    rw [slots_fresh]
    change ∃ res, Machine.run slotBytes none (own id records) = .ok res
    cases hown : own id records with
    | nil => exact ⟨_, rfl⟩
    | cons b rest =>
      have hb : b ∈ own id records := hown ▸ List.mem_cons_self
      obtain ⟨hmem, rfl⟩ := mem_own.mp hb
      obtain ⟨x, hx, -, hbx⟩ := hrecords.mem_published h hmem
      obtain ⟨t, os, hslot⟩ := x.slotRun (h.valid x (List.mem_of_mem_filter hx))
      rw [← hown, hbx, hrecords.own_published h hid hx]
      exact ⟨_, hslot.run⟩
  obtain ⟨⟨next, evs⟩, hrun⟩ := Reassembler.run_of_slots (Machine.run_keyed_of_slots hslots)
    fun pre hpre => (hrecords.card_openIds h hid hpre).trans_lt (hroom pre hpre)
  exact ⟨next, evs, hrun⟩

end

end UsbScope.Ebpf
