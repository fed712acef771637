import UsbScope.Capture.Reassembler

/-! # One slot for each event id

A record touches only the pending event of its id, except that opening an
event also needs room in the table. `slotStep` is the machine of a single id;
`step_ok_iff` says that a successful `push` is exactly one step of the machine
of the record's id, with the statistics counting its outcome. Runs of the
reassembler are therefore runs of the keyed machine (`run_slots`), and the
keyed runs lift back as long as fewer than 4096 events are unfinished
(`run_of_slots`). -/
namespace UsbScope.Capture
open UsbScope.Lib UsbScope.Common

/-- What a record led to. -/
inductive Outcome where
  | summary (losses : List Nat)
  | opened
  | stored
  | orphan
  | delivered (event : Event)
  | dropped

def Outcome.event : Outcome → Option Event
  | .delivered e => some e
  | _ => none

def ReassemblyStats.count (s : ReassemblyStats) : Outcome → ReassemblyStats
  | .summary losses => { s with kernelLosses := losses.foldl saturatingAdd s.kernelLosses }
  | .opened => s
  | .stored => s
  | .orphan => { s with orphanRecords := s.orphanRecords + 1 }
  | .delivered _ => { s with complete := s.complete + 1 }
  | .dropped => { s with incomplete := s.incomplete + 1 }

/-- The event id in a record's header. -/
def recordId (bytes : Bytes) : UInt64 := u64At bytes 8

/-- The record kind in a record's header. -/
def recordKind (bytes : Bytes) : UInt16 := u16At bytes 2

theorem parse_ok {bytes : Bytes} {r : Record} (h : Record.parse bytes = .ok r) :
    r.id = recordId bytes ∧ r.kind = recordKind bytes := by
  unfold Record.parse at h
  simp only [ensure_bind_eq_ok, Result.pure_eq_ok] at h
  obtain ⟨_, _, _, rfl⟩ := h
  exact ⟨rfl, rfl⟩

/-- The fields of a published header, whatever follows it. -/
theorem header_fields (h : RecordHeader) (rest : Bytes) :
    u16At (h.wire ++ rest) 0 = h.version ∧ u16At (h.wire ++ rest) 2 = h.kind ∧
      u32At (h.wire ++ rest) 4 = h.size ∧ u64At (h.wire ++ rest) 8 = h.eventId ∧
      u64At (h.wire ++ rest) 16 = h.offset := by
  simp only [RecordHeader.wire, RecordHeader.layout, List.append_assoc, u16At, u32At, u64At]
  refine ⟨u16_bytes _ _ _, ?_, ?_, ?_, ?_⟩
  · rw [u16_skip (by simp)]
    simp
  · rw [u32_skip (by simp), u32_skip (by simp)]
    simp
  · rw [u64_skip (by simp), u64_skip (by simp), u64_skip (by simp)]
    simp
  · rw [u64_skip (by simp), u64_skip (by simp), u64_skip (by simp), u64_skip (by simp)]
    simp

/-- A published record is read back, with or without reservation bytes behind
it. -/
theorem parse_record {kind : UInt16} {id offset : UInt64} {body : Bytes}
    (h : body.length ≤ chunkSize) (rest : Bytes) :
    Record.parse (record kind id offset body ++ rest) = .ok { kind, id, offset, body } := by
  unfold chunkSize at h
  have hsize : (UInt32.ofNat (24 + body.length)).toNat = 24 + body.length :=
    UInt32.toNat_ofNat_of_lt' (by simp only [UInt32.size]; omega)
  obtain ⟨h0, h2, h4, h8, h16⟩ := header_fields
    { version := abiVersion, kind := kind, size := UInt32.ofNat (24 + body.length),
      eventId := id, offset := offset } (body ++ rest)
  unfold record Record.parse
  rw [List.append_assoc]
  simp only [ensure_bind_eq_ok, Result.pure_eq_ok, h0, h2, h4, h8, h16, hsize]
  refine ⟨by simp, trivial, ⟨⟨by omega, by unfold maxRecordSize chunkSize; omega⟩, ?_⟩, ?_⟩
  · simp only [List.length_append, RecordHeader.length_wire]
    omega
  · rw [List.take_append, List.take_of_length_le (by simp), List.drop_append,
      List.drop_eq_nil_of_le (by simp)]
    simp

theorem parse_published {kind : UInt16} {id offset : UInt64} {body : Bytes}
    (h : body.length ≤ chunkSize) :
    Record.parse (record kind id offset body) =
      .ok { kind := kind, id := id, offset := offset, body := body } := by
  simpa using parse_record h []

theorem recordId_record (kind : UInt16) (id offset : UInt64) (body : Bytes) :
    recordId (record kind id offset body) = id := (header_fields _ _).2.2.2.1

theorem recordKind_record (kind : UInt16) (id offset : UInt64) (body : Bytes) :
    recordKind (record kind id offset body) = kind := (header_fields _ _).2.1

/-- What an open event does with a record. -/
def Pending.slotStep (p : Pending) (r : Record) : Result (Option Pending × Outcome) :=
  if r.kind = recordData then
    match p.pushData r.offset.toNat r.body with
    | (_, .error e) => .error e
    | (p', .ok ()) => .ok (some p', .stored)
  else if r.kind = recordIso then
    match p.pushIso r.offset.toNat r.body with
    | .error e => .error e
    | .ok p' => .ok (some p', .stored)
  else if r.body.length = 16 ∧ r.offset = 0 then
    match p.isComplete r.body with
    | .error e => .error e
    | .ok false => .ok (none, .dropped)
    | .ok true => .ok (none, .delivered p.event)
  else .error "invalid event end"

/-- The metadata of a `BEGIN` record. -/
def beginMeta (r : Record) : Result EventMeta := do
  ensure (r.offset = 0) "metadata offset must be zero"
  decodeMeta r.body

/-- The machine of one event id. -/
def slotStep (s : Option Pending) (r : Record) : Result (Option Pending × Outcome) :=
  if r.kind = recordStats then
    if r.id = 0 ∧ r.offset = 0 ∧ r.body.length = 64 then .ok (s, .summary (summaryLosses r.body))
    else .error "invalid kernel counter summary"
  else if r.kind = recordBegin then
    match s, beginMeta r with
    | some _, _ => .error "duplicate event begin"
    | none, .error e => .error e
    | none, .ok m => .ok (some (Pending.opened m), .opened)
  else if ¬ (r.kind = recordData ∨ r.kind = recordIso ∨ r.kind = recordEnd) then
    .error ("unknown record kind " ++ toString r.kind)
  else
    match s with
    | none => .ok (none, .orphan)
    | some p => p.slotStep r

def slotBytes (s : Option Pending) (bytes : Bytes) : Result (Option Pending × Outcome) :=
  match Record.parse bytes with
  | .error e => .error e
  | .ok r => slotStep s r

/-- The moves of a slot on a record, case by case. -/
inductive Moves (b : Bytes) : Option Pending → Option Pending → Outcome → Prop
  | summary {s : Option Pending} {r : Record} (parsed : Record.parse b = .ok r)
      (kind : r.kind = recordStats) (shape : r.id = 0 ∧ r.offset = 0 ∧ r.body.length = 64) :
      Moves b s s (.summary (summaryLosses r.body))
  | opened {r : Record} {m : EventMeta} (parsed : Record.parse b = .ok r)
      (kind : r.kind = recordBegin) (declared : beginMeta r = .ok m) :
      Moves b none (some (Pending.opened m)) .opened
  | orphan {r : Record} (parsed : Record.parse b = .ok r)
      (kind : r.kind = recordData ∨ r.kind = recordIso ∨ r.kind = recordEnd) :
      Moves b none none .orphan
  | data {r : Record} {p p' : Pending} (parsed : Record.parse b = .ok r)
      (kind : r.kind = recordData) (pushed : p.pushData r.offset.toNat r.body = (p', .ok ())) :
      Moves b (some p) (some p') .stored
  | iso {r : Record} {p p' : Pending} (parsed : Record.parse b = .ok r)
      (kind : r.kind = recordIso) (pushed : p.pushIso r.offset.toNat r.body = .ok p') :
      Moves b (some p) (some p') .stored
  | ended {r : Record} {p : Pending} {c : Bool} (parsed : Record.parse b = .ok r)
      (kind : r.kind = recordEnd) (shape : r.body.length = 16 ∧ r.offset = 0)
      (checked : p.isComplete r.body = .ok c) :
      Moves b (some p) none (if c then .delivered p.event else .dropped)

/-- The slot machine makes exactly these moves. -/
theorem slotBytes_ok_iff {b : Bytes} {s t : Option Pending} {o : Outcome} :
    slotBytes s b = .ok (t, o) ↔ Moves b s t o := by
  constructor
  · intro h
    unfold slotBytes at h
    split at h
    · cases h
    rename_i r hr
    unfold slotStep at h
    split at h
    · rename_i hk
      split at h
      · rename_i hshape
        cases h
        exact .summary hr hk hshape
      · cases h
    split at h
    · rename_i hk
      split at h
      · cases h
      · cases h
      · rename_i m hm
        cases h
        exact .opened hr hk hm
    split at h
    · cases h
    rename_i hkind
    rw [not_not] at hkind
    split at h
    · cases h
      exact .orphan hr hkind
    rename_i p
    unfold Pending.slotStep at h
    split at h
    · rename_i hk
      split at h
      · cases h
      · rename_i p' hp
        cases h
        exact .data hr hk hp
    rename_i hd
    split at h
    · rename_i hk
      split at h
      · cases h
      · rename_i p' hp
        cases h
        exact .iso hr hk hp
    rename_i hi
    have hk := (hkind.resolve_left hd).resolve_left hi
    split at h
    · rename_i hshape
      split at h
      · cases h
      · rename_i hc
        cases h
        exact .ended hr hk hshape hc
      · rename_i hc
        cases h
        exact .ended hr hk hshape hc
    · cases h
  · intro h
    unfold slotBytes slotStep Pending.slotStep
    cases h with
    | summary hr hk hshape => simp [hr, hk, hshape]
    | opened hr hk hm => simp [hr, hk, hm, recordBegin, recordStats]
    | orphan hr hk =>
      rcases hk with hk | hk | hk <;>
        simp [hr, hk, recordBegin, recordStats, recordData, recordIso, recordEnd]
    | data hr hk hp => simp [hr, hk, hp, recordBegin, recordStats, recordData]
    | iso hr hk hp => simp [hr, hk, hp, recordBegin, recordStats, recordData, recordIso]
    | @ended r p c hr hk hshape hc =>
      cases c <;>
        simp [hr, hk, hshape, hc, recordBegin, recordStats, recordData, recordIso, recordEnd]

/-- The table with the slot of `id` set. -/
def setSlot (t : Std.ExtTreeMap UInt64 Pending) (id : UInt64) :
    Option Pending → Std.ExtTreeMap UInt64 Pending
  | some p => t.insert id p
  | none => t.erase id

theorem getElem?_setSlot (t : Std.ExtTreeMap UInt64 Pending) (id : UInt64) (s : Option Pending)
    (k : UInt64) : (setSlot t id s)[k]? = if id = k then s else t[k]? := by
  cases s with
  | none => simp [setSlot, Std.ExtTreeMap.getElem?_erase]
  | some p => simp [setSlot, Std.ExtTreeMap.getElem?_insert]

theorem setSlot_self (t : Std.ExtTreeMap UInt64 Pending) (id : UInt64) :
    setSlot t id t[id]? = t := by
  apply Std.ExtTreeMap.ext_getElem?
  intro k
  rw [getElem?_setSlot]
  split
  · rename_i h; rw [h]
  · rfl

namespace Reassembler

def slots (self : Reassembler) : UInt64 → Option Pending := fun id => self.pending[id]?

/-- An open event takes the record as its slot does, or both refuse it. -/
theorem pushRecord_open {self : Reassembler} {r : Record} {p : Pending}
    (hkind : r.kind = recordData ∨ r.kind = recordIso ∨ r.kind = recordEnd)
    (hslot : self.pending[r.id]? = some p) :
    match p.slotStep r with
    | .ok (s, o) => self.pushRecord r =
        ({ pending := setSlot self.pending r.id s, stats := self.stats.count o }, .ok o.event)
    | .error message => ∃ next, self.pushRecord r = (next, .error message) := by
  have hother : ¬ r.kind = recordStats ∧ ¬ r.kind = recordBegin := by
    rcases hkind with hk | hk | hk <;> rw [hk] <;> decide
  rw [pushRecord, if_neg hother.1, if_neg hother.2, if_neg (not_not.mpr hkind), hslot,
    Pending.slotStep]
  dsimp only
  by_cases hdata : r.kind = recordData
  · rw [if_pos hdata, if_pos hdata]
    rcases p.pushData r.offset.toNat r.body with ⟨p', _ | _⟩
    · exact ⟨_, rfl⟩
    · rfl
  rw [if_neg hdata, if_neg hdata]
  by_cases hiso : r.kind = recordIso
  · rw [if_pos hiso, if_pos hiso]
    cases p.pushIso r.offset.toNat r.body with
    | error message => exact ⟨_, rfl⟩
    | ok p' => rfl
  rw [if_neg hiso, if_neg hiso, pushEnd]
  by_cases hend : r.body.length = 16 ∧ r.offset = 0
  · rw [if_pos hend, if_pos hend]
    rcases p.isComplete r.body with _ | _ | _
    · exact ⟨_, rfl⟩
    · rfl
    · rfl
  · rw [if_neg hend, if_neg hend]
    exact ⟨_, rfl⟩

/-- A step of the slot is a push, if an event that begins finds room. -/
theorem pushRecord_of_slot {self : Reassembler} {r : Record} {s : Option Pending} {o : Outcome}
    (h : slotStep (self.slots r.id) r = .ok (s, o))
    (hroom : r.kind = recordBegin → self.pending.size < maxPendingEvents) :
    self.pushRecord r =
      ({ pending := setSlot self.pending r.id s, stats := self.stats.count o }, .ok o.event) := by
  unfold slotStep at h
  unfold pushRecord
  split at h
  · rename_i hstats
    rw [if_pos hstats]
    unfold pushStats
    split at h
    · rename_i hbody
      cases h
      rw [if_pos hbody, slots, setSlot_self]
      rfl
    · cases h
  rename_i hstats
  rw [if_neg hstats]
  split at h
  · rename_i hbegin
    rw [if_pos hbegin]
    split at h
    · cases h
    · cases h
    · rename_i m hslot hm
      cases h
      unfold beginMeta at hm
      rw [ensure_bind_eq_ok] at hm
      have hnot : r.id ∉ self.pending := by
        rw [Std.ExtTreeMap.mem_iff_isSome_getElem?]
        simpa [slots] using hslot
      simp [pushBegin, ensure_of _ hm.1, ensure_of _ hnot, ensure_of _ (hroom hbegin), hm.2,
        setSlot, ReassemblyStats.count, Outcome.event]
  rename_i hbegin
  rw [if_neg hbegin]
  split at h
  · cases h
  rename_i hkind
  rw [if_neg hkind]
  split at h
  · rename_i hslot
    cases h
    replace hslot : self.pending[r.id]? = none := hslot
    have hself := setSlot_self self.pending r.id
    rw [hslot] at hself ⊢
    simp [ReassemblyStats.count, Outcome.event, hself]
  · rename_i p hslot
    have hopen := pushRecord_open (not_not.mp hkind) hslot
    rw [h] at hopen
    dsimp only at hopen
    rw [pushRecord, if_neg hstats, if_neg hbegin, if_neg hkind] at hopen
    exact hopen

/-- A successful push is a step of the slot of the record's id. -/
theorem slot_of_pushRecord {self next : Reassembler} {r : Record} {ev : Option Event}
    (h : self.pushRecord r = (next, .ok ev)) :
    (∃ s o, slotStep (self.slots r.id) r = .ok (s, o)) ∧
      (r.kind = recordBegin → self.pending.size < maxPendingEvents) := by
  have hpush := h
  unfold pushRecord at h
  unfold slotStep
  split at h
  · rename_i hstats
    rw [if_pos hstats]
    unfold pushStats at h
    split at h
    · rename_i hbody
      rw [if_pos hbody]
      exact ⟨⟨_, _, rfl⟩, fun hb => by rw [hb] at hstats; exact absurd hstats (by decide)⟩
    · cases h
  rename_i hstats
  rw [if_neg hstats]
  split at h
  · rename_i hbegin
    rw [if_pos hbegin]
    unfold pushBegin at h
    dsimp only at h
    split at h
    · cases h
    · rename_i m hm
      simp only [ensure_bind_eq_ok] at hm
      obtain ⟨hoff, hnot, hroom, hmeta⟩ := hm
      have hslot : self.slots r.id = none := by
        rw [Std.ExtTreeMap.mem_iff_isSome_getElem?] at hnot
        simpa [slots] using hnot
      have hb : beginMeta r = .ok m := by
        unfold beginMeta
        rw [ensure_bind_eq_ok]
        exact ⟨hoff, hmeta⟩
      rw [hslot, hb]
      exact ⟨⟨_, _, rfl⟩, fun _ => hroom⟩
  rename_i hbegin
  rw [if_neg hbegin]
  refine ⟨?_, fun hb => absurd hb hbegin⟩
  split at h
  · cases h
  rename_i hkind
  rw [if_neg hkind]
  split at h
  · rename_i hslot
    replace hslot : self.slots r.id = none := hslot
    rw [hslot]
    exact ⟨_, _, rfl⟩
  · rename_i p hslot
    have hopen := pushRecord_open (not_not.mp hkind) hslot
    replace hslot : self.slots r.id = some p := hslot
    rw [hslot]
    dsimp only
    cases hstep : p.slotStep r with
    | ok result => exact ⟨result.1, result.2, rfl⟩
    | error message =>
      rw [hstep] at hopen
      obtain ⟨next', herror⟩ := hopen
      rw [herror] at hpush
      cases hpush

/-- What a successful `push` does. -/
theorem step_ok_iff {self next : Reassembler} {bytes : Bytes} {ev : Option Event} :
    self.step bytes = .ok (next, ev) ↔
      ∃ s o, slotBytes (self.slots (recordId bytes)) bytes = .ok (s, o) ∧
        (recordKind bytes = recordBegin → self.pending.size < maxPendingEvents) ∧
        next = { pending := setSlot self.pending (recordId bytes) s,
                 stats := self.stats.count o } ∧ ev = o.event := by
  unfold step push slotBytes
  cases hp : Record.parse bytes with
  | error e => simp
  | ok r =>
    obtain ⟨hid, hkind⟩ := parse_ok hp
    rw [← hid, ← hkind]
    dsimp only
    constructor
    · intro h
      split at h
      · cases h
      · rename_i hpush
        cases h
        obtain ⟨⟨s, o, hs⟩, hroom⟩ := slot_of_pushRecord hpush
        rw [pushRecord_of_slot hs hroom] at hpush
        cases hpush
        exact ⟨s, o, hs, hroom, rfl, rfl⟩
    · rintro ⟨s, o, hs, hroom, rfl, rfl⟩
      rw [pushRecord_of_slot hs hroom]

/-! ## Runs -/

/-- All slots, side by side. -/
abbrev keyedStep : (UInt64 → Option Pending) → Bytes →
    Result ((UInt64 → Option Pending) × Outcome) := Machine.keyed recordId slotBytes

theorem slots_setSlot (self : Reassembler) (id : UInt64) (s : Option Pending)
    (stats : ReassemblyStats) :
    slots { pending := setSlot self.pending id s, stats } = Function.update self.slots id s := by
  funext k
  rw [slots, getElem?_setSlot, Function.update_apply]
  simp only [eq_comm]
  rfl

theorem keyed_of_step {self next : Reassembler} {bytes : Bytes} {ev : Option Event}
    (h : self.step bytes = .ok (next, ev)) :
    ∃ o, keyedStep self.slots bytes = .ok (next.slots, o) ∧ ev = o.event ∧
      next.stats = self.stats.count o := by
  obtain ⟨s, o, hs, _, rfl, rfl⟩ := step_ok_iff.mp h
  refine ⟨o, ?_, rfl, rfl⟩
  unfold keyedStep Machine.keyed
  rw [hs, slots_setSlot]

/-- A run of the reassembler is a run of its slots; the statistics count the
outcomes. -/
theorem run_slots {self next : Reassembler} {records : List Bytes} {evs : List (Option Event)}
    (h : self.run records = .ok (next, evs)) :
    ∃ os, Machine.run keyedStep self.slots records = .ok (next.slots, os) ∧
      evs = os.map Outcome.event ∧ next.stats = os.foldl ReassemblyStats.count self.stats := by
  induction records generalizing self evs with
  | nil => cases h; exact ⟨[], rfl, rfl, rfl⟩
  | cons b rest ih =>
    obtain ⟨mid, ev, evs', hstep, hrest, rfl⟩ := Machine.run_cons.mp h
    obtain ⟨o, hk, rfl, hst⟩ := keyed_of_step hstep
    obtain ⟨os, hrun, rfl, hstats⟩ := ih hrest
    exact ⟨o :: os, Machine.run_cons.mpr ⟨_, _, _, hk, hrun, rfl⟩, rfl, by
      rw [hstats, hst]; rfl⟩

/-- The slot of one id sees exactly the records of that id. -/
theorem run_slot {self next : Reassembler} {records : List Bytes} {evs : List (Option Event)}
    (h : self.run records = .ok (next, evs)) (id : UInt64) :
    ∃ os, Machine.run slotBytes (self.slots id) (records.filter fun b => recordId b = id) =
        .ok (next.slots id, os) ∧
      Machine.outputsOf recordId id records evs = os.map Outcome.event := by
  obtain ⟨os, hrun, rfl, _⟩ := run_slots h
  exact ⟨_, Machine.run_keyed hrun id, Machine.outputsOf_map _ _ _ _ _⟩

end Reassembler

/-! ## Unfinished events -/

/-- The effect of a record on the set of open ids: a `BEGIN` opens its id, an
`END` closes it. -/
def openStep (ids : Finset UInt64) (bytes : Bytes) : Finset UInt64 :=
  if recordKind bytes = recordBegin then insert (recordId bytes) ids
  else if recordKind bytes = recordEnd then ids.erase (recordId bytes)
  else ids

/-- The ids whose event has begun and not ended in a sequence of records. -/
def openIds (records : List Bytes) : Finset UInt64 := records.foldl openStep ∅

theorem openIds_append_singleton (records : List Bytes) (b : Bytes) :
    openIds (records ++ [b]) = openStep (openIds records) b := by simp [openIds]

/-- Which slots a step leaves open. -/
theorem slotBytes_isSome {s t : Option Pending} {b : Bytes} {o : Outcome}
    (h : slotBytes s b = .ok (t, o)) :
    t.isSome = if recordKind b = recordBegin then true
      else if recordKind b = recordEnd then false else s.isSome := by
  cases slotBytes_ok_iff.mp h with
  | summary hr hk _ => rw [← (parse_ok hr).2, hk]; rfl
  | opened hr hk _ => rw [← (parse_ok hr).2, hk]; rfl
  | orphan hr hk =>
    rw [← (parse_ok hr).2]
    rcases hk with hk | hk | hk <;> rw [hk] <;> rfl
  | data hr hk _ => rw [← (parse_ok hr).2, hk]; rfl
  | iso hr hk _ => rw [← (parse_ok hr).2, hk]; rfl
  | ended hr hk _ _ => rw [← (parse_ok hr).2, hk]; rfl

namespace Reassembler

theorem size_setSlot (t : Std.ExtTreeMap UInt64 Pending) (ids : Finset UInt64) (id : UInt64)
    (s : Option Pending) (hmem : ∀ k, k ∈ t ↔ k ∈ ids) (hsize : t.size = ids.card) :
    (setSlot t id s).size = (if s.isSome then insert id ids else ids.erase id).card := by
  have hid := hmem id
  cases s with
  | some p =>
    simp only [setSlot, Std.ExtTreeMap.size_insert, Option.isSome_some, if_true]
    by_cases h : id ∈ ids
    · rw [Finset.insert_eq_of_mem h, if_pos (by simpa using hid.mpr h), hsize]
    · rw [Finset.card_insert_of_notMem h, if_neg (by simpa using fun ht => h (hid.mp ht)), hsize]
  | none =>
    simp only [setSlot, Std.ExtTreeMap.size_erase, Option.isSome_none, Bool.false_eq_true, if_false]
    by_cases h : id ∈ ids
    · rw [Finset.card_erase_of_mem h, if_pos (by simpa using hid.mpr h), hsize]
    · rw [Finset.erase_eq_of_notMem h, if_neg (by simpa using fun ht => h (hid.mp ht)), hsize]

/-- The pending table holds exactly the open ids. -/
theorem step_openIds {self next : Reassembler} {b : Bytes} {ev : Option Event}
    {ids : Finset UInt64} (hmem : ∀ k, k ∈ self.pending ↔ k ∈ ids)
    (hsize : self.pending.size = ids.card) (h : self.step b = .ok (next, ev)) :
    (∀ k, k ∈ next.pending ↔ k ∈ openStep ids b) ∧ next.pending.size = (openStep ids b).card := by
  obtain ⟨s, o, hs, _, rfl, _⟩ := step_ok_iff.mp h
  have hsome := slotBytes_isSome hs
  have hold : (self.slots (recordId b)).isSome = decide (recordId b ∈ ids) := by
    have := hmem (recordId b)
    rw [Std.ExtTreeMap.mem_iff_isSome_getElem?] at this
    rw [Bool.eq_iff_iff, decide_eq_true_iff]
    exact this
  rw [hold] at hsome
  have hset : openStep ids b =
      if s.isSome then insert (recordId b) ids else ids.erase (recordId b) := by
    rw [hsome]
    unfold openStep
    split
    · rfl
    · split
      · rfl
      · by_cases hin : recordId b ∈ ids
        · simp [hin]
        · simp [hin]
  refine ⟨fun k => ?_, ?_⟩
  · rw [hset, Std.ExtTreeMap.mem_iff_isSome_getElem?, getElem?_setSlot]
    split
    · rename_i hk
      subst hk
      cases s <;> simp
    · rename_i hk
      rw [← Std.ExtTreeMap.mem_iff_isSome_getElem?, hmem]
      cases s <;> simp [Ne.symm hk]
  · rw [hset]
    exact size_setSlot _ _ _ _ hmem hsize

theorem run_openIds {next : Reassembler} {records : List Bytes} {evs : List (Option Event)}
    (h : fresh.run records = .ok (next, evs)) :
    (∀ k, k ∈ next.pending ↔ k ∈ openIds records) ∧
      next.pending.size = (openIds records).card := by
  refine Machine.run_history (I := fun l _ st => (∀ k, k ∈ st.pending ↔ k ∈ openIds l) ∧
    st.pending.size = (openIds l).card) ?_ ?_ h
  · simp [fresh, openIds]
  · intro l _ st b st' o ⟨hmem, hsize⟩ hstep
    rw [openIds_append_singleton]
    exact step_openIds hmem hsize hstep

/-- Runs of the slots lift to the reassembler while the table has room. -/
theorem run_of_slots {records : List Bytes}
    (h : ∃ res, Machine.run keyedStep fresh.slots records = .ok res)
    (hroom : ∀ pre, pre <+: records → (openIds pre).card < maxPendingEvents) :
    ∃ res, fresh.run records = .ok res := by
  induction records using List.reverseRecOn with
  | nil => exact ⟨_, rfl⟩
  | append_singleton l b ih =>
    obtain ⟨⟨τ, os⟩, hrun⟩ := h
    obtain ⟨σ, os₁, os₂, h1, h2, rfl⟩ := Machine.run_append.mp hrun
    obtain ⟨⟨mid, evs⟩, hmid⟩ := ih ⟨_, h1⟩ fun pre hp => hroom pre (hp.trans (List.prefix_append _ _))
    obtain ⟨os', hos', _, _⟩ := run_slots hmid
    rw [h1] at hos'
    cases hos'
    obtain ⟨o, hstep, rfl⟩ := Machine.run_singleton.mp h2
    have hsize := (run_openIds hmid).2
    have hlt := hroom l (List.prefix_append _ _)
    unfold keyedStep Machine.keyed at hstep
    split at hstep
    · cases hstep
    · rename_i s o' hs
      exact ⟨_, Machine.run_append.mpr ⟨_, _, _, hmid, Machine.run_singleton.mpr
        ⟨_, step_ok_iff.mpr ⟨s, o', hs, fun _ => by omega, rfl, rfl⟩, rfl⟩, rfl⟩⟩

end Reassembler
end UsbScope.Capture
